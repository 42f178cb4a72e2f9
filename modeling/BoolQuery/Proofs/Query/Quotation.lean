import BoolQuery.Proofs.Query.Places
import BoolQuery.Proofs.Query.Rendering

/-! Where quotations stand in the text of a tree. Only values are quoted, and only those that
could not be written bare; what follows a value is a symbol. A field that had to be quoted is
written without its quotes. If there is a quotation mark in it, the text behind the mark is
split as no one intended, but the place of the first such field is still known. -/

namespace BoolQuery

namespace Query

/-- Every quotation has to be one, and nothing but a symbol follows it. -/
structure WellQuoted (ts : List Token) : Prop where
  needed : ∀ t ∈ ts, t.kind = .quoted → isBareWord t.text = false
  followed : ts.IsChain fun t u => t.kind = .quoted → u.kind = .symbol

namespace WellQuoted

variable {t : Token} {ts us : List Token}

theorem nil : WellQuoted [] := ⟨by simp, .nil⟩

theorem singleton (h : t.kind = .quoted → isBareWord t.text = false) : WellQuoted [t] :=
  ⟨by simpa using h, .singleton t⟩

theorem append (h : WellQuoted ts) (h' : WellQuoted us)
    (hjoin : ∀ t ∈ ts.getLast?, t.kind = .quoted → ∀ u ∈ us.head?, u.kind = .symbol) :
    WellQuoted (ts ++ us) := by
  refine ⟨?_, ?_⟩
  · intro t ht
    rcases List.mem_append.1 ht with ht | ht
    · exact h.needed t ht
    · exact h'.needed t ht
  · exact List.isChain_append.2 ⟨h.followed, h'.followed, fun t ht u hu hk => hjoin t ht hk u hu⟩

theorem unquoted_append (h : ∀ t ∈ ts, t.kind ≠ .quoted) (h' : WellQuoted us) :
    WellQuoted (ts ++ us) := by
  induction ts with
  | nil => exact h'
  | cons t ts ih =>
    have ht := h t (by simp)
    have hts := ih fun u hu => h u (by simp [hu])
    have hone : WellQuoted [t] := singleton fun hk => absurd hk ht
    refine hone.append hts ?_
    intro u hu hk
    obtain rfl : t = u := by simpa using hu
    exact absurd hk ht

theorem cons_symbol (ht : t.kind = .symbol) (h : WellQuoted ts) : WellQuoted (t :: ts) := by
  have hone : ∀ u ∈ [t], u.kind ≠ .quoted := by simp [ht]
  exact unquoted_append hone h

theorem append_symbol (h : WellQuoted ts) (ht : t.kind = .symbol) (h' : WellQuoted us) :
    WellQuoted (ts ++ t :: us) :=
  h.append (h'.cons_symbol ht) fun _ _ _ u hu => by
    obtain rfl : t = u := by simpa using hu
    exact ht

theorem of_infix (h : WellQuoted ts) (hus : us <:+: ts) : WellQuoted us :=
  ⟨fun t ht => h.needed t (hus.subset ht), h.followed.infix hus⟩

end WellQuoted

/-- A field that has to be quoted for another reason than a quotation mark in it. -/
def IsTame (field : String) : Prop := '"' ∈ field.toList → IsWord field.toList

/-- The text comes to the field behind tokens in which quotations have their place. These are
empty or end in a joiner, and nothing but openings stands between them and the field. -/
structure Exposes (cs : List Char) (field : String) (us os : List Token)
    (after : List Char) : Prop where
  quoted : WellQuoted us
  last : ∀ t ∈ us.getLast?, t.isJoiner = true
  openings : ∀ o ∈ os, o.isOpening = true
  follows : Follows after
  tokenize : ∀ rest, Closes rest →
    tokenize (cs ++ rest) = us ++ (os ++ tokenize (field.toList ++ (after ++ rest)))

namespace Exposes

variable {cs ds after : List Char} {field : String} {us os ts : List Token}

theorem append (h : Exposes cs field us os after)
    (hcloses : ∀ rest, Closes (ds ++ rest)) : Exposes (cs ++ ds) field us os (after ++ ds) := by
  refine ⟨h.quoted, h.last, h.openings, h.follows.append ds, ?_⟩
  intro rest _
  have hmore := h.tokenize _ (hcloses rest)
  simpa using hmore

/-- An opening before the text is among the tokens before the field. -/
theorem cons {c : Char} {t : Token} (h : Exposes cs field us os after) (ht : t.isOpening = true)
    (htok : ∀ rest, Closes rest →
      Query.tokenize (c :: (cs ++ rest)) = t :: Query.tokenize (cs ++ rest)) :
    ∃ us' os', stated us ≤ stated us' ∧ Exposes (c :: cs) field us' os' after := by
  have htok' (rest : List Char) (hrest : Closes rest) : Query.tokenize (c :: cs ++ rest) =
      t :: (us ++ (os ++ Query.tokenize (field.toList ++ (after ++ rest)))) := by
    rw [List.cons_append, htok rest hrest, h.tokenize rest hrest]
  cases hus : us with
  | nil =>
    subst hus
    exact ⟨[], t :: os, Nat.le_refl _, .nil, by simp, List.forall_mem_cons.2 ⟨ht, h.openings⟩,
      h.follows, htok'⟩
  | cons u us' =>
    subst hus
    have hsymbol := Token.symbol_of_isOpening ht
    refine ⟨t :: u :: us', os, stated_le_cons t _, h.quoted.cons_symbol hsymbol, ?_, h.openings,
      h.follows, htok'⟩
    rw [List.getLast?_cons_cons]
    exact h.last

theorem joiner_append (hlex : Lexes cs ts) (hts : WellQuoted ts) (c : Condition)
    (h : Exposes ds field us os after) : Exposes (cs ++ (c.joiner.toList ++ ds)) field
      (ts ++ ⟨.symbol, String.ofList [joinSign c]⟩ :: us) os after := by
  refine ⟨hts.append_symbol rfl h.quoted, ?_, h.openings, h.follows, ?_⟩
  · intro t ht
    rw [List.getLast?_append, List.getLast?_cons] at ht
    cases hus : us.getLast? with
    | none =>
      rw [hus] at ht
      obtain rfl : (⟨.symbol, String.ofList [joinSign c]⟩ : Token) = t := by simpa using ht
      exact Token.isJoiner_joinSign c
    | some u =>
      rw [hus] at ht
      obtain rfl : u = t := by simpa using ht
      exact h.last u hus
  · intro rest hrest
    rw [List.append_assoc, List.append_assoc, hlex _ (closes_joiner c _), tokenize_joiner,
      h.tokenize rest hrest]
    simp

end Exposes

/-- What is known of the text of a tree that holds these rules: it goes wrong in every query, or
quotations have their place in all of it, or up to a field of one of the rules. -/
inductive Charted (xs : List Rule) (cs : List Char) : Prop
  | derails : Derails cs → Charted xs cs
  | lexes {ts} : Lexes cs ts → WellQuoted ts → xs.length ≤ stated ts → Charted xs cs
  | exposes {r ys zs us os after} : xs = ys ++ r :: zs → ¬ IsTame r.field →
      r.isDocumentSearch = false → ys.length ≤ stated us → Exposes cs r.field us os after →
      Charted xs cs

namespace Charted

variable {cs ds : List Char} {xs ys : List Rule}

theorem parentheses (h : Charted xs cs) : Charted xs (inParentheses cs) := by
  have hl : (⟨.symbol, "("⟩ : Token).surrounds = true := by decide
  have hr : (⟨.symbol, ")"⟩ : Token).surrounds = true := by decide
  cases h with
  | derails h => exact .derails h.parentheses
  | lexes hlex hts hlength =>
    refine .lexes (lexes_parentheses hlex) (.cons_symbol rfl (hts.append_symbol rfl .nil)) ?_
    rwa [stated_cons hl, stated_concat hr]
  | exposes hxs htame hsearch hlength h =>
    have hcloses (rest : List Char) : Closes ([')'] ++ rest) := .parenthesis rest
    have hclosed := h.append hcloses
    have htok (rest : List Char) : tokenize ('(' :: (cs ++ [')'] ++ rest)) =
        ⟨.symbol, "("⟩ :: tokenize (cs ++ [')'] ++ rest) :=
      tokenize_symbol (by decide) (by decide) _
    obtain ⟨us, os, hstated, hopened⟩ := hclosed.cons (by decide) fun rest _ => htok rest
    exact .exposes hxs htame hsearch (Nat.le_trans hlength hstated) hopened

theorem joined (h : Charted xs cs) (h' : Charted ys ds) (c : Condition) :
    Charted (xs ++ ys) (cs ++ (c.joiner.toList ++ ds)) := by
  cases h with
  | derails h => exact .derails (h.append_joiner c ds)
  | exposes hxs htame hsearch hlength h =>
    refine .exposes (by rw [hxs, List.append_assoc, List.cons_append]) htame hsearch hlength
      (h.append fun rest => ?_)
    rw [List.append_assoc]
    exact closes_joiner c _
  | @lexes ts hlex hts hlength =>
    have hstated (us : List Token) :
        stated (ts ++ ⟨.symbol, String.ofList [joinSign c]⟩ :: us) = stated ts + stated us :=
      stated_join (Token.isJoiner_joinSign c) ts us
    cases h' with
    | derails h' => exact .derails (.joiner_append hlex h')
    | lexes hlex' hus hlength' =>
      refine .lexes (lexes_joiner hlex hlex') (hts.append_symbol rfl hus) ?_
      rw [hstated, List.length_append]
      omega
    | exposes hys htame hsearch hlength' h' =>
      rw [hys, ← List.append_assoc]
      refine .exposes rfl htame hsearch ?_ (.joiner_append hlex hts c h')
      rw [hstated, List.length_append]
      omega

/-- A `!` before an equals sign is an operator without a field. -/
theorem derails_of_head {cs : List Char} (h : cs.head? = some '=') : Derails ('!' :: cs) := by
  obtain ⟨ds, rfl⟩ : ∃ ds, cs = '=' :: ds := by
    cases cs with
    | nil => cases h
    | cons c ds =>
      obtain rfl : c = '=' := by simpa using h
      exact ⟨ds, rfl⟩
  intro rest _
  have hread : Lexeme.read? ('!' :: '=' :: (ds ++ rest)) =
      some (⟨.operator, "!="⟩, ds ++ rest) := by
    simp [Lexeme.read?, Lexeme.comparison?, Lexeme.operator]
  rw [List.cons_append, List.cons_append, tokenize_of_read? (by decide) hread]
  exact .head rfl _

theorem bang (h : Charted xs cs) : Charted xs ('!' :: cs) := by
  by_cases hhead : cs.head? = some '='
  · exact .derails (derails_of_head hhead)
  cases hkey : opensKeyword cs with
  | true => exact .derails (derails_of_opensKeyword hkey)
  | false =>
    have hhead (rest : List Char) (hrest : Closes rest) : (cs ++ rest).head? ≠ some '=' := by
      cases cs with
      | nil => exact hrest.head?_ne
      | cons c cs => simpa using hhead
    have htok (rest : List Char) (hrest : Closes rest) :
        tokenize ('!' :: (cs ++ rest)) = ⟨.symbol, "!"⟩ :: tokenize (cs ++ rest) :=
      tokenize_bang_append hrest (hhead rest hrest) hkey
    cases h with
    | derails h =>
      refine .derails ?_
      intro rest hrest
      rw [List.cons_append, htok rest hrest]
      exact (h rest hrest).append_left rfl []
    | @lexes ts hlex hts hlength =>
      have hlex' : Lexes ('!' :: cs) (⟨.symbol, "!"⟩ :: ts) := by
        intro rest hrest
        rw [List.cons_append, htok rest hrest, hlex rest hrest]
        rfl
      refine .lexes hlex' (hts.cons_symbol rfl) ?_
      rwa [stated_cons (by decide)]
    | exposes hxs htame hsearch hlength h =>
      obtain ⟨us, os, hstated, hopened⟩ := h.cons (by decide) htok
      exact .exposes hxs htame hsearch (Nat.le_trans hlength hstated) hopened

end Charted

/-- A check of `Links`. -/
def isLink (cs : List Char) : Bool :=
  !cs.any isMark && cs.getLast?.any ([' ', '=', '<', '>'].contains ·) && cs.head?.any isReserved &&
    (cs.reverse.dropWhile Text.isBlank).head?.any (!Lexeme.symbols.contains ·)

theorem links_of_isLink {cs : List Char} (h : isLink cs = true) : Links cs := by
  simp only [isLink, Bool.and_eq_true, Bool.not_eq_true'] at h
  obtain ⟨⟨⟨hmark, hlast⟩, hhead⟩, hvisible⟩ := h
  refine ⟨?_, ?_, ?_, ?_, ?_⟩
  · intro c hc
    exact Bool.eq_false_iff.2 (List.any_eq_false.1 hmark c hc)
  · intro c hc
    rw [Option.mem_def.1 hc] at hlast
    exact List.contains_iff_mem.1 hlast
  · intro hnil
    rw [hnil] at hhead
    cases hhead
  · intro c hc
    rwa [Option.mem_def.1 hc] at hhead
  · have hsplit := List.takeWhile_append_dropWhile (p := Text.isBlank) (l := cs.reverse)
    have hblanks := List.all_eq_true.1 (List.all_takeWhile (p := Text.isBlank) (l := cs.reverse))
    have hnot := List.head?_dropWhile_not Text.isBlank cs.reverse
    generalize cs.reverse.takeWhile Text.isBlank = bs at hsplit hblanks
    generalize cs.reverse.dropWhile Text.isBlank = ds at hsplit hvisible hnot
    cases ds with
    | nil => cases hvisible
    | cons c ds =>
      refine ⟨ds.reverse, c, bs.reverse, ?_, by simpa using hblanks, hnot, by simpa using hvisible⟩
      rw [← List.reverse_reverse cs, ← hsplit]
      simp

theorem IsBare.isPlain {cs : List Char} (h : IsBare cs) : IsPlain cs := by
  have hquote : '"' ∉ cs := h.not_mem (by decide) (by decide)
  have hback : '\\' ∉ cs := h.not_mem (by decide) (by decide)
  intro c hc
  simp only [isMark, Bool.or_eq_false_iff, beq_eq_false_iff_ne]
  exact ⟨fun heq => hquote (heq ▸ hc), fun heq => hback (heq ▸ hc)⟩

/-- An operator with the space around it. -/
def linkText (op : String) : List Char := gap op ++ operatorText op ++ gap op

theorem links_of_isOperator {op : String} (h : IsOperator op) : Links (linkText op) := by
  have hall : ∀ op ∈ ["=", "==", "!=", "<", "<=", ">", ">=", "!contains", "!like", "not in"],
      isLink (linkText op) = true := by decide +kernel
  refine h.of_forall (fun op hop => links_of_isLink (hall op hop)) ?_
  intro op hword
  have hbare := isBare_of_isCapitalWord (isCapitalWord_upper hword)
  have hplain := hbare.isPlain
  have hspace : IsPlain [' '] := by simp [IsPlain, isMark]
  rw [linkText, gap_of_isLowerWord hword, operatorText_of_isLowerWord hword]
  refine ⟨(hspace.append hplain).append hspace, ?_, by simp, .cons (by decide) _, ?_⟩
  · intro c hc
    rw [List.getLast?_concat] at hc
    obtain rfl : ' ' = c := Option.some.inj hc
    simp
  · obtain ⟨cs, c, hcs⟩ : ∃ cs c, op.toList.map Char.toUpper = cs ++ [c] :=
      ⟨_, _, (List.dropLast_append_getLast hbare.ne_nil).symm⟩
    obtain ⟨hblank, hender⟩ := not_mem_of_not_reserved (hbare.isWord.plain c (by simp [hcs]))
    have hsymbols : ∀ d ∈ Lexeme.symbols, d ∈ wordEnders := List.all_iff_forall_prop.1 (by decide)
    refine ⟨' ' :: cs, c, [' '], by simp [hcs], ?_, hblank, fun hmem => hender (hsymbols c hmem)⟩
    exact List.forall_mem_singleton.2 (by decide)

theorem Precedes.word_append {cs ds : List Char} (hword : IsWord cs) (hends : EndsWord ds)
    (hne : ds ≠ []) (h : Precedes ds) : Precedes (cs ++ ds) := by
  obtain ⟨ts, o, hts, ho, htok⟩ := h
  refine ⟨⟨.word, String.ofList cs⟩ :: ts, o, List.forall_mem_cons.2 ⟨by simp, hts⟩, ho, ?_⟩
  intro rest hrest
  have hends' : EndsWord (ds ++ rest) := by
    obtain ⟨d, ds, rfl⟩ := List.exists_cons_of_ne_nil hne
    exact hends
  rw [List.append_assoc, tokenize_word hword hends', htok rest hrest]
  rfl

theorem precedes_field {field : String} {cs : List Char} (hfield : IsTame field) (h : Links cs) :
    Precedes (field.toList ++ cs) := by
  by_cases hquote : '"' ∈ field.toList
  · have hcs : Precedes ([] ++ cs) := h.precedes (by simp)
    exact hcs.word_append (hfield hquote) h.endsWord h.ne_nil
  · exact h.precedes hquote

/-- The text of a rule is split apart at its value, unless a mark in its field stands in the
way. -/
theorem charted_of_links {r : Rule} {link ds : List Char} (bs : List Token) (t : Token)
    (us : List Token)
    (htext : r.queryText = r.field.toList ++ (link ++ ds)) (hsearch : r.isDocumentSearch = false)
    (hlink : Links link) (hhead : ∀ rest, (ds ++ rest).head? ≠ some '=')
    (htok : ∀ rest, EndsWord rest → tokenize (ds ++ rest) = bs ++ t :: us ++ tokenize rest)
    (hbs : ∀ b ∈ bs, b.surrounds = true) (ht : t.kind ≠ .symbol) (hts : WellQuoted (bs ++ t :: us))
    (hfollows : Follows (link ++ ds)) : Charted [r] r.queryText := by
  rw [htext]
  by_cases htame : IsTame r.field
  · obtain ⟨vs, o, hvs, ho, hprecedes⟩ := precedes_field htame hlink
    have hlex : Lexes (r.field.toList ++ (link ++ ds)) (vs ++ [o] ++ (bs ++ t :: us)) := by
      intro rest hrest
      rw [← List.append_assoc, List.append_assoc, hprecedes _ (hhead rest),
        htok rest hrest.endsWord]
      simp
    refine .lexes hlex (.unquoted_append hvs hts) ?_
    rw [List.append_assoc]
    exact stated_pos_of_pair ho hbs ht vs us
  · have hexposes : Exposes (r.field.toList ++ (link ++ ds)) r.field [] [] (link ++ ds) := by
      refine ⟨.nil, by simp, by simp, hfollows, fun rest _ => ?_⟩
      rw [List.append_assoc]
      rfl
    have hrules : [r] = [] ++ r :: [] := rfl
    exact .exposes hrules htame hsearch (Nat.zero_le _) hexposes

end Query

namespace Value
open Query

theorem needed_of_token? {v : Value} {t : Token} (h : v.token? = some t)
    (hk : t.kind = .quoted) : isBareWord t.text = false := by
  unfold token? at h
  split at h <;> cases h
  · simp only at hk
    split at hk
    · cases hk
    · rename_i hbare
      simpa using hbare
  · cases hk

theorem wellQuoted_intersperse {ts : List Token}
    (h : ∀ t ∈ ts, t.kind = .quoted → isBareWord t.text = false) :
    WellQuoted (ts.intersperse comma) := by
  induction ts with
  | nil => exact .nil
  | cons t ts ih =>
    have ht : WellQuoted [t] := .singleton (h t (by simp))
    have hts := ih fun u hu => h u (by simp [hu])
    cases ts with
    | nil => exact ht
    | cons u us => exact ht.append_symbol rfl hts

/-- A scalar behind a link, perhaps as the first one of a list. -/
theorem follows_queryText {v : Value} {t : Token} (h : v.token? = some t) {link opening : List Char}
    (hlink : Links link) (hopening : opening = [] ∨ opening = ['(']) (rest : List Char) :
    Follows (link ++ (opening ++ (v.queryText ++ rest))) := by
  rcases queryText_cases h with hbare | ⟨w, hw⟩
  · obtain ⟨c, cs, hcs⟩ := List.exists_cons_of_ne_nil hbare.ne_nil
    have hmem : c ∈ v.queryText := by simp [hcs]
    have hword : ReachesWord (link ++ (opening ++ [c])) :=
      .ofLink hlink hopening (hbare.isWord.plain c hmem) (hbare.isPlain c hmem)
    have hsplit : link ++ (opening ++ (v.queryText ++ rest)) =
        link ++ (opening ++ [c]) ++ (cs ++ rest) := by simp [hcs]
    rw [hsplit]
    exact .word _ hword
  · have hplain : IsPlain (link ++ opening) := by
      refine hlink.plain.append ?_
      rcases hopening with rfl | rfl <;> simp [IsPlain, isMark]
    have hsplit : link ++ (opening ++ (v.queryText ++ rest)) =
        link ++ opening ++ '"' :: ((w.toList.flatMap Text.escape ++ ['"']) ++ rest) := by
      simp [hw, Text.quote]
    rw [hsplit]
    exact .quotation _ hplain (by simp [hlink.ne_nil])

theorem queryText_cons (v : Value) (vs : List Value) :
    ∃ more, (list (v :: vs)).queryText = ['('] ++ (v.queryText ++ more) := by
  rw [queryText, queryTexts]
  cases queryTexts vs with
  | nil => exact ⟨[')'], by simp⟩
  | cons text texts => exact ⟨',' :: ([','].intercalate (text :: texts) ++ [')']), by simp⟩

end Value

namespace Rule
open Query

theorem charted_documentSearch {v : Value} {t : Token} (h : v.token? = some t) :
    Charted [documentSearch v] (documentSearch v).queryText := by
  rw [queryText_documentSearch]
  have hlex : Lexes v.queryText [t] := fun rest hrest =>
    Value.tokenize_queryText h hrest.endsWord
  have hk := Token.kind_of_isLiteral (Value.isLiteral_of_token? h)
  exact .lexes hlex (.singleton (Value.needed_of_token? h))
    (stated_pos_of_mem hk (Value.isRuleSetName_of_token? h) (by simp))

theorem follows_null {link : List Char} (hlink : Links link) : Follows (link ++ "NULL".toList) := by
  have hword : ReachesWord (link ++ ([] ++ ['N'])) :=
    .ofLink hlink (.inl rfl) (by decide) (by decide)
  have hsplit : link ++ "NULL".toList = link ++ ([] ++ ['N']) ++ "ULL".toList := by
    rw [List.append_assoc]
    rfl
  rw [hsplit]
  exact .word _ hword

theorem charted_nullTest (field : String) (negated : Bool) :
    Charted [nullTest field negated] (nullTest field negated).queryText := by
  have hnull : IsBare "NULL".toList := isBare_of_isCapitalWord (by decide)
  have hlink : Links (if negated then " IS NOT ".toList else " IS ".toList) := by
    cases negated
    · exact links_of_isLink (by decide)
    · exact links_of_isLink (by decide)
  refine charted_of_links [] ⟨.word, "NULL"⟩ [] ?_
    (isDocumentSearch_nullTest field negated) hlink (by simp)
    (fun rest hrest => tokenize_word hnull.isWord hrest) (by simp) (by simp)
    (.singleton fun hk => by cases hk) (follows_null hlink)
  rw [queryText_nullTest]
  cases negated <;> simp [nullTest]

theorem charted_comparison {field op : String} {v : Value} (bs : List Token) (t : Token)
    (us : List Token)
    (hop : IsOperator op) (hsearch : isDocumentSearch { field, operator := op } = false)
    (hhead : ∀ rest, (v.queryText ++ rest).head? ≠ some '=')
    (htok : ∀ rest, EndsWord rest →
      tokenize (v.queryText ++ rest) = bs ++ t :: us ++ tokenize rest)
    (hbs : ∀ b ∈ bs, b.surrounds = true) (ht : t.kind ≠ .symbol) (hts : WellQuoted (bs ++ t :: us))
    (hfollows : Follows (linkText op ++ v.queryText)) :
    Charted [{ field, operator := op, value := some v }]
      (queryText { field, operator := op, value := some v }) := by
  refine charted_of_links bs t us ?_ hsearch (links_of_isOperator hop) hhead htok hbs ht hts
    hfollows
  rw [queryText_of_not_search hsearch]
  simp [linkText]

theorem charted_compare {field op : String} {v : Value} {t : Token} (hop : IsOperator op)
    (hsearch : isDocumentSearch { field, operator := op } = false) (ht : v.token? = some t) :
    Charted [{ field, operator := op, value := some v }]
      (queryText { field, operator := op, value := some v }) := by
  have hfollows := Value.follows_queryText ht (links_of_isOperator hop) (.inl rfl) []
  exact charted_comparison [] t [] hop hsearch (Value.head?_queryText_ne ht)
    (fun rest hrest => Value.tokenize_queryText ht hrest) (by simp)
    (Token.kind_of_isLiteral (Value.isLiteral_of_token? ht))
    (.singleton (Value.needed_of_token? ht)) (by simpa using hfollows)

theorem charted_among {field op : String} {vs : List Value} {ts : List Token}
    (hop : isListOperator op = true) (hne : vs ≠ []) (hts : Value.tokens? vs = some ts) :
    Charted [{ field, operator := op, value := some (.list vs) }]
      (queryText { field, operator := op, value := some (.list vs) }) := by
  obtain ⟨v, vs, rfl⟩ := List.exists_cons_of_ne_nil hne
  have hneeded := Value.forall_of_tokens? Value.needed_of_token? hts
  obtain ⟨t, us, ht, _, rfl⟩ := Value.tokens?_cons hts
  obtain ⟨ws, hws⟩ : ∃ ws, (t :: us).intersperse Value.comma = t :: ws := by
    cases us with
    | nil => exact ⟨[], rfl⟩
    | cons u us => exact ⟨_, rfl⟩
  have hquoted : WellQuoted ([⟨.symbol, "("⟩] ++ t :: (ws ++ [⟨.symbol, ")"⟩])) := by
    have hinside := Value.wellQuoted_intersperse hneeded
    rw [hws] at hinside
    exact .cons_symbol rfl (hinside.append_symbol rfl .nil)
  have htok (rest : List Char) (_ : EndsWord rest) :
      tokenize ((Value.list (v :: vs)).queryText ++ rest) =
        [⟨.symbol, "("⟩] ++ t :: (ws ++ [⟨.symbol, ")"⟩]) ++ tokenize rest := by
    rw [tokenize_list hts rest, hws]
    rfl
  refine charted_comparison _ _ _ (isOperator_of_isListOperator hop)
    (isDocumentSearch_of_isListOperator hop) (by simp [Value.queryText]) htok
    (List.forall_mem_singleton.2 (by decide))
    (Token.kind_of_isLiteral (Value.isLiteral_of_token? ht)) hquoted ?_
  obtain ⟨more, hmore⟩ := Value.queryText_cons v vs
  rw [hmore]
  exact Value.follows_queryText ht (links_of_isOperator (isOperator_of_isListOperator hop))
    (.inr rfl) more

end Rule

namespace Node
open Query

theorem charted_joinedText {kids : List Node} (c : Condition) (hne : kids ≠ [])
    (h : ∀ n ∈ kids, ∀ outer, Charted (Leaf.rulesAmong n.leaves) (n.queryText outer)) :
    Charted (Leaf.rulesAmong (leavesOfAll kids)) (joinedText c kids) := by
  induction kids with
  | nil => exact absurd rfl hne
  | cons n ns ih =>
    have hn := h n (by simp) (some c)
    cases ns with
    | nil =>
      rw [joinedText_singleton, leavesOfAll_singleton]
      exact hn
    | cons m ns =>
      rw [joinedText_cons, leavesOfAll, Leaf.rulesAmong_append]
      exact hn.joined (ih (by simp) fun k hk => h k (by simp [hk])) c

theorem charted_nameText {name : String} (h : isRuleSetName name = true) (negated : Bool) :
    Charted [] (nameText negated name) := by
  have hquoted : WellQuoted [⟨.word, name⟩] := .singleton fun hk => by cases hk
  have hname : Charted [] name.toList := .lexes (lexes_name h) hquoted (Nat.zero_le _)
  cases negated with
  | false => exact hname
  | true => exact hname.bang

/-- Behind a `!` stands a name, or what is inside the ruleset. -/
theorem charted_negated {h : Header} {kids : List Node} (hname : h.name = none)
    (hneg : h.negated = true) (hproper : ProperAll (fun r => Charted [r] r.queryText) kids)
    (hinside : Charted (Leaf.rulesAmong (leavesOfAll kids)) (joinedText h.condition kids))
    (outer : Option Condition) :
    Charted (Leaf.rulesAmong (leavesOfAll kids)) ((group h kids).queryText outer) := by
  cases hsole : soleName? kids with
  | some name =>
    obtain ⟨header, below, rfl, _, hheader⟩ := soleName?_eq_some hsole
    have hrsn : isRuleSetName name = true := by simpa [ProperAll, Proper, hheader] using hproper
    have hleaves : leavesOfAll [group header below] = [.name name] := by
      simp [leavesOfAll, leaves, hheader]
    rw [queryText_of_soleName? hname hneg hsole, hleaves]
    exact charted_nameText hrsn true
  | none =>
    rw [queryText_of_negated hname hneg hsole, negatedText]
    refine Charted.bang ?_
    split
    · exact hinside
    · exact hinside.parentheses

/-- Without a mark, a ruleset is written as its one child or as what is inside it. -/
theorem charted_unmarked {h : Header} {kids : List Node} (hname : h.name = none)
    (hneg : h.negated = false)
    (hinside : Charted (Leaf.rulesAmong (leavesOfAll kids)) (joinedText h.condition kids))
    (hkids : ∀ n ∈ kids, ∀ outer, Charted (Leaf.rulesAmong n.leaves) (n.queryText outer))
    (outer : Option Condition) :
    Charted (Leaf.rulesAmong (leavesOfAll kids)) ((group h kids).queryText outer) := by
  rw [queryText_of_unmarked hname hneg]
  obtain ⟨only, rfl, _, htext, _⟩ | ⟨htext, _⟩ := aloneText?_cases outer kids
  · rw [htext, leavesOfAll_singleton]
    exact hkids only (by simp) outer
  · rw [htext, Option.getD_none]
    split
    · exact hinside.parentheses
    · exact hinside

mutual

/-- If the texts of its rules are charted, the text of a node is. -/
theorem charted_queryText : (n : Node) → n.Proper (fun r => Charted [r] r.queryText) →
    ∀ outer, Charted (Leaf.rulesAmong n.leaves) (n.queryText outer)
  | rule _ => fun h _ => h
  | group h kids => fun hn outer => by
    unfold Proper at hn
    cases hname : h.name with
    | some name =>
      simp only [hname] at hn
      simp only [queryText, leaves, hname]
      exact charted_nameText hn h.negated
    | none =>
      simp only [hname] at hn
      have hkids := charted_queryText_all kids hn.2
      have hinside : Charted (Leaf.rulesAmong (leavesOfAll kids)) (joinedText h.condition kids) :=
        charted_joinedText _ hn.1 hkids
      rw [leaves_of_name_eq_none kids hname]
      cases hneg : h.negated with
      | true => exact charted_negated hname hneg hn.2 hinside outer
      | false => exact charted_unmarked hname hneg hinside hkids outer

theorem charted_queryText_all : (ns : List Node) →
    ProperAll (fun r => Charted [r] r.queryText) ns →
    ∀ n ∈ ns, ∀ outer, Charted (Leaf.rulesAmong n.leaves) (n.queryText outer)
  | [] => fun _ n hn => by cases hn
  | m :: ns => fun hns =>
    List.forall_mem_cons.2 ⟨charted_queryText m hns.1, charted_queryText_all ns hns.2⟩

end

end Node

end BoolQuery
