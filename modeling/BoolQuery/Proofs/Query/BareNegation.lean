import BoolQuery.Proofs.Query.Rendering
import BoolQuery.Proofs.Query.Splitting

/-! Negation with and without parentheses. Where a tree is negated as `!` and the text of its only
rule, `!` and the text in parentheses would say the same if the first sign of that text were not
part of it: a `!` goes into a keyword with the letters behind it, and it negates only the first of
several operands. This compares what the two texts are read as. -/

namespace BoolQuery

namespace Query

namespace Lexeme

/-- Reading the inside of a quotation with a closing parenthesis behind the text: it leaves the
parenthesis behind, or the quotation was open and takes it in. -/
def Closed (read read' : List Char × List Char) : Prop :=
  read' = (read.1, read.2 ++ [')']) ∨ read.2 = [] ∧ read'.2 = []

theorem Closed.consChar {read read' : List Char × List Char} (h : Closed read read') (c : Char) :
    Closed (consChar c read) (consChar c read') := by
  obtain rfl | hopen := h
  · exact .inl rfl
  · exact .inr hopen

theorem unquote_u {cs : List Char} (h : ∀ h₁ h₂ h₃ h₄ after,
    cs = h₁ :: h₂ :: h₃ :: h₄ :: after → Text.hexUnit? h₁ h₂ h₃ h₄ = none) :
    unquote ('\\' :: 'u' :: cs) = Lexeme.consChar 'u' (unquote cs) := by
  have hquote : ('\\' == '"') = false := by decide
  rw [unquote.eq_def]
  simp only [hquote, beq_self_eq_true, if_true, Bool.false_eq_true, if_false]
  split
  · rename_i h₁ h₂ h₃ h₄ after
    rw [h h₁ h₂ h₃ h₄ after rfl]
  · rfl

theorem hexUnit?_closing (h₁ h₂ h₃ : Char) : Text.hexUnit? h₁ h₂ h₃ ')' = none := by
  have hnone : Text.hexValue? ')' = none := by decide
  simp [Text.hexUnit?, hnone]

theorem closed_unquote : (cs : List Char) → Closed (unquote cs) (unquote (cs ++ [')']))
  | [] => .inr (by decide)
  | c :: cs => by
    by_cases hquote : c = '"'
    · rw [hquote, List.cons_append, unquote_closing, unquote_closing]
      exact .inl rfl
    by_cases hback : c = '\\'
    · subst hback
      rcases cs with _ | ⟨e, rest⟩
      · exact .inr (by decide)
      by_cases he : e = 'u'
      · subst he
        by_cases hunit : ∃ h₁ h₂ h₃ h₄ after n,
            rest = h₁ :: h₂ :: h₃ :: h₄ :: after ∧ Text.hexUnit? h₁ h₂ h₃ h₄ = some n
        · obtain ⟨h₁, h₂, h₃, h₄, after, n, rfl, hn⟩ := hunit
          simp only [List.cons_append, unquote_unit hn]
          exact (closed_unquote after).consChar _
        · -- The parenthesis is no digit, so it makes no code unit of the digits before it.
          have hnone : ∀ h₁ h₂ h₃ h₄ after,
              rest = h₁ :: h₂ :: h₃ :: h₄ :: after → Text.hexUnit? h₁ h₂ h₃ h₄ = none :=
            fun h₁ h₂ h₃ h₄ after heq => Option.eq_none_iff_forall_ne_some.2 fun n hn =>
              hunit ⟨h₁, h₂, h₃, h₄, after, n, heq, hn⟩
          have hnone' : ∀ h₁ h₂ h₃ h₄ after,
              rest ++ [')'] = h₁ :: h₂ :: h₃ :: h₄ :: after →
                Text.hexUnit? h₁ h₂ h₃ h₄ = none := by
            intro h₁ h₂ h₃ h₄ after heq
            rcases rest with _ | ⟨a, _ | ⟨b, _ | ⟨d, _ | ⟨f, fs⟩⟩⟩⟩ <;> simp at heq
            · obtain ⟨rfl, rfl, rfl, rfl, -⟩ := heq
              exact hexUnit?_closing a b d
            · obtain ⟨rfl, rfl, rfl, rfl, -⟩ := heq
              exact hnone a b d f fs rfl
          rw [List.cons_append, List.cons_append, unquote_u hnone, unquote_u hnone']
          exact (closed_unquote rest).consChar 'u'
      · rw [List.cons_append, List.cons_append, unquote_escaped he, unquote_escaped he]
        exact (closed_unquote rest).consChar _
    · rw [List.cons_append, unquote_cons _ hquote hback, unquote_cons _ hquote hback]
      exact (closed_unquote cs).consChar c
termination_by cs => cs.length

theorem read?_quote (cs : List Char) : read? ('"' :: cs) =
    some (⟨.quoted, String.ofList (unquote cs).1⟩, (unquote cs).2) := by
  have hcmp : comparison? ('"' :: cs) = none := by
    simp only [comparison?]
    split <;> rfl
  have hsym : symbol? ('"' :: cs) = none := by simp [symbol?, symbols]
  simp [read?, hcmp, hsym, negatedKeyword?, quoted?]

/-- A token other than a quotation is read alike before a closing parenthesis. -/
theorem read?_append_closing {c : Char} (hquote : c ≠ '"') (cs : List Char) :
    read? (c :: cs ++ [')']) = (read? (c :: cs)).map (withMore [')']) := by
  have hcmp : comparison? (c :: cs ++ [')']) = (comparison? (c :: cs)).map (withMore [')']) :=
    comparison?_more (by decide)
  have hkey : negatedKeyword? (c :: cs ++ [')']) =
      (negatedKeyword? (c :: cs)).map (withMore [')']) := by
    by_cases hc : c = '!'
    · rw [hc]
      exact negatedKeyword?_append (.parenthesis []) cs
    · rw [List.cons_append, negatedKeyword?_of_ne hc, negatedKeyword?_of_ne hc]
      rfl
  have hsym : symbol? (c :: cs ++ [')']) = (symbol? (c :: cs)).map (withMore [')']) := by
    simp only [symbol?, List.cons_append]
    split <;> rfl
  have hquoted : quoted? (c :: cs ++ [')']) = (quoted? (c :: cs)).map (withMore [')']) := by
    rw [List.cons_append, quoted?_of_ne hquote, quoted?_of_ne hquote]
    rfl
  have hword : word? (c :: cs ++ [')']) = (word? (c :: cs)).map (withMore [')']) := by
    have hstop : ∀ d ∈ ([')'] : List Char).head?, (!isReserved d) = false :=
      fun d hd => by simp [(Closes.parenthesis []).endsWord d hd]
    obtain ⟨htake, hdrop⟩ := takeWhile_append_of_head hstop (c :: cs)
    simp only [word?, htake, hdrop]
    split <;> rfl
  simp only [read?, hcmp, hkey, hsym, hquoted, hword, Option.map_or]

end Lexeme

open Text

/-- A closing parenthesis behind a text is a token of its own, unless a quotation at the end of the
text is open. -/
theorem tokenize_append_closing (cs : List Char) :
    tokenize (cs ++ [')']) = tokenize cs ++ [⟨.symbol, ")"⟩] ∨
      ∃ ts t u, u.kind = .quoted ∧ tokenize cs = ts ++ [t] ∧
        tokenize (cs ++ [')']) = ts ++ [u] := by
  fun_induction tokenize cs with
  | case1 =>
    refine .inl ?_
    rw [List.nil_append, tokenize_symbol (by decide) (by decide), tokenize_nil]
    rfl
  | case2 c cs hb ih => rwa [List.cons_append, tokenize_blank hb]
  | case3 c cs hb x hx ih =>
    have hb : isBlank c = false := by simpa using hb
    -- What is left of the text, with and without the parenthesis, is as the induction says.
    have hmore (hread : Lexeme.read? (c :: cs ++ [')']) = some (x.1, x.2 ++ [')'])) :
        tokenize (c :: cs ++ [')']) = x.1 :: tokenize x.2 ++ [⟨.symbol, ")"⟩] ∨
          ∃ ts t u, u.kind = .quoted ∧ x.1 :: tokenize x.2 = ts ++ [t] ∧
            tokenize (c :: cs ++ [')']) = ts ++ [u] := by
      have htok : tokenize (c :: cs ++ [')']) = x.1 :: tokenize (x.2 ++ [')']) :=
        tokenize_of_read? hb hread
      rw [htok]
      obtain hclosed | ⟨ts, t, u, hu, hts, hus⟩ := ih
      · exact .inl (by rw [hclosed, List.cons_append])
      · exact .inr ⟨x.1 :: ts, t, u, hu, by rw [hts, List.cons_append], by
          rw [hus, List.cons_append]⟩
    by_cases hquote : c = '"'
    · subst hquote
      have hxq := Option.some.inj (hx.symm.trans (Lexeme.read?_quote cs))
      subst hxq
      obtain hclosed | ⟨hnil, hnil'⟩ := Lexeme.closed_unquote cs
      · refine hmore ?_
        rw [List.cons_append, Lexeme.read?_quote, hclosed]
      · refine .inr ⟨[], ⟨.quoted, String.ofList (Lexeme.unquote cs).1⟩,
          ⟨.quoted, String.ofList (Lexeme.unquote (cs ++ [')'])).1⟩, rfl, ?_, ?_⟩
        · simp only [hnil, tokenize_nil, List.nil_append]
        · rw [List.cons_append, tokenize_of_read? hb (Lexeme.read?_quote _), hnil', tokenize_nil]
          rfl
    · refine hmore ?_
      rw [Lexeme.read?_append_closing hquote, hx]
      rfl
  | case4 c cs hb hnone => exact absurd hnone (Lexeme.read?_ne_none hb cs)

/-- A closing parenthesis among the tokens of a text with one behind it is that one, or was in the
text before. -/
theorem tokenize_of_closing {cs : List Char} {us vs : List Token} {r : Token}
    (hr : r.isSymbol ')' = true) (h : tokenize (cs ++ [')']) = us ++ r :: vs) :
    vs = [] ∧ tokenize cs = us ∨ vs ≠ [] ∧ ∃ ws, tokenize cs = us ++ r :: ws := by
  rcases tokenize_append_closing cs with hclosed | ⟨ts, t, u, hu, hts, hopen⟩
  · rw [hclosed] at h
    exact (exists_of_append_singleton h).imp (fun h => ⟨h.1, h.2.1⟩) id
  · rw [hopen] at h
    obtain ⟨-, -, rfl⟩ | ⟨hvs, ws, rfl⟩ := exists_of_append_singleton h
    · rw [Token.kind_of_isSymbol hr] at hu
      cases hu
    · exact .inr ⟨hvs, ws ++ [t], by simp [hts]⟩

theorem tokenize_bang_parentheses (cs : List Char) : tokenize ('!' :: inParentheses cs) =
    ⟨.symbol, "!"⟩ :: ⟨.symbol, "("⟩ :: tokenize (cs ++ [')']) := by
  rw [tokenize_bang (by simp [inParentheses]) rfl, inParentheses,
    tokenize_symbol (by decide) (by decide)]

namespace Expr

variable {level : Level} {b l : Token} {ts us : List Token} {e : Expr} {s : Schema}

/-- What a `!` before an expression makes of it: the first operand is negated. -/
def negateFirst : Expr → Expr
  | join condition l r => join condition l.negateFirst r
  | e => not e

theorem Spells.negateFirst (hb : b.isSymbol '!' = true) (h : Spells level ts e) :
    Spells level (b :: ts) e.negateFirst := by
  induction h with
  | clause h => exact .not hb (.clause h)
  | reference h => exact .not hb (.reference h)
  | not ht h _ => exact .not hb (.not ht h)
  | group hl hr h _ => exact .not hb (.group hl hr h)
  | single _ ih => exact .single ih
  | join _ ht hr ihl _ => exact .join ihl ht hr

theorem depth_negateFirst_le : (e : Expr) → e.negateFirst.depth ≤ e.depth + 1
  | clause _ | reference _ | not _ | group _ => Nat.le_refl _
  | join _ l r => by
    have := depth_negateFirst_le l
    simp only [negateFirst, depth]
    omega

theorem leaves_negateFirst (s : Schema) : (e : Expr) → e.negateFirst.leaves s = e.leaves s
  | clause _ | reference _ | not _ | group _ => rfl
  | join _ l r => by rw [negateFirst, leaves, leaves, leaves_negateFirst s l]

theorem leaves_ne_nil (s : Schema) (e : Expr) : e.leaves s ≠ [] := by
  induction e with
  | clause | reference => simp [leaves]
  | not e ih | group e ih => exact ih
  | join _ l r ihl _ => simp [leaves, ihl]

theorem two_le_length_leaves_join (s : Schema) (c : Condition) (l r : Expr) :
    2 ≤ ((join c l r).leaves s).length := by
  have hl := List.length_pos_iff.2 (leaves_ne_nil s l)
  have hr := List.length_pos_iff.2 (leaves_ne_nil s r)
  rw [leaves, List.length_append]
  omega

/-- The only operand is all of the expression. -/
theorem holds_negateFirst (h : (e.leaves s).length = 1) (a : Assignment) :
    e.negateFirst.holds s a = !e.holds s a := by
  cases e with
  | join c l r =>
    have := two_le_length_leaves_join s c l r
    omega
  | clause | reference | not | group => rfl

/-- A parenthesis at the start of an operand is closed at its end. -/
theorem Spells.exists_group (hl : l.isSymbol '(' = true) (h : Spells .operand (l :: ts) e) :
    ∃ us r e', ts = us ++ [r] ∧ r.isSymbol ')' = true ∧ Spells (.chain .or) us e' ∧
      e = .group e' := by
  have hlit {t : Token} (ht : t.isLiteral = true) : ¬ t.isSymbol '(' = true := by
    simp [Token.isSymbol_of_isLiteral ht]
  generalize hlts : l :: ts = us at h
  cases h with
  | clause hc =>
    obtain ⟨t, us, rfl, ht⟩ := hc.exists_cons
    obtain ⟨rfl, -⟩ := List.cons.inj hlts
    exact absurd hl (hlit (Token.isLiteral_of_startsClause ht))
  | reference ht =>
    obtain ⟨rfl, -⟩ := List.cons.inj hlts
    exact absurd hl (hlit (Token.isLiteral_of_isRuleSetName ht))
  | not ht _ =>
    obtain ⟨rfl, -⟩ := List.cons.inj hlts
    exact absurd hl (by simp [Token.isSymbol_ne ht])
  | group _ hr hspells =>
    obtain ⟨-, rfl⟩ := List.cons.inj hlts
    exact ⟨_, _, _, rfl, hr, hspells, rfl⟩

/-- A negated group at the start of an expression is all of it, or the expression is joined. -/
theorem Spells.exists_negated_group (hb : b.isSymbol '!' = true) (hl : l.isSymbol '(' = true)
    (h : Spells level (b :: l :: ts) e) :
    ∃ us r vs e', ts = us ++ r :: vs ∧ r.isSymbol ')' = true ∧ Spells (.chain .or) us e' ∧
      (vs = [] ∧ e = .not (.group e') ∨ vs ≠ [] ∧ ∃ c l r, e = .join c l r) := by
  generalize hbs : b :: l :: ts = bs at h
  induction h generalizing ts with
  | clause hc =>
    obtain ⟨t, us, rfl, ht⟩ := hc.exists_cons
    obtain ⟨rfl, -⟩ := List.cons.inj hbs
    rw [Token.isSymbol_of_isLiteral (Token.isLiteral_of_startsClause ht)] at hb
    cases hb
  | reference ht =>
    obtain ⟨rfl, -⟩ := List.cons.inj hbs
    rw [Token.isSymbol_of_isLiteral (Token.isLiteral_of_isRuleSetName ht)] at hb
    cases hb
  | not _ h _ =>
    obtain ⟨-, rfl⟩ := List.cons.inj hbs
    obtain ⟨us, r, e', rfl, hr, he', rfl⟩ := h.exists_group hl
    exact ⟨us, r, [], e', rfl, hr, he', .inl ⟨rfl, rfl⟩⟩
  | group hl' _ _ _ =>
    obtain ⟨rfl, -⟩ := List.cons.inj hbs
    exact absurd hb (by simp [Token.isSymbol_ne hl'])
  | single _ ih => exact ih hbs
  | @join c t as cs m n hm ht _ ihm _ =>
    -- The group is closed in the left operand, which cannot end before the parenthesis.
    obtain ⟨x, as, rfl⟩ := List.exists_cons_of_ne_nil hm.ne_nil
    obtain ⟨rfl, htail⟩ := List.cons.inj hbs
    cases as with
    | nil =>
      obtain ⟨rfl, -⟩ := List.cons.inj htail
      exact absurd (Token.isSymbol_unique hl ht) (by cases c <;> decide)
    | cons y as =>
      obtain ⟨rfl, rfl⟩ := List.cons.inj htail
      obtain ⟨us, r, vs, e', rfl, hr, he', -⟩ := ihm rfl
      exact ⟨us, r, vs ++ t :: cs, e', by simp, hr, he', .inr ⟨by simp, c, m, n, rfl⟩⟩

/-- An expression ends before a parenthesis that closes nothing in it. -/
theorem not_spells_append_closing {r : Token} (hr : r.isSymbol ')' = true)
    (h : Spells (.chain .or) us e) (vs : List Token) {e' : Expr} :
    ¬ Spells (.chain .or) (us ++ r :: vs) e' := by
  intro h'
  have hd := Nat.le_max_left e.depth e'.depth
  have hd' := Nat.le_max_right e.depth e'.depth
  have hends : Ends (.chain .or) (r :: vs) := .closing hr _ vs
  obtain ⟨p, hp, -, hrest⟩ := (completes_of_spells h).gives hd (hends.endsBefore e)
  obtain ⟨q, hq, -, hrest'⟩ := readerAt_of_spells h' hd'
  obtain rfl : p = q := Except.ok.inj (hp.symm.trans hq)
  cases hrest.symm.trans hrest'

end Expr

end Query

namespace Node
open Query

/-- The text of a ruleset that is negated without parentheses. -/
theorem queryText_of_negatesBare {h : Header} {kids : List Node} (hname : h.name = none)
    (hneg : h.negated = true) (hbare : negatesBare kids = true) (outer : Option Condition) :
    (group h kids).queryText outer = '!' :: joinedText h.condition kids := by
  rw [queryText]
  simp only [hname, hneg, hbare, if_true]
  split
  · rename_i name hsole
    obtain ⟨header, below, rfl, hpositive, hname⟩ := soleName?_eq_some hsole
    rw [joinedText_singleton, queryText]
    simp [hname, hpositive, nameText]
  · rfl

end Node

namespace Query

variable {s : Schema} {cs : List Char} {p : Parsed} {t : RuleSet}

/-- The text is read to its end, as a tree with the truth and the leaves of `p`. -/
def ReadsLike (s : Schema) (text : String) (p : Parsed) : Prop :=
  ∃ q, (parse s text).value = .ok q ∧ q.isComplete = true ∧
    (∀ a, q.tree.holds a = p.tree.holds a) ∧ q.tree.leaves = p.tree.leaves

/-- A `!` before the text negates all that the text says. -/
def NegatesAll (s : Schema) (cs : List Char) : Prop :=
  ∃ e, Expr.Spells (.chain .or) (tokenize cs) e ∧ ∀ a, e.negateFirst.holds s a = !e.holds s a

/-- The tokens of a text behind a `!`, which begins no operator with it. -/
theorem tokenize_bang_of_head {us ts : List Token} {e : Expr} (hkey : opensKeyword cs = false)
    (h : Expr.Spells (.chain .or) us e) (hcs : tokenize cs = us ++ ts) :
    tokenize ('!' :: cs) = ⟨.symbol, "!"⟩ :: tokenize cs := by
  refine tokenize_bang (head?_ne_of_tokenize ?_) (by simpa [opensKeyword] using hkey)
  rw [hcs, List.head?_append_of_ne_nil _ h.ne_nil]
  exact h.steady.2

theorem not_spells_of_opensKeyword (hkey : opensKeyword cs = true) {level : Level} {e : Expr} :
    ¬ Expr.Spells level (tokenize ('!' :: cs)) e := by
  have hderails := derails_of_opensKeyword hkey [] .nil
  rw [List.append_nil] at hderails
  exact Expr.not_spells_of_misread hderails

theorem toTree_meaning (hs : s.store = none) (e : Expr) :
    (∀ a, (e.toTree s).simplify.holds a = e.holds s a) ∧
      (e.toTree s).simplify.leaves = e.leaves s := by
  refine ⟨fun a => ?_, Expr.leaves_simplify_toTree s e⟩
  rw [RuleSet.holds_simplify]
  exact Expr.holds_toTree a fun name _ => Expr.negated_resolve_of_store_eq_none hs name

/-- A text that spells an expression is negated without parentheses exactly if the `!` makes no
keyword with it and negates all of it. -/
theorem readsLike_bang_iff_of_spells (hs : s.store = none) {e : Expr}
    (he : Expr.Spells (.chain .or) (tokenize cs) e) (hd : e.depth + 1 ≤ maxDepth)
    (hholds : ∀ a, p.tree.holds a = !e.holds s a) (hleaves : p.tree.leaves = e.leaves s) :
    ReadsLike s (String.ofList ('!' :: cs)) p ↔ opensKeyword cs = false ∧ NegatesAll s cs := by
  have hbang (hkey : opensKeyword cs = false) :
      Expr.Spells (.chain .or) (tokenize (String.ofList ('!' :: cs)).toList) e.negateFirst := by
    rw [String.toList_ofList, tokenize_bang_of_head hkey he (List.append_nil _).symm]
    exact he.negateFirst rfl
  constructor
  · rintro ⟨q, hq, hc, htruth, -⟩
    obtain ⟨e', he', -, rfl⟩ := (parseTokens_iff (s := s)).1 ⟨hq, hc⟩
    have hkey : opensKeyword cs = false := by
      rw [← Bool.not_eq_true]
      intro hkey
      rw [String.toList_ofList] at he'
      exact not_spells_of_opensKeyword hkey he'
    obtain rfl := he'.unique (hbang hkey)
    refine ⟨hkey, e, he, fun a => ?_⟩
    rw [← (toTree_meaning hs e.negateFirst).1 a, ← hholds a]
    exact htruth a
  · rintro ⟨hkey, e', he', hnegates⟩
    obtain rfl := he'.unique he
    have hdepth := Nat.le_trans (Expr.depth_negateFirst_le e') hd
    obtain ⟨hq, hc⟩ := (parseTokens_iff (s := s)).2 ⟨_, hbang hkey, hdepth, rfl⟩
    refine ⟨_, hq, hc, fun a => ?_, ?_⟩
    · rw [(toTree_meaning hs e'.negateFirst).1 a, hholds a]
      exact hnegates a
    · rw [(toTree_meaning hs e'.negateFirst).2, hleaves, Expr.leaves_negateFirst]

/-- A text with a parenthesis that closes nothing in it is no query, and no query behind a `!`. -/
theorem not_spells_of_closing {us ws : List Token} {r : Token} {e : Expr}
    (he : Expr.Spells (.chain .or) us e) (hr : r.isSymbol ')' = true)
    (hcs : tokenize cs = us ++ r :: ws) :
    ¬ NegatesAll s cs ∧ ¬ ReadsLike s (String.ofList ('!' :: cs)) p := by
  constructor
  · rintro ⟨e', he', -⟩
    rw [hcs] at he'
    exact Expr.not_spells_append_closing hr he ws he'
  · rintro ⟨q, hq, hc, -, -⟩
    obtain ⟨e', he', -⟩ := (parseTokens_iff (s := s)).1 ⟨hq, hc⟩
    rw [String.toList_ofList] at he'
    cases hkey : opensKeyword cs with
    | true => exact not_spells_of_opensKeyword hkey he'
    | false =>
      rw [tokenize_bang_of_head hkey he hcs, hcs] at he'
      exact Expr.not_spells_append_closing hr (he.negateFirst rfl) ws he'

/-- Where a text in parentheses is negated and read to its end, it is negated without them exactly
if the `!` makes no keyword with it and negates all of it; the latter it does if there is only one
leaf. -/
theorem readsLike_bang_iff (hs : s.store = none)
    (h : (parse s (String.ofList ('!' :: inParentheses cs))).value = .ok p)
    (hc : p.isComplete = true) :
    (ReadsLike s (String.ofList ('!' :: cs)) p ↔ opensKeyword cs = false ∧ NegatesAll s cs) ∧
      (p.tree.leaves.length = 1 → NegatesAll s cs) := by
  obtain ⟨E, hE, hd, rfl⟩ := (parseTokens_iff (s := s)).1 ⟨h, hc⟩
  obtain ⟨hholds, hleaves⟩ := toTree_meaning hs E
  rw [String.toList_ofList, tokenize_bang_parentheses] at hE
  obtain ⟨us, r, vs, e, hts, hr, he, hcases⟩ := hE.exists_negated_group rfl rfl
  rcases tokenize_of_closing hr hts with ⟨hvs, rfl⟩ | ⟨hvs, ws, hws⟩
  · -- The parentheses are around the whole text.
    obtain ⟨-, rfl⟩ := hcases.resolve_right fun h => h.1 hvs
    refine ⟨readsLike_bang_iff_of_spells hs he (Nat.le_of_succ_le hd) hholds hleaves, ?_⟩
    intro hone
    rw [hleaves] at hone
    exact ⟨e, he, Expr.holds_negateFirst (e := e) hone⟩
  · -- The text closes the parenthesis itself and goes on behind it.
    obtain ⟨-, c, l, m, rfl⟩ := hcases.resolve_left fun h => hvs h.1
    obtain ⟨hall, hreads⟩ := not_spells_of_closing (s := s) he hr hws
    refine ⟨iff_of_false hreads fun h => hall h.2, fun hone => ?_⟩
    have htwo := Expr.two_le_length_leaves_join s c l m
    rw [hleaves] at hone
    omega

/-- The text of a negated ruleset that does without parentheses is read like the text with them,
where this is read to its end, exactly if the `!` makes no keyword with what it stands before and
negates all of that. A single rule it always negates as a whole. -/
theorem readsLike_toQuery_iff (hs : s.store = none) (hname : t.name = none)
    (hneg : t.negated = true) (hbare : Node.negatesBare t.children = true)
    (h : (parse s (String.ofList
      ('!' :: inParentheses (Node.joinedText t.condition t.children)))).value = .ok p)
    (hc : p.isComplete = true) :
    (ReadsLike s t.toQuery p ↔ opensKeyword (Node.joinedText t.condition t.children) = false ∧
      NegatesAll s (Node.joinedText t.condition t.children)) ∧
      (p.tree.leaves.length = 1 →
        (ReadsLike s t.toQuery p ↔
          opensKeyword (Node.joinedText t.condition t.children) = false)) := by
  have htext : t.toQuery = String.ofList ('!' :: Node.joinedText t.condition t.children) :=
    congrArg String.ofList (Node.queryText_of_negatesBare hname hneg hbare none)
  rw [htext]
  obtain ⟨hiff, hone⟩ := readsLike_bang_iff hs h hc
  exact ⟨hiff, fun hlength => hiff.trans (and_iff_left (hone hlength))⟩

/-- The rules `like=x` and `liked=x`, negated. The `!` makes a keyword with the first one. -/
theorem readsLike_toQuery_iff_like :
    let s : Schema := { field? := fun _ => none }
    let t (field : String) : RuleSet :=
      { negated := true, children := [.rule { field, operator := "=", value := some (.string "x") }] }
    ∃ p q, (parse s "!(like=x)").value = .ok p ∧ p.isComplete = true ∧
      (parse s "!(liked=x)").value = .ok q ∧ q.isComplete = true ∧
        ¬ ReadsLike s (t "like").toQuery p ∧ ReadsLike s (t "liked").toQuery q := by
  intro s t
  have hread (text : String) (h : (parse s text).value.map
      (fun p => (p.isComplete, p.tree.leaves.length)) = .ok (true, 1)) :
      ∃ p, (parse s text).value = .ok p ∧ p.isComplete = true ∧ p.tree.leaves.length = 1 := by
    obtain ⟨p, hp, hfacts⟩ := exists_of_map_eq_ok h
    exact ⟨p, hp, Prod.mk.inj hfacts⟩
  have htext (field : String) (text : String) (h : text = String.ofList ('!' :: inParentheses
      (Node.joinedText (t field).condition (t field).children))) {p : Parsed}
      (hp : (parse s text).value = .ok p) (hc : p.isComplete = true) :=
    readsLike_toQuery_iff (t := t field) rfl rfl rfl rfl (h ▸ hp) hc
  obtain ⟨p, hp, hpc, hone⟩ := hread "!(like=x)" (by decide +kernel)
  obtain ⟨q, hq, hqc, hone'⟩ := hread "!(liked=x)" (by decide +kernel)
  have hiff := (htext "like" _ (by decide +kernel) hp hpc).2 hone
  have hiff' := (htext "liked" _ (by decide +kernel) hq hqc).2 hone'
  refine ⟨p, q, hp, hpc, hq, hqc, fun h => ?_, hiff'.2 (by decide +kernel)⟩
  exact absurd (hiff.1 h) (by decide +kernel)

end Query

end BoolQuery
