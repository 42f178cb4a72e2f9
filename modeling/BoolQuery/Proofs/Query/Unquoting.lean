import BoolQuery.Proofs.Query.Splitting
import BoolQuery.Proofs.Query.ValueText

/-! What the inside of a quotation stands for. A text that is written raw behind a quotation
mark of its own does not stand for itself: each mark in it would take a backslash more than it
has, and characters from behind it help only if they could spell a part of it. -/

namespace BoolQuery.Query
open Text

/-- A character, and how the inside of a quotation can spell it. -/
inductive SpellsChar : List Char → Char → Prop
  | plain {c} : c ≠ '"' → c ≠ '\\' → SpellsChar [c] c
  | escape (e) : SpellsChar ['\\', e] (Lexeme.unescape e)
  | unit {h₁ h₂ h₃ h₄ n} : hexUnit? h₁ h₂ h₃ h₄ = some n →
      SpellsChar ['\\', 'u', h₁, h₂, h₃, h₄] (Lexeme.unitChar n)

/-- The inside of a quotation, and what it stands for. -/
inductive Inside : List Char → List Char → Prop
  | nil : Inside [] []
  | cons {raw c cs ds} : SpellsChar raw c → Inside cs ds → Inside (raw ++ cs) (c :: ds)

/-- The text is read as the inside of a quotation, which is closed unless nothing is left. -/
def ReadsInside (cs : List Char) (read : List Char × List Char) : Prop :=
  ∃ raw, Inside raw read.1 ∧ (cs = raw ++ '"' :: read.2 ∨ read.2 = [])

theorem ReadsInside.cons {raw cs : List Char} {c : Char} {read : List Char × List Char}
    (hc : SpellsChar raw c) (h : ReadsInside cs read) :
    ReadsInside (raw ++ cs) (Lexeme.consChar c read) := by
  obtain ⟨raw', hraw, hrest⟩ := h
  refine ⟨raw ++ raw', .cons hc hraw, ?_⟩
  rcases hrest with rfl | hnil
  · exact .inl (List.append_assoc _ _ _).symm
  · exact .inr hnil

theorem readsInside_unquote : (cs : List Char) → ReadsInside cs (Lexeme.unquote cs)
  | [] => by
    rw [Lexeme.unquote.eq_def]
    exact ⟨[], .nil, .inr rfl⟩
  | c :: cs => by
    rw [Lexeme.unquote.eq_def]
    simp only
    split
    · rename_i hc
      rw [eq_of_beq hc]
      exact ⟨[], .nil, .inl rfl⟩
    rename_i hquote
    split
    · rename_i hc
      rw [eq_of_beq hc]
      split
      · exact ⟨[], .nil, .inr rfl⟩
      rename_i e rest
      split
      · rename_i he
        rw [eq_of_beq he]
        split
        · rename_i h₁ h₂ h₃ h₄ after
          split
          · rename_i n hn
            exact (readsInside_unquote after).cons (.unit hn)
          · exact (readsInside_unquote (h₁ :: h₂ :: h₃ :: h₄ :: after)).cons (.escape 'u')
        · exact (readsInside_unquote rest).cons (.escape 'u')
      · exact (readsInside_unquote rest).cons (.escape e)
    · rename_i hback
      exact (readsInside_unquote cs).cons (.plain (by simpa using hquote) (by simpa using hback))
termination_by cs => cs.length

/-- A quotation mark or a backslash: inside a quotation it takes an escape. -/
def isMark (c : Char) : Bool := c == '"' || c == '\\'

/-- Characters without a mark. -/
def IsPlain (cs : List Char) : Prop := ∀ c ∈ cs, isMark c = false

theorem IsPlain.append {cs ds : List Char} (h : IsPlain cs) (h' : IsPlain ds) :
    IsPlain (cs ++ ds) :=
  List.forall_mem_append.2 ⟨h, h'⟩

theorem IsPlain.unquoted {cs : List Char} (h : IsPlain cs) : '"' ∉ cs := by
  intro hmem
  exact absurd (h _ hmem) (by decide)

/-- Characters without a mark stand before the first quotation mark. -/
theorem IsPlain.exists_of_append {cs ds ts rest : List Char} (h : IsPlain cs)
    (heq : cs ++ ds = ts ++ '"' :: rest) : ∃ us, ts = cs ++ us ∧ ds = us ++ '"' :: rest := by
  rcases exists_of_append_cons heq.symm with hsplit | ⟨es, rfl, _⟩
  · exact hsplit
  · exact absurd (by simp) h.unquoted

theorem isAlphanum_of_hexValue? {c : Char} (h : (hexValue? c).isSome = true) :
    c.isAlphanum = true := by
  have hbounds : ('0' ≤ c ∧ c ≤ '9') ∨ ('a' ≤ c ∧ c ≤ 'f') ∨ ('A' ≤ c ∧ c ≤ 'F') := by
    by_contra hno
    simp only [not_or] at hno
    simp [hexValue?, hno] at h
  rw [isAlphanum_iff, isAlpha_iff, isUpper_iff, isLower_iff, isDigit_iff]
  rcases hbounds with ⟨hl, hu⟩ | ⟨hl, hu⟩ | ⟨hl, hu⟩
  all_goals
    have hl : _ ≤ c.toNat := hl
    have hu : c.toNat ≤ _ := hu
    simp at hl hu
    omega

theorem isAlphanum_of_hexUnit? {h₁ h₂ h₃ h₄ : Char} {n : Nat}
    (h : hexUnit? h₁ h₂ h₃ h₄ = some n) : ∀ c ∈ [h₁, h₂, h₃, h₄], c.isAlphanum = true := by
  simp only [hexUnit?, Option.bind_eq_bind, Option.bind_eq_some_iff] at h
  obtain ⟨_, hd₁, _, hd₂, _, hd₃, _, hd₄, _⟩ := h
  have hall : ∀ c ∈ [h₁, h₂, h₃, h₄], (hexValue? c).isSome = true := by
    simp [hd₁, hd₂, hd₃, hd₄]
  exact fun c hc => isAlphanum_of_hexValue? (hall c hc)

theorem unescape_of_reserved {c : Char} (h : isReserved c = true) : Lexeme.unescape c = c := by
  unfold Lexeme.unescape
  split
  all_goals first | rfl | exact absurd h (by decide)

namespace SpellsChar

variable {raw l r : List Char} {c d : Char}

theorem ne_nil (h : SpellsChar raw c) : raw ≠ [] := by
  cases h <;> simp

theorem countP_isMark_le (h : SpellsChar raw c) : (if isMark c then 1 else 0) ≤ raw.count '\\' := by
  cases h with
  | plain hquote hback => simp [isMark, hquote, hback]
  | escape | unit => split <;> simp

/-- A quotation mark inside a quotation has a backslash before it. -/
theorem eq_of_quote (h : SpellsChar (l ++ '"' :: r) c) : l = ['\\'] := by
  generalize hraw : l ++ '"' :: r = raw at h
  cases h with
  | plain hquote =>
    have hmem : '"' ∈ [c] := hraw ▸ by simp
    exact absurd (List.mem_singleton.1 hmem).symm hquote
  | escape e =>
    rcases l with _ | ⟨d, _ | ⟨d', l⟩⟩
    · simp at hraw
    · simp only [List.cons_append, List.cons.injEq] at hraw
      rw [hraw.1]
    · simp at hraw
  | @unit h₁ h₂ h₃ h₄ n hn =>
    have hmem : '"' ∈ ['\\', 'u', h₁, h₂, h₃, h₄] := hraw ▸ by simp
    have hmem : '"' ∈ [h₁, h₂, h₃, h₄] := by simpa using hmem
    exact absurd (isAlphanum_of_hexUnit? hn '"' hmem) (by decide)

/-- A character that ends words spells itself. -/
theorem eq_of_reserved (h : SpellsChar (l ++ d :: r) c) (hd : isReserved d = true) :
    r = [] ∧ c = d := by
  have hback : d ≠ '\\' := by
    rintro rfl
    exact absurd hd (by decide)
  generalize hraw : l ++ d :: r = raw at h
  cases h with
  | plain =>
    rcases l with _ | ⟨e, l⟩
    · obtain ⟨rfl, rfl⟩ := List.cons.inj hraw
      exact ⟨rfl, rfl⟩
    · simp at hraw
  | escape e =>
    rcases l with _ | ⟨e', _ | ⟨e'', l⟩⟩
    · exact absurd (List.cons.inj hraw).1 hback
    · simp only [List.cons_append, List.nil_append, List.cons.injEq] at hraw
      obtain ⟨-, rfl, rfl⟩ := hraw
      exact ⟨rfl, unescape_of_reserved hd⟩
    · simp at hraw
  | @unit h₁ h₂ h₃ h₄ n hn =>
    have hmem : d ∈ ['\\', 'u', h₁, h₂, h₃, h₄] := hraw ▸ by simp
    rcases List.mem_cons.1 hmem with rfl | hmem
    · exact absurd rfl hback
    have hletter : d.isAlphanum = true := by
      rcases List.mem_cons.1 hmem with rfl | hmem
      · decide
      · exact isAlphanum_of_hexUnit? hn d hmem
    rw [isReserved_of_isAlphanum hletter] at hd
    cases hd

end SpellsChar

namespace Inside

variable {raw cs ds ws : List Char} {c : Char}

theorem length_le (h : Inside raw cs) : cs.length ≤ raw.length := by
  induction h with
  | nil => exact Nat.le_refl _
  | cons hc _ ih =>
    have hpos := List.length_pos_iff.2 hc.ne_nil
    rw [List.length_append, List.length_cons]
    omega

/-- Every mark takes a backslash. -/
theorem countP_isMark_le (h : Inside raw cs) : cs.countP isMark ≤ raw.count '\\' := by
  induction h with
  | nil => exact Nat.le_refl _
  | cons hc _ ih =>
    have hmark := hc.countP_isMark_le
    rw [List.count_append, List.countP_cons]
    omega

theorem getLast?_of_quote {l r : List Char} (h : Inside (l ++ '"' :: r) cs) :
    l.getLast? = some '\\' := by
  generalize hraw : l ++ '"' :: r = raw at h
  induction h generalizing l with
  | nil => simp at hraw
  | @cons raw c cs ds hc _ ih =>
    rcases exists_of_append_cons hraw with ⟨a, rfl, ha⟩ | ⟨a, rfl, _⟩
    · rw [List.getLast?_append, ih ha.symm]
      rfl
    · rw [hc.eq_of_quote]
      rfl

/-- Characters without a mark at the start stand for themselves. -/
theorem exists_of_plain (hds : IsPlain ds) (h : Inside (ds ++ raw) cs) : ∃ es, cs = ds ++ es := by
  induction ds generalizing cs with
  | nil => exact ⟨cs, rfl⟩
  | cons d ds ih =>
    have hd : isMark d = false := hds d (by simp)
    generalize htext : d :: ds ++ raw = text at h
    cases h with
    | nil => cases htext
    | cons hc hrest =>
      cases hc with
      | plain =>
        obtain ⟨rfl, rfl⟩ := List.cons.inj htext
        obtain ⟨es, rfl⟩ := ih (fun c hc => hds c (by simp [hc])) hrest
        exact ⟨es, rfl⟩
      | escape | unit =>
        rw [(List.cons.inj htext).1] at hd
        exact absurd hd (by decide)

/-- Characters without a mark stand for themselves behind one that ends words, and no further to
the right than they are written. -/
theorem exists_of_append {as bs : List Char} (hc : isReserved c = true) (hds : IsPlain (c :: ds))
    (h : Inside (as ++ (c :: ds ++ bs)) cs) :
    ∃ as' bs', cs = as' ++ (c :: ds ++ bs') ∧ as'.length ≤ as.length := by
  generalize hraw : as ++ (c :: ds ++ bs) = raw at h
  induction h generalizing as with
  | nil => simp at hraw
  | @cons raw d rest cs hd hrest ih =>
    rcases exists_of_append_cons hraw with ⟨es, rfl, hes⟩ | ⟨es, rfl, hes⟩
    · obtain ⟨as', bs', rfl, hle⟩ := ih hes.symm
      refine ⟨d :: as', bs', rfl, ?_⟩
      have hpos := List.length_pos_iff.2 hd.ne_nil
      rw [List.length_append, List.length_cons]
      omega
    · obtain ⟨rfl, rfl⟩ := hd.eq_of_reserved hc
      obtain rfl : ds ++ bs = rest := hes
      obtain ⟨bs', rfl⟩ := hrest.exists_of_plain fun e he => hds e (by simp [he])
      exact ⟨[], bs', rfl, Nat.zero_le _⟩

/-- If the inside of a quotation begins to repeat itself behind `ws` and a quotation mark, what
is unmarked in it comes from `ws`. -/
theorem infix_of_repeats (hc : isReserved c = true) (hds : IsPlain (c :: ds))
    (h : Inside raw cs) (hcs : cs <+: ws ++ '"' :: raw) {as bs : List Char}
    (hraw : raw = as ++ (c :: ds ++ bs)) : c :: ds <:+: ws := by
  obtain ⟨as', bs', heq, hle⟩ := exists_of_append hc hds (hraw ▸ h)
  obtain ⟨more, hmore⟩ := hcs
  have hsplit : ws ++ '"' :: raw = (as' ++ c :: ds) ++ (bs' ++ more) := by simp [← hmore, heq]
  rcases exists_of_append_cons hsplit with ⟨es, hws, _⟩ | ⟨es, hes, hraw'⟩
  · exact ⟨as', es, hws.symm⟩
  -- They are written behind the mark, so they have been written further to the left.
  rcases exists_of_append_cons hes.symm with ⟨fs, _, hfs⟩ | ⟨fs, has', hfs⟩
  · exact absurd (by simp [hfs]) hds.unquoted
  · have hshort : fs.length < as.length := by
      rw [has', List.length_append, List.length_cons] at hle
      omega
    exact infix_of_repeats hc hds h ⟨more, hmore⟩ (by rw [hraw', hfs, List.append_assoc])
termination_by as.length

/-- What is read behind a quotation mark of its own does not stand for itself: it would have one
mark more than backslashes. -/
theorem not_of_plain_append (hds : IsPlain ds) : ¬ Inside (cs ++ ds) (ws ++ '"' :: cs) := by
  intro h
  have hmarks := h.countP_isMark_le
  have hback : ds.count '\\' = 0 := by
    refine List.count_eq_zero.2 ?_
    intro hmem
    exact absurd (hds _ hmem) (by decide)
  have hcs : cs.count '\\' ≤ cs.countP isMark := by
    refine List.countP_mono_left ?_
    intro c _ hc
    rw [eq_of_beq hc]
    decide
  have hone : (if isMark '"' = true then 1 else 0) = 1 := by decide
  simp only [List.countP_append, List.countP_cons, List.count_append, hback] at hmarks
  omega

/-- What stands before a mark ends in a backslash. -/
theorem not_of_plain_quote {r : List Char} (hds : IsPlain ds) (hne : ds ≠ []) :
    ¬ Inside (ws ++ ds ++ '"' :: r) cs := by
  intro h
  have hlast := h.getLast?_of_quote
  rw [List.getLast?_append, List.getLast?_eq_some_getLast hne, Option.some_or] at hlast
  have hmark := hds _ (List.getLast_mem hne)
  rw [Option.some.inj hlast] at hmark
  exact absurd hmark (by decide)

end Inside

/-- What stands between a field and a value: it ends the field's name, and itself, and does not
end in a symbol. -/
structure Links (cs : List Char) : Prop where
  plain : IsPlain cs
  endsToken : EndsToken cs
  ne_nil : cs ≠ []
  endsWord : EndsWord cs
  visible : EndsVisibly cs

theorem Links.precedes {cs link : List Char} (h : Links link) (hcs : '"' ∉ cs) :
    Precedes (cs ++ link) := by
  refine (separates_of_endsToken _ (by simp [hcs, h.plain.unquoted]) ?_).precedes ?_
  · intro c hc
    rw [List.getLast?_append_of_ne_nil _ h.ne_nil] at hc
    exact h.endsToken c hc
  · obtain ⟨pre, c, bs, rfl, hvisible⟩ := h.visible
    exact ⟨cs ++ pre, c, bs, by simp, hvisible⟩

/-- A link, perhaps an opened list, and the start of a word. -/
inductive ReachesWord : List Char → Prop
  | ofLink {link opening c} : Links link → opening = [] ∨ opening = ['('] →
      isReserved c = false → isMark c = false → ReachesWord (link ++ (opening ++ [c]))

theorem ReachesWord.plain {cs : List Char} (h : ReachesWord cs) : IsPlain cs := by
  obtain ⟨hlink, hopening, _, hmark⟩ := h
  refine hlink.plain.append (IsPlain.append ?_ (by simpa [IsPlain] using hmark))
  rcases hopening with rfl | rfl
  · simp [IsPlain]
  · simp [IsPlain, isMark]

theorem ReachesWord.exists_cons {cs : List Char} (h : ReachesWord cs) :
    ∃ c ds, cs = c :: ds ∧ isReserved c = true := by
  obtain ⟨hlink, _, _, _⟩ := h
  obtain ⟨c, link, rfl⟩ := List.exists_cons_of_ne_nil hlink.ne_nil
  exact ⟨c, _, rfl, hlink.endsWord c rfl⟩

/-- The text behind a field: a quotation behind something unmarked, or a word. -/
inductive Follows : List Char → Prop
  | quotation {cs} (ds) : IsPlain cs → cs ≠ [] → Follows (cs ++ '"' :: ds)
  | word {cs} (ds) : ReachesWord cs → Follows (cs ++ ds)

theorem Follows.append {cs : List Char} (h : Follows cs) (ds : List Char) : Follows (cs ++ ds) := by
  cases h with
  | quotation _ hcs hne =>
    rw [List.append_assoc, List.cons_append]
    exact .quotation _ hcs hne
  | word _ hcs =>
    rw [List.append_assoc]
    exact .word _ hcs

/-- If a quotation begins in a field, ends behind the field and stands for the field, then there
is a link with a word before it. -/
theorem Follows.exists_infix {ws cs after raw rest : List Char} (h : Follows after)
    (hraw : Inside raw (ws ++ '"' :: cs)) (hsplit : cs ++ after = raw ++ '"' :: rest) :
    ∃ ds, ReachesWord ds ∧ ds <:+: ws := by
  obtain ⟨more, rfl, hafter⟩ : ∃ more, raw = cs ++ more ∧ after = more ++ '"' :: rest := by
    rcases exists_of_append_cons hsplit.symm with hbehind | ⟨a, rfl, _⟩
    · exact hbehind
    · have hlong := hraw.length_le
      simp only [List.length_append, List.length_cons] at hlong
      omega
  cases h with
  | @quotation ds _ hplain hne =>
    obtain ⟨us, rfl, hus⟩ := hplain.exists_of_append hafter
    rcases us with _ | ⟨c, us⟩
    · rw [List.append_nil] at hraw
      exact absurd hraw (Inside.not_of_plain_append hplain)
    · obtain ⟨rfl, rfl⟩ := List.cons.inj hus
      rw [← List.append_assoc] at hraw
      exact absurd hraw (Inside.not_of_plain_quote hplain hne)
  | @word ds _ hword =>
    obtain ⟨us, rfl, _⟩ := hword.plain.exists_of_append hafter
    obtain ⟨c, es, rfl, hc⟩ := hword.exists_cons
    have hrepeats : ws ++ '"' :: cs <+: ws ++ '"' :: (cs ++ (c :: es ++ us)) := by
      rw [← List.cons_append, ← List.append_assoc]
      exact List.prefix_append _ _
    exact ⟨c :: es, hword, hraw.infix_of_repeats hc hword.plain hrepeats rfl⟩

end BoolQuery.Query
