import BoolQuery.Proofs.Query.Grammar

/-! The reader of clauses and the grammar of clauses agree. A clause that was read is spelled
by the tokens it took, and the tokens of a clause are read as it wherever it does not go on with
the token behind them, as it never does with a symbol. -/

namespace BoolQuery.Query

/-- Whether the tokens cannot go on with a clause: they begin with a symbol, if at all. -/
def Stops (ts : List Token) : Prop := ∀ t ∈ ts.head?, t.kind = .symbol

theorem Stops.nil : Stops [] := by
  intro t h
  cases h

theorem Stops.cons {t : Token} (h : t.kind = .symbol) (ts : List Token) : Stops (t :: ts) := by
  intro u hu
  obtain rfl : t = u := by simpa using hu
  exact h

/-- A mapped result that succeeds comes from one that does. -/
theorem exists_of_map_eq_ok {ε α β : Type} {f : α → β} {x : Except ε α} {b : β}
    (h : x.map f = .ok b) : ∃ a, x = .ok a ∧ f a = b := by
  cases x with
  | error _ => cases h
  | ok a => exact ⟨a, rfl, Except.ok.inj h⟩

/-- A mapped result that fails comes from one that does. -/
theorem eq_error_of_map {ε α β : Type} {f : α → β} {x : Except ε α} {e : ε}
    (h : x.map f = .error e) : x = .error e := by
  cases x with
  | error _ => exact congrArg Except.error (Except.error.inj h)
  | ok _ => cases h

/-- The result is a phrase that states `value` and leaves `rest`. -/
def Gives {ε α : Type} {ts : List Token} (r : Except ε (Phrase α ts)) (value : α)
    (rest : List Token) : Prop :=
  ∃ p, r = .ok p ∧ p.value = value ∧ p.rest = rest

namespace Clause

/-- Whether a clause that could end here goes on with the token: a literal does with an operator,
and `is not` does with `null`. -/
def continues (t : Token) : Clause → Bool
  | search _ => t.isOperator
  | compare _ operator literal => operator == "is" && literal.isWord "not" && t.isWord "null"
  | nullTest _ _ | among _ _ _ => false

theorem continues_of_symbol {t : Token} (h : t.kind = .symbol) (c : Clause) :
    c.continues t = false := by
  cases c <;> simp [continues, Token.isOperator_of_symbol h, Token.isWord_of_symbol h]

theorem lists_of_readLiterals {ts : List Token} {p : Phrase (List Token) ts}
    (h : readLiterals ts = .ok p) :
    ∃ us r, ts = us ++ r :: p.rest ∧ r.isSymbol ')' = true ∧ Lists us p.value := by
  fun_induction readLiterals ts with
  | case1 => cases h
  | case2 t ts ht =>
    cases h
    exact ⟨[], t, rfl, ht, .nil⟩
  | case3 => cases h
  | case4 => cases h
  | case5 t _ ht comma ts hc ih =>
    obtain ⟨q, hq, rfl⟩ := exists_of_map_eq_ok h
    obtain ⟨us, r, hts, hr, hl⟩ := ih hq
    exact ⟨t :: comma :: us, r, by simp [hts, Phrase.afterToken, Phrase.map], hr,
      .comma (by simpa using ht) hc hl⟩
  | case6 t _ ht comma ts hc ih =>
    obtain ⟨q, hq, rfl⟩ := exists_of_map_eq_ok h
    obtain ⟨us, r, hts, hr, hl⟩ := ih hq
    exact ⟨t :: us, r, by simp [hts, Phrase.afterToken, Phrase.map], hr,
      .cons (by simpa using ht) hl⟩

/-- The first token of a list is no comma, so a comma after a literal belongs to it. -/
theorem Lists.head_not_comma {us vs : List Token} {r : Token} (h : Lists us vs)
    (hr : r.isSymbol ')' = true) (rest : List Token) :
    ∃ t ts, us ++ r :: rest = t :: ts ∧ t.isSymbol ',' = false := by
  cases h with
  | nil => exact ⟨r, rest, rfl, Token.isSymbol_ne hr (by decide)⟩
  | cons ht _ => exact ⟨_, _, rfl, Token.isSymbol_of_isLiteral ht⟩
  | comma ht _ _ => exact ⟨_, _, rfl, Token.isSymbol_of_isLiteral ht⟩

theorem readLiterals_of_lists {us vs : List Token} {r : Token} (h : Lists us vs)
    (hr : r.isSymbol ')' = true) (rest : List Token) :
    Gives (readLiterals (us ++ r :: rest)) vs rest := by
  induction h with
  | nil =>
    refine ⟨Phrase.ofHead [] r rest, ?_, rfl, rfl⟩
    cases rest <;> simp [readLiterals, hr]
  | @cons t ts vs ht hl ih =>
    obtain ⟨p, hp, hv, hrest⟩ := ih
    obtain ⟨u, us, hu, hcomma⟩ := hl.head_not_comma hr rest
    have hread : readLiterals (t :: (ts ++ r :: rest)) =
        .ok ((p.map (t :: ·)).afterToken t) := by
      revert p
      rw [hu]
      intro p hp _ _
      simp [readLiterals, Token.isSymbol_of_isLiteral ht, ht, hcomma, hp, Except.map]
    exact ⟨_, hread, congrArg (t :: ·) hv, hrest⟩
  | @comma t c ts vs ht hc _ ih =>
    obtain ⟨p, hp, hv, hrest⟩ := ih
    refine ⟨((p.map (t :: ·)).afterToken c).afterToken t, ?_, congrArg (t :: ·) hv, hrest⟩
    simp [readLiterals, Token.isSymbol_of_isLiteral ht, ht, hc, hp, Except.map]

/-- The list between parentheses is read exactly if it has a literal and is closed. -/
theorem readList_iff {ts vs rest : List Token} : Gives (readList ts) vs rest ↔
    ∃ us r, ts = us ++ r :: rest ∧ r.isSymbol ')' = true ∧ Lists us vs ∧ vs ≠ [] := by
  constructor
  · rintro ⟨p, hp, rfl, rfl⟩
    simp only [readList] at hp
    split at hp
    · cases hp
    · rename_i q hq
      split at hp
      · cases hp
      · rename_i hne
        cases hp
        obtain ⟨us, r, hts, hr, hlist⟩ := lists_of_readLiterals hq
        exact ⟨us, r, hts, hr, hlist, by simpa using hne⟩
  · rintro ⟨us, r, rfl, hr, hlist, hne⟩
    obtain ⟨p, hp, rfl, hrest⟩ := readLiterals_of_lists hlist hr rest
    have hfull : p.value.isEmpty = false := by simpa using hne
    exact ⟨p, by simp [readList, hp, hfull], rfl, hrest⟩

theorem spellsOperand_of_readOperand {field operator : String} {ts : List Token}
    {p : Phrase Clause ts} (h : readOperand field operator ts = .ok p) :
    ∃ us, ts = us ++ p.rest ∧ SpellsOperand field operator us p.value := by
  cases ts with
  | nil => cases h
  | cons t ts =>
    simp only [readOperand] at h
    split at h
    · rename_i hl
      obtain ⟨hop, ht⟩ := Bool.and_eq_true_iff.1 hl
      obtain ⟨q, hq, rfl⟩ := exists_of_map_eq_ok h
      obtain ⟨us, r, hts, hr, hlist, hne⟩ := readList_iff.1 ⟨q, hq, rfl, rfl⟩
      exact ⟨t :: (us ++ [r]), by simp [hts, Phrase.afterToken, Phrase.map],
        .list hop ht hr hlist hne⟩
    · obtain ⟨q, hq, rfl⟩ := exists_of_map_eq_ok h
      simp only [readLiteral] at hq
      split at hq
      · rename_i ht
        cases hq
        exact ⟨[t], rfl, .literal ht⟩
      · cases hq

theorem readOperand_of_spellsOperand {field operator : String} {us : List Token} {c : Clause}
    (h : SpellsOperand field operator us c) (rest : List Token) :
    Gives (readOperand field operator (us ++ rest)) c rest := by
  cases h with
  | @literal v hv =>
    refine ⟨(Phrase.ofHead v v rest).map (.compare field operator), ?_, rfl, rfl⟩
    simp [readOperand, readLiteral, Token.isSymbol_of_isLiteral hv, hv, Except.map]
  | @list l r ts vs hop hl hr hlist hne =>
    obtain ⟨p, hp, hv, hrest⟩ := readList_iff.2 ⟨ts, r, rfl, hr, hlist, hne⟩
    have hlong : l :: (ts ++ [r]) ++ rest = l :: (ts ++ r :: rest) := by simp
    rw [hlong]
    refine ⟨(p.map (.among field operator)).afterToken l, ?_, congrArg _ hv, hrest⟩
    simp [readOperand, hop, hl, hp, Except.map]

theorem spellsComparison_of_readNull? {ts : List Token} {p : Phrase Bool ts}
    (h : readNull? ts = some p) : ∃ us, ts = us ++ p.rest ∧
      ∀ field, SpellsComparison field "is" us (.nullTest field p.value) := by
  fun_cases readNull? ts with
  | case1 => cases h
  | case2 t ht =>
    simp only [readNull?, ht, if_true] at h
    cases h
    exact ⟨[t], rfl, fun _ => .null ht⟩
  | case3 t ht => simp [readNull?, ht] at h
  | case4 t u ts ht =>
    simp only [readNull?, ht, if_true] at h
    cases h
    exact ⟨[t], rfl, fun _ => .null ht⟩
  | case5 t u ts ht hnot =>
    simp only [readNull?, ht, hnot, if_true] at h
    cases h
    obtain ⟨hn, hu⟩ := Bool.and_eq_true_iff.1 hnot
    exact ⟨[t, u], rfl, fun _ => .notNull hn hu⟩
  | case6 t u ts ht hnot => simp [readNull?, ht, hnot] at h

theorem isWord_of_readNull?_eq_none {t : Token} {ts : List Token}
    (h : readNull? (t :: ts) = none) : t.isWord "null" = false := by
  rw [← Bool.not_eq_true]
  intro ht
  cases ts <;> simp [readNull?, ht] at h

theorem SpellsOperand.ne_nil {field operator : String} {ts : List Token} {c : Clause}
    (h : SpellsOperand field operator ts c) : ts ≠ [] := by
  cases h <;> simp

/-- What makes no keyword with the operator is what it compares with. -/
theorem readComparison_eq_readOperand (field : String) {operator : String} {ts : List Token}
    (hnot : operator = "not" → ∀ t ∈ ts.head?, t.isWord "in" = false)
    (his : operator = "is" → readNull? ts = none) :
    readComparison field operator ts = readOperand field operator ts := by
  by_cases hop : operator = "not"
  · subst hop
    cases ts with
    | nil => rfl
    | cons t ts =>
      have hin : t.isWord "in" = false := hnot rfl t rfl
      simp [readComparison, hin]
  by_cases hop' : operator = "is"
  · simp [readComparison, hop', his hop']
  · simp [readComparison, hop, hop']

/-- A comparison goes on with `in` behind `not`, with a null test behind `is`, or else with an
operand. -/
theorem readComparison_cases {field operator : String}
    {motive : (ts : List Token) → Result Clause ts → Prop}
    (notIn : ∀ i ts, operator = "not" → i.isWord "in" = true →
      motive (i :: ts) ((readOperand field "not in" ts).map fun p => p.afterToken i))
    (null : ∀ ts p, operator = "is" → readNull? ts = some p →
      motive ts (.ok (p.map (.nullTest field))))
    (operand : ∀ ts, (operator = "not" → ∀ t ∈ ts.head?, t.isWord "in" = false) →
      (operator = "is" → readNull? ts = none) → motive ts (readOperand field operator ts))
    (ts : List Token) : motive ts (readComparison field operator ts) := by
  by_cases hnot : operator = "not"
  · subst hnot
    cases ts with
    | nil => exact operand [] (fun _ _ ht => by cases ht) fun his => absurd his (by decide)
    | cons i ts =>
      by_cases hi : i.isWord "in" = true
      · simpa [readComparison, hi] using notIn i ts rfl hi
      · have hin : ∀ t ∈ (i :: ts).head?, t.isWord "in" = false := by simpa using hi
        rw [readComparison_eq_readOperand field (fun _ => hin) fun his => absurd his (by decide)]
        exact operand (i :: ts) (fun _ => hin) fun his => absurd his (by decide)
  by_cases his : operator = "is"
  · cases hnull : readNull? ts with
    | some p => simpa [readComparison, his, hnull] using null ts p his hnull
    | none =>
      rw [readComparison_eq_readOperand field (absurd · hnot) fun _ => hnull]
      exact operand ts (absurd · hnot) fun _ => hnull
  · rw [readComparison_eq_readOperand field (absurd · hnot) (absurd · his)]
    exact operand ts (absurd · hnot) (absurd · his)

theorem completesKeyword_of_readNull?_eq_none {operator : String} {ts : List Token}
    (hin : operator = "not" → ∀ t ∈ ts.head?, t.isWord "in" = false)
    (hnull : operator = "is" → readNull? ts = none) :
    ∀ t ∈ ts.head?, completesKeyword operator t = false := by
  intro t ht
  obtain ⟨us, rfl⟩ := List.head?_eq_some_iff.1 ht
  simp only [completesKeyword, Bool.or_eq_false_iff, Bool.and_eq_false_imp, beq_iff_eq]
  exact ⟨fun hnot => hin hnot t ht, fun his => isWord_of_readNull?_eq_none (hnull his)⟩

theorem spellsComparison_of_readComparison {field operator : String} {ts : List Token}
    {p : Phrase Clause ts} (h : readComparison field operator ts = .ok p) :
    ∃ us, ts = us ++ p.rest ∧ SpellsComparison field operator us p.value := by
  refine readComparison_cases (motive := fun ts r => ∀ p, r = .ok p →
    ∃ us, ts = us ++ p.rest ∧ SpellsComparison field operator us p.value)
    ?notIn ?null ?operand ts p h
  case notIn =>
    rintro i ts rfl hi p h
    obtain ⟨q, hq, rfl⟩ := exists_of_map_eq_ok h
    obtain ⟨us, hts, hus⟩ := spellsOperand_of_readOperand hq
    exact ⟨i :: us, by simp [hts, Phrase.afterToken], .notIn hi hus⟩
  case null =>
    rintro ts q rfl hq p h
    cases h
    obtain ⟨us, hts, hus⟩ := spellsComparison_of_readNull? hq
    exact ⟨us, hts, hus field⟩
  case operand =>
    intro ts hin hnull p h
    obtain ⟨us, hts, hus⟩ := spellsOperand_of_readOperand h
    obtain ⟨t, us, rfl⟩ := List.exists_cons_of_ne_nil hus.ne_nil
    have hk := completesKeyword_of_readNull?_eq_none hin hnull t (by simp [hts])
    exact ⟨t :: us, hts, .operand hk hus⟩

theorem readComparison_of_spellsComparison {field operator : String} {us rest : List Token}
    {c : Clause} (h : SpellsComparison field operator us c)
    (hrest : ∀ t ∈ rest.head?, c.continues t = false) :
    Gives (readComparison field operator (us ++ rest)) c rest := by
  cases h with
  | @null n hn =>
    refine ⟨(Phrase.ofHead false n rest).map (.nullTest field), ?_, rfl, rfl⟩
    cases rest <;> simp [readComparison, readNull?, hn]
  | @notNull u n hu hn =>
    have hnull : u.isWord "null" = false := by
      simp only [Token.isWord, Text.equalsIgnoringCase_eq, Bool.and_eq_true, beq_iff_eq] at hu ⊢
      rw [hu.2]
      simp
    refine ⟨((Phrase.ofHead true n rest).afterToken u).map (.nullTest field), ?_, rfl, rfl⟩
    simp [readComparison, readNull?, hnull, hu, hn]
  | @notIn i us _ hi hus =>
    obtain ⟨p, hp, hv, hr⟩ := readOperand_of_spellsOperand hus rest
    refine ⟨p.afterToken i, ?_, hv, hr⟩
    simp [readComparison, hi, hp, Except.map]
  | @operand _ t us _ hk hus =>
    simp only [completesKeyword, Bool.or_eq_false_iff] at hk
    rw [readComparison_eq_readOperand field ?hnot ?his]
    · exact readOperand_of_spellsOperand hus rest
    case hnot =>
      rintro rfl u hu
      obtain rfl : t = u := Option.some.inj hu
      simpa using hk.1
    case his =>
      rintro rfl
      have ht : t.isWord "null" = false := by simpa using hk.2
      cases hus with
      | list hop => exact absurd hop (by decide)
      | literal _ =>
        cases rest with
        | nil => simp [readNull?, ht]
        | cons u rest =>
          have hu : (t.isWord "not" && u.isWord "null") = false := hrest u rfl
          simp [readNull?, ht, hu]

/-- A clause that was read is spelled by the tokens that it took. -/
theorem spells_of_read {t : Token} {ts : List Token} {p : Phrase Clause (t :: ts)}
    (h : Clause.read t ts = .ok p) (ht : t.startsClause = true) :
    ∃ us, t :: ts = us ++ p.rest ∧ Spells us p.value := by
  cases ts with
  | nil =>
    cases h
    exact ⟨[t], rfl, .search ht⟩
  | cons o ts =>
    simp only [Clause.read] at h
    split at h
    · rename_i ho
      obtain ⟨q, hq, rfl⟩ := exists_of_map_eq_ok h
      obtain ⟨us, hts, hus⟩ := spellsComparison_of_readComparison hq
      exact ⟨t :: o :: us, by simp [hts, Phrase.afterToken], .comparison ht ho hus⟩
    · cases h
      exact ⟨[t], rfl, .search ht⟩

/-- The tokens of a clause are read as the clause where it does not go on. -/
theorem read_of_spells {t : Token} {us rest : List Token} {c : Clause} (h : Spells (t :: us) c)
    (hrest : ∀ u ∈ rest.head?, c.continues u = false) :
    Gives (Clause.read t (us ++ rest)) c rest := by
  cases h with
  | search _ =>
    cases rest with
    | nil => exact ⟨_, rfl, rfl, rfl⟩
    | cons u rest =>
      refine ⟨Phrase.ofHead (.search t) t (u :: rest), ?_, rfl, rfl⟩
      have hu : u.isOperator = false := hrest u rfl
      simp [Clause.read, hu]
  | @comparison _ o ts _ _ ho hc =>
    obtain ⟨p, hp, hv, hr⟩ := readComparison_of_spellsComparison hc hrest
    refine ⟨(p.afterToken o).afterToken t, ?_, hv, hr⟩
    simp [Clause.read, ho, hp, Except.map]

end Clause

end BoolQuery.Query
