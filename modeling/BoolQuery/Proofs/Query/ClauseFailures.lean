import BoolQuery.Proofs.Query.Places

/-! How the reading of a clause fails. Some tokens are read, the next one or the end of the text does
not go on with them, and what follows it makes no difference. Up to there nothing was wrong: other
tokens would have made a clause of what was read. -/

namespace BoolQuery.Query

/-- The fault, as it is where `rest` begins with the token at fault. -/
def Fault.before (rest : List Token) : Fault → Fault
  | unexpected t _ => .unexpected t rest.tail
  | endOfText => .endOfText
  | unclosedParenthesis => .unclosedParenthesis
  | emptyList => .emptyList
  | tooDeep => .tooDeep

/-- A token that is reported is no literal and the next one to be read. -/
def Fault.Locates (rest : List Token) (fault : Fault) : Prop :=
  ∀ t behind, fault = .unexpected t behind → rest = t :: behind ∧ t.isLiteral = false

theorem Fault.Locates.unexpected {t : Token} {ts : List Token} (h : t.isLiteral = false) :
    (Fault.unexpected t ts).Locates (t :: ts) := by
  rintro u behind heq
  obtain ⟨rfl, rfl⟩ := Fault.unexpected.inj heq
  exact ⟨rfl, h⟩

/-- A token that is a literal and no keyword. -/
def Token.filler : Token := ⟨.quoted, ""⟩

namespace Clause

/-- Reading the literals of a list fails behind `us`, where `rest` follows. -/
inductive ListFails : List Token → List Token → Fault → Prop
  | unclosed : ListFails [] [] .unclosedParenthesis
  | unexpected {t ts} : t.isSymbol ')' = false → t.isLiteral = false →
      ListFails [] (t :: ts) (.unexpected t ts)
  | cons {t us rest fault} : t.isLiteral = true →
      (∀ u ∈ (us ++ rest).head?, u.isSymbol ',' = false) → ListFails us rest fault →
      ListFails (t :: us) rest fault
  | comma {t c us rest fault} : t.isLiteral = true → c.isSymbol ',' = true →
      ListFails us rest fault → ListFails (t :: c :: us) rest fault

/-- Reading what an operator compares with fails behind `us`. -/
inductive OperandFails (operator : String) : List Token → List Token → Fault → Prop
  | endOfText : OperandFails operator [] [] .endOfText
  | unexpected {t ts} : (isListOperator operator && t.isSymbol '(') = false →
      t.isLiteral = false → OperandFails operator [] (t :: ts) (.unexpected t ts)
  | emptyList {l r ts} : isListOperator operator = true → l.isSymbol '(' = true →
      r.isSymbol ')' = true → OperandFails operator [l] (r :: ts) .emptyList
  | list {l us rest fault} : isListOperator operator = true → l.isSymbol '(' = true →
      ListFails us rest fault → OperandFails operator (l :: us) rest fault

/-- Reading what follows an operator fails behind `us`. -/
inductive ComparisonFails : String → List Token → List Token → Fault → Prop
  | operand {operator us rest fault} : OperandFails operator us rest fault →
      ComparisonFails operator us rest fault
  | notIn {i us rest fault} : i.isWord "in" = true → OperandFails "not in" us rest fault →
      ComparisonFails "not" (i :: us) rest fault

/-- Reading a clause fails behind `us`. -/
inductive Fails : List Token → List Token → Fault → Prop
  | comparison {f o us rest fault} : f.startsClause = true → o.isOperator = true →
      ComparisonFails o.operatorName us rest fault → Fails (f :: o :: us) rest fault

section Lists

variable {us rest rest' : List Token} {fault : Fault}

theorem ListFails.relocate (h : ListFails us rest fault) (hhead : rest'.head? = rest.head?) :
    ListFails us rest' (fault.before rest') := by
  induction h with
  | unclosed =>
    obtain rfl := List.head?_eq_none_iff.1 hhead
    exact .unclosed
  | unexpected hr ht =>
    obtain ⟨_, rfl⟩ := List.head?_eq_some_iff.1 hhead
    exact .unexpected hr ht
  | cons ht hcomma _ ih =>
    refine .cons ht ?_ (ih hhead)
    rwa [List.head?_append, hhead, ← List.head?_append]
  | comma ht hc _ ih => exact .comma ht hc (ih hhead)

theorem ListFails.readLiterals_eq (h : ListFails us rest fault) :
    readLiterals (us ++ rest) = .error fault := by
  induction h with
  | unclosed => rfl
  | @unexpected t ts hr ht => cases ts <;> simp [readLiterals, hr, ht]
  | @cons t us rest fault ht hcomma _ ih =>
    rw [List.cons_append]
    -- Behind a literal the reader looks for a comma, which may be the first token of either list.
    cases hmore : us ++ rest with
    | nil =>
      rw [hmore, readLiterals] at ih
      simpa [readLiterals, ht, Token.isSymbol_of_isLiteral ht] using ih
    | cons u more =>
      rw [hmore] at ih
      have hu : u.isSymbol ',' = false := hcomma u (by simp [hmore])
      simp [readLiterals, ht, Token.isSymbol_of_isLiteral ht, hu, ih, Except.map]
  | comma ht hc _ ih =>
    simp [readLiterals, ht, Token.isSymbol_of_isLiteral ht, hc, ih, Except.map]

theorem listFails_of_readLiterals {ts : List Token} (h : readLiterals ts = .error fault) :
    ∃ us rest, ts = us ++ rest ∧ ListFails us rest fault := by
  fun_induction readLiterals ts with
  | case1 =>
    cases h
    exact ⟨[], [], rfl, .unclosed⟩
  | case2 => cases h
  | case3 t ts hr ht =>
    cases h
    exact ⟨[], t :: ts, rfl, .unexpected (by simpa using hr) (by simpa using ht)⟩
  | case4 t _ ht =>
    cases h
    exact ⟨[t], [], rfl, .cons (by simpa using ht) (by simp) .unclosed⟩
  | case5 t _ ht comma ts hc ih =>
    obtain ⟨us, rest, rfl, hus⟩ := ih (eq_error_of_map h)
    exact ⟨t :: comma :: us, rest, rfl, .comma (by simpa using ht) hc hus⟩
  | case6 t _ ht comma ts hc ih =>
    obtain ⟨us, rest, hts, hus⟩ := ih (eq_error_of_map h)
    refine ⟨t :: us, rest, congrArg (t :: ·) hts, .cons (by simpa using ht) ?_ hus⟩
    rw [← hts]
    intro u hu
    obtain rfl : comma = u := Option.some.inj hu
    simpa using hc

theorem ListFails.locates (h : ListFails us rest fault) : fault.Locates rest := by
  induction h with
  | unclosed => rintro _ _ ⟨⟩
  | unexpected _ ht => exact .unexpected ht
  | cons _ _ _ ih | comma _ _ _ ih => exact ih

theorem ListFails.exists_lists (h : ListFails us rest fault) :
    ∃ ms vs, Lists (us ++ ms) vs ∧ vs ≠ [] := by
  induction h with
  | unclosed | unexpected =>
    exact ⟨[.filler], [.filler], .cons rfl .nil, by simp⟩
  | cons ht _ _ ih =>
    obtain ⟨ms, vs, hms, _⟩ := ih
    exact ⟨ms, _ :: vs, .cons ht hms, by simp⟩
  | comma ht hc _ ih =>
    obtain ⟨ms, vs, hms, _⟩ := ih
    exact ⟨ms, _ :: vs, .comma ht hc hms, by simp⟩

end Lists

section Comparisons

variable {field operator : String} {us rest rest' : List Token} {fault : Fault}

theorem OperandFails.relocate (h : OperandFails operator us rest fault)
    (hhead : rest'.head? = rest.head?) : OperandFails operator us rest' (fault.before rest') := by
  cases h with
  | endOfText =>
    obtain rfl := List.head?_eq_none_iff.1 hhead
    exact .endOfText
  | unexpected hl ht =>
    obtain ⟨_, rfl⟩ := List.head?_eq_some_iff.1 hhead
    exact .unexpected hl ht
  | emptyList hop hl hr =>
    obtain ⟨_, rfl⟩ := List.head?_eq_some_iff.1 hhead
    exact .emptyList hop hl hr
  | list hop hl hus => exact .list hop hl (hus.relocate hhead)

theorem OperandFails.readOperand_eq (h : OperandFails operator us rest fault) :
    readOperand field operator (us ++ rest) = .error fault := by
  cases h with
  | endOfText => rfl
  | unexpected hl ht => simp [readOperand, hl, readLiteral, ht, Except.map]
  | @emptyList l r ts hop hl hr =>
    have hread : readLiterals (r :: ts) = .ok (.ofHead [] r ts) := by
      cases ts <;> simp [readLiterals, hr]
    simp [readOperand, hop, hl, readList, hread, Phrase.ofHead, Except.map]
  | list hop hl hus => simp [readOperand, hop, hl, readList, hus.readLiterals_eq, Except.map]

theorem operandFails_of_readOperand {ts : List Token}
    (h : readOperand field operator ts = .error fault) :
    ∃ us rest, ts = us ++ rest ∧ OperandFails operator us rest fault := by
  cases ts with
  | nil =>
    cases h
    exact ⟨[], [], rfl, .endOfText⟩
  | cons t ts =>
    simp only [readOperand] at h
    split at h
    · rename_i hl
      obtain ⟨hop, hl⟩ := Bool.and_eq_true_iff.1 hl
      replace h := eq_error_of_map h
      simp only [readList] at h
      split at h
      · rename_i hread
        obtain rfl := Except.error.inj h
        obtain ⟨us, rest, rfl, hus⟩ := listFails_of_readLiterals hread
        exact ⟨t :: us, rest, rfl, .list hop hl hus⟩
      split at h
      · rename_i p hread hempty
        cases h
        obtain ⟨us, r, hts, hr, hlists⟩ := lists_of_readLiterals hread
        rw [List.isEmpty_iff.1 hempty] at hlists
        cases hlists
        exact ⟨[t], r :: p.rest, congrArg (t :: ·) hts, .emptyList hop hl hr⟩
      · cases h
    · rename_i hl
      replace h := eq_error_of_map h
      simp only [readLiteral] at h
      split at h
      · cases h
      · rename_i ht
        cases h
        exact ⟨[], t :: ts, rfl, .unexpected (by simpa using hl) (by simpa using ht)⟩

theorem OperandFails.locates (h : OperandFails operator us rest fault) : fault.Locates rest := by
  cases h with
  | endOfText | emptyList => rintro _ _ ⟨⟩
  | unexpected _ ht => exact .unexpected ht
  | list _ _ h => exact h.locates

/-- An operand that cannot be read begins with no word. -/
theorem OperandFails.head_not_isWord (h : OperandFails operator us rest fault) (word : String) :
    ∀ t ∈ (us ++ rest).head?, t.isWord word = false := by
  intro t ht
  cases h with
  | endOfText => cases ht
  | unexpected _ hlit =>
    obtain rfl := Option.some.inj ht
    refine Bool.eq_false_iff.2 fun hword => ?_
    rw [Token.isLiteral_of_isWord hword] at hlit
    cases hlit
  | emptyList _ hl | list _ hl =>
    obtain rfl := Option.some.inj ht
    exact Token.isWord_of_symbol (Token.kind_of_isSymbol hl)

theorem readNull?_eq_none {ts : List Token} (h : ∀ word, ∀ t ∈ ts.head?, t.isWord word = false) :
    readNull? ts = none := by
  cases ts with
  | nil => rfl
  | cons t ts =>
    have ht (word : String) : t.isWord word = false := h word t rfl
    cases ts <;> simp [readNull?, ht]

/-- A single literal, or a list that is completed by another literal and closed. -/
theorem OperandFails.exists_spells (h : OperandFails operator us rest fault) (field : String) :
    ∃ t ts c vs, us ++ vs = t :: ts ∧ SpellsOperand field operator (t :: ts) c ∧
      ∀ word, t.isWord word = false := by
  have hclose : (⟨.symbol, ")"⟩ : Token).isSymbol ')' = true := rfl
  cases h with
  | endOfText | unexpected =>
    exact ⟨.filler, [], _, [.filler], rfl, .literal rfl, fun _ => rfl⟩
  | @emptyList l _ _ hop hl _ =>
    have hlists : Lists [.filler] [.filler] := .cons rfl .nil
    exact ⟨l, _, _, [.filler, ⟨.symbol, ")"⟩], rfl, .list hop hl hclose hlists (by simp),
      fun _ => Token.isWord_of_symbol (Token.kind_of_isSymbol hl)⟩
  | @list l us _ _ hop hl hus =>
    obtain ⟨ms, vs, hms, hne⟩ := hus.exists_lists
    exact ⟨l, _, _, ms ++ [⟨.symbol, ")"⟩], by simp, .list hop hl hclose hms hne,
      fun _ => Token.isWord_of_symbol (Token.kind_of_isSymbol hl)⟩

theorem ComparisonFails.relocate (h : ComparisonFails operator us rest fault)
    (hhead : rest'.head? = rest.head?) :
    ComparisonFails operator us rest' (fault.before rest') := by
  cases h with
  | operand h => exact .operand (h.relocate hhead)
  | notIn hi h => exact .notIn hi (h.relocate hhead)

theorem ComparisonFails.readComparison_eq (h : ComparisonFails operator us rest fault) :
    readComparison field operator (us ++ rest) = .error fault := by
  cases h with
  | operand h =>
    rw [readComparison_eq_readOperand field (fun _ => h.head_not_isWord "in")
      fun _ => readNull?_eq_none h.head_not_isWord]
    exact h.readOperand_eq
  | notIn hi h => simp [readComparison, hi, h.readOperand_eq, Except.map]

theorem comparisonFails_of_readComparison {ts : List Token}
    (h : readComparison field operator ts = .error fault) :
    ∃ us rest, ts = us ++ rest ∧ ComparisonFails operator us rest fault := by
  refine readComparison_cases (motive := fun ts r => r = .error fault →
    ∃ us rest, ts = us ++ rest ∧ ComparisonFails operator us rest fault)
    ?notIn ?null ?operand ts h
  case notIn =>
    rintro i ts rfl hi h
    obtain ⟨us, rest, rfl, hus⟩ := operandFails_of_readOperand (eq_error_of_map h)
    exact ⟨i :: us, rest, rfl, .notIn hi hus⟩
  case null =>
    intro ts q _ _ h
    cases h
  case operand =>
    intro ts _ _ h
    obtain ⟨us, rest, hts, hus⟩ := operandFails_of_readOperand h
    exact ⟨us, rest, hts, .operand hus⟩

theorem ComparisonFails.locates (h : ComparisonFails operator us rest fault) : fault.Locates rest := by
  cases h with
  | operand h | notIn _ h => exact h.locates

theorem ComparisonFails.exists_spells (h : ComparisonFails operator us rest fault)
    (field : String) : ∃ vs c, SpellsComparison field operator (us ++ vs) c := by
  cases h with
  | operand h =>
    obtain ⟨t, ts, c, vs, hvs, hspells, hword⟩ := h.exists_spells field
    refine ⟨vs, c, ?_⟩
    rw [hvs]
    exact .operand (by simp [completesKeyword, hword]) hspells
  | notIn hi h =>
    obtain ⟨t, ts, c, vs, hvs, hspells, _⟩ := h.exists_spells field
    rw [← hvs] at hspells
    exact ⟨vs, c, .notIn hi hspells⟩

end Comparisons

section Clauses

variable {us rest rest' : List Token} {fault : Fault}

theorem Fails.relocate (h : Fails us rest fault) (hhead : rest'.head? = rest.head?) :
    Fails us rest' (fault.before rest') := by
  cases h with
  | comparison hf ho h => exact .comparison hf ho (h.relocate hhead)

theorem Fails.locates (h : Fails us rest fault) : fault.Locates rest := by
  cases h with
  | comparison _ _ h => exact h.locates

theorem Fails.exists_cons (h : Fails us rest fault) :
    ∃ t ts, us = t :: ts ∧ t.startsClause = true := by
  cases h with
  | comparison hf _ _ => exact ⟨_, _, rfl, hf⟩

theorem Fails.read_eq {t : Token} (h : Fails (t :: us) rest fault) :
    Clause.read t (us ++ rest) = .error fault := by
  cases h with
  | comparison _ ho h => simp [Clause.read, ho, h.readComparison_eq, Except.map]

theorem fails_of_read {t : Token} {ts : List Token} (h : Clause.read t ts = .error fault)
    (ht : t.startsClause = true) : ∃ us rest, t :: ts = us ++ rest ∧ Fails us rest fault := by
  cases ts with
  | nil => cases h
  | cons o ts =>
    simp only [Clause.read] at h
    split at h
    · rename_i ho
      obtain ⟨us, rest, rfl, hus⟩ :=
        comparisonFails_of_readComparison (eq_error_of_map h)
      exact ⟨t :: o :: us, rest, rfl, .comparison ht ho hus⟩
    · cases h

/-- What was read of a clause can be completed to one. -/
theorem Fails.exists_spells (h : Fails us rest fault) : ∃ vs c, Spells (us ++ vs) c := by
  cases h with
  | @comparison f _ _ _ _ hf ho h =>
    obtain ⟨vs, c, hspells⟩ := h.exists_spells f.text
    exact ⟨vs, c, .comparison hf ho hspells⟩

theorem Fails.not_isJoiner (h : Fails us rest fault) : ∀ t ∈ us, t.isJoiner = false := by
  obtain ⟨vs, c, hspells⟩ := h.exists_spells
  exact fun t ht => hspells.not_isJoiner t (List.mem_append_left vs ht)

end Clauses

end Clause

end BoolQuery.Query
