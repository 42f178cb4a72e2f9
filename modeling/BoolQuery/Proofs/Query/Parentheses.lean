import BoolQuery.Proofs.Query.Grammar
import BoolQuery.Proofs.Query.Splitting

/-! Parentheses among tokens. A group has its parentheses where an operand is due, at the start or
behind a symbol, while those of a list stand behind the operator. What stands between the two of a
group is balanced, so the parenthesis that closes another one is found by counting. -/

namespace BoolQuery.Query

/-- How many parentheses are open behind some tokens, if `d` are open before them; `none` if one
closes that is not open. -/
def openAfter : (d : Nat) → List Token → Option Nat
  | d, [] => some d
  | d, t :: ts =>
    if t.isSymbol '(' then openAfter (d + 1) ts
    else if t.isSymbol ')' then
      match d with
      | 0 => none
      | d + 1 => openAfter d ts
    else openAfter d ts

/-- Every parenthesis among the tokens is closed among them, and no other one is. -/
def Balanced (ts : List Token) : Prop := ∀ d, openAfter d ts = some d

/-- Behind the tokens an operand is due, if something can follow them at all. -/
def Due (ts : List Token) : Prop := ∀ t ∈ ts.getLast?, t.kind = .symbol

/-- Behind the tokens `before` a parenthesis opens a group. -/
def OpensGroup (ts before : List Token) : Prop :=
  ∃ l rest, ts = before ++ l :: rest ∧ l.isSymbol '(' = true ∧ Due before

/-- A group among tokens: the parenthesis behind `before` opens it, and the one behind `inside`
closes it. -/
def HasGroup (ts before inside : List Token) : Prop :=
  ∃ l r after, ts = before ++ l :: (inside ++ r :: after) ∧ l.isSymbol '(' = true ∧
    r.isSymbol ')' = true ∧ Balanced inside ∧ Due before

section Counting

variable {t r r' : Token} {ts us vs ws : List Token}

theorem openAfter_opening (ht : t.isSymbol '(' = true) (d : Nat) (ts : List Token) :
    openAfter d (t :: ts) = openAfter (d + 1) ts := by
  simp [openAfter, ht]

theorem openAfter_closing (ht : t.isSymbol ')' = true) (d : Nat) (ts : List Token) :
    openAfter (d + 1) (t :: ts) = openAfter d ts := by
  simp [openAfter, ht, Token.isSymbol_ne ht (by decide : ')' ≠ '(')]

/-- A parenthesis cannot close where none is open. -/
theorem openAfter_zero_closing (ht : t.isSymbol ')' = true) (ts : List Token) :
    openAfter 0 (t :: ts) = none := by
  simp [openAfter, ht, Token.isSymbol_ne ht (by decide : ')' ≠ '(')]

theorem openAfter_append (d : Nat) (ts us : List Token) :
    openAfter d (ts ++ us) = (openAfter d ts).bind fun d' => openAfter d' us := by
  induction ts generalizing d with
  | nil => rfl
  | cons t ts ih =>
    simp only [List.cons_append, openAfter]
    split
    · exact ih (d + 1)
    split
    · cases d with
      | zero => rfl
      | succ d => exact ih d
    · exact ih d

theorem Balanced.nil : Balanced [] := fun _ => rfl

theorem Balanced.append (h : Balanced ts) (h' : Balanced us) : Balanced (ts ++ us) := by
  intro d
  rw [openAfter_append, h d]
  exact h' d

theorem Balanced.enclose {l : Token} (h : Balanced ts) (hl : l.isSymbol '(' = true)
    (hr : r.isSymbol ')' = true) : Balanced (l :: (ts ++ [r])) := by
  intro d
  rw [openAfter_opening hl, openAfter_append, h (d + 1)]
  exact openAfter_closing hr d []

/-- Tokens other than parentheses are not counted. -/
theorem balanced_of_forall (h : ∀ t ∈ ts, t.isSymbol '(' = false ∧ t.isSymbol ')' = false) :
    Balanced ts := by
  intro d
  induction ts with
  | nil => rfl
  | cons t ts ih =>
    obtain ⟨⟨hopen, hclose⟩, hts⟩ := List.forall_mem_cons.1 h
    simp [openAfter, hopen, hclose, ih hts]

theorem Balanced.cons (ht : t.isSymbol '(' = false ∧ t.isSymbol ')' = false) (h : Balanced ts) :
    Balanced (t :: ts) :=
  have hhead : Balanced [t] := balanced_of_forall (by simpa using ht)
  hhead.append h

/-- Balanced tokens do not go on with a parenthesis that closes one before them. -/
theorem Balanced.eq_nil_of_append (h : Balanced ts) (h' : Balanced (ts ++ us))
    (hr : r.isSymbol ')' = true) (heq : r :: vs = us ++ ws) : us = [] := by
  cases us with
  | nil => rfl
  | cons u us =>
    obtain ⟨rfl, -⟩ := List.cons.inj heq
    have hzero := h' 0
    rw [openAfter_append, h 0, Option.bind_some, openAfter_zero_closing hr] at hzero
    cases hzero

/-- The parenthesis that closes one before the tokens is the first one that can. -/
theorem Balanced.unique (h : Balanced ts) (h' : Balanced us) (hr : r.isSymbol ')' = true)
    (hr' : r'.isSymbol ')' = true) (heq : ts ++ r :: vs = us ++ r' :: ws) : ts = us := by
  obtain ⟨xs, rfl, hxs⟩ | ⟨xs, rfl, hxs⟩ := List.append_eq_append_iff.1 heq
  · rw [h.eq_nil_of_append h' hr hxs, List.append_nil]
  · rw [h'.eq_nil_of_append h hr' hxs, List.append_nil]

end Counting

section Groups

variable {t : Token} {ts us before inside inside' : List Token}

theorem due_nil : Due [] := by
  simp [Due]

theorem due_concat (ts : List Token) {c : Char} (ht : t.isSymbol c = true) : Due (ts ++ [t]) := by
  simpa [Due] using Token.kind_of_isSymbol ht

theorem due_symbol {c : Char} (ht : t.isSymbol c = true) : Due [t] := due_concat [] ht

theorem Due.append (h : Due ts) (h' : Due us) : Due (ts ++ us) := by
  intro t ht
  rw [List.getLast?_append, Option.mem_def, Option.or_eq_some_iff] at ht
  exact ht.elim (h' t) fun ⟨_, ht⟩ => h t ht

theorem Due.of_append (ts : List Token) (h : Due (ts ++ us)) : Due us := by
  intro t ht
  refine h t ?_
  rw [List.getLast?_append, Option.mem_def.1 ht]
  rfl

theorem HasGroup.opensGroup (h : HasGroup ts before inside) : OpensGroup ts before := by
  obtain ⟨l, r, after, hts, hl, _, _, hdue⟩ := h
  exact ⟨l, _, hts, hl, hdue⟩

/-- Parentheses around tokens are those of a group. -/
theorem hasGroup_enclosed {l r : Token} (hl : l.isSymbol '(' = true) (hr : r.isSymbol ')' = true)
    (hts : Balanced ts) : HasGroup (l :: (ts ++ [r])) [] ts :=
  ⟨l, r, [], rfl, hl, hr, hts, due_nil⟩

theorem HasGroup.append_right (h : HasGroup ts before inside) (us : List Token) :
    HasGroup (ts ++ us) before inside := by
  obtain ⟨l, r, after, rfl, hl, hr, hinside, hdue⟩ := h
  exact ⟨l, r, after ++ us, by simp, hl, hr, hinside, hdue⟩

theorem HasGroup.append_left (h : HasGroup ts before inside) (hus : Due us) :
    HasGroup (us ++ ts) (us ++ before) inside := by
  obtain ⟨l, r, after, rfl, hl, hr, hinside, hdue⟩ := h
  exact ⟨l, r, after, by simp, hl, hr, hinside, hus.append hdue⟩

/-- A parenthesis opens one group. -/
theorem HasGroup.unique (h : HasGroup ts before inside) (h' : HasGroup ts before inside') :
    inside = inside' := by
  obtain ⟨l, r, after, rfl, _, hr, hinside, _⟩ := h
  obtain ⟨l', r', after', heq, _, hr', hinside', _⟩ := h'
  exact hinside.unique hinside' hr hr' (List.cons.inj (List.append_cancel_left heq)).2

theorem not_opensGroup_nil : ¬OpensGroup [] before := by
  rintro ⟨l, rest, hts, _⟩
  simp at hts

theorem OpensGroup.of_append (h : OpensGroup (ts ++ us) before) :
    OpensGroup ts before ∨ ∃ before', before = ts ++ before' ∧ OpensGroup us before' := by
  obtain ⟨l, rest, hts, hl, hdue⟩ := h
  obtain ⟨xs, rfl, hxs⟩ | ⟨xs, rfl, _⟩ := exists_of_append_cons hts.symm
  · exact .inr ⟨xs, rfl, l, rest, hxs, hl, .of_append ts hdue⟩
  · exact .inl ⟨l, xs, rfl, hl, hdue⟩

theorem OpensGroup.of_singleton (h : OpensGroup [t] before) :
    before = [] ∧ t.isSymbol '(' = true := by
  obtain ⟨l, rest, hts, hl, _⟩ := h
  cases before with
  | nil =>
    obtain ⟨rfl, _⟩ := List.cons.inj hts
    exact ⟨rfl, hl⟩
  | cons _ _ => simp at hts

theorem OpensGroup.of_cons (h : OpensGroup (t :: ts) before) :
    (before = [] ∧ t.isSymbol '(' = true) ∨
      ∃ before', before = t :: before' ∧ OpensGroup ts before' :=
  have hsplit : OpensGroup ([t] ++ ts) before := h
  hsplit.of_append.imp_left OpensGroup.of_singleton

/-- A group that opens behind a token which is not a parenthesis. -/
theorem OpensGroup.tail (h : OpensGroup (t :: ts) before) (ht : t.isSymbol '(' = false) :
    ∃ before', before = t :: before' ∧ OpensGroup ts before' :=
  h.of_cons.resolve_left fun ⟨_, hopen⟩ => by
    rw [ht] at hopen
    cases hopen

/-- Directly behind a word or an operator no group opens. -/
theorem OpensGroup.behind (h : OpensGroup (t :: ts) before) (ht : t.kind ≠ .symbol) :
    ∃ before', OpensGroup ts.tail before' := by
  obtain ⟨before', rfl, l, rest, rfl, hl, _⟩ := h.tail (Token.isSymbol_of_kind ht)
  obtain ⟨_, _, _, _, hdue⟩ := h
  cases before' with
  | nil => exact absurd (hdue t rfl) ht
  | cons u us =>
    exact ⟨us, l, rest, rfl, hl, Due.of_append [t, u] hdue⟩

theorem not_opensGroup_of_forall (hts : ∀ t ∈ ts, t.isSymbol '(' = false) :
    ¬OpensGroup ts before := by
  rintro ⟨l, rest, rfl, hl, _⟩
  have hnot := hts l (by simp)
  rw [hl] at hnot
  cases hnot

theorem not_opensGroup_singleton (ht : t.isSymbol '(' = false) : ¬OpensGroup [t] before :=
  not_opensGroup_of_forall (by simpa using ht)

end Groups

namespace Token

variable {t : Token}

theorem not_parenthesis_of_isLiteral (h : t.isLiteral = true) :
    t.isSymbol '(' = false ∧ t.isSymbol ')' = false :=
  ⟨isSymbol_of_isLiteral h, isSymbol_of_isLiteral h⟩

theorem kind_of_isOperator (h : t.isOperator = true) : t.kind ≠ .symbol := by
  intro hk
  rw [isOperator_of_symbol hk] at h
  cases h

end Token

namespace Clause

variable {field operator : String} {t : Token} {ts vs before : List Token} {c : Clause}

theorem Lists.not_parenthesis (h : Lists ts vs) :
    ∀ t ∈ ts, t.isSymbol '(' = false ∧ t.isSymbol ')' = false := by
  induction h with
  | nil => simp
  | cons ht _ ih => exact List.forall_mem_cons.2 ⟨Token.not_parenthesis_of_isLiteral ht, ih⟩
  | comma ht hc _ ih =>
    have hcomma := And.intro (Token.isSymbol_ne hc (by decide : ',' ≠ '('))
      (Token.isSymbol_ne hc (by decide : ',' ≠ ')'))
    exact List.forall_mem_cons.2
      ⟨Token.not_parenthesis_of_isLiteral ht, List.forall_mem_cons.2 ⟨hcomma, ih⟩⟩

theorem SpellsOperand.balanced (h : SpellsOperand field operator ts c) : Balanced ts := by
  cases h with
  | literal hv => exact .cons (Token.not_parenthesis_of_isLiteral hv) .nil
  | list _ hl hr hlist _ => exact (balanced_of_forall hlist.not_parenthesis).enclose hl hr

theorem SpellsComparison.balanced (h : SpellsComparison field operator ts c) : Balanced ts := by
  have hword {t : Token} {w : String} (h : t.isWord w = true) :=
    Token.not_parenthesis_of_isLiteral (Token.isLiteral_of_isWord h)
  cases h with
  | null hn => exact .cons (hword hn) .nil
  | notNull hu hn => exact .cons (hword hu) (.cons (hword hn) .nil)
  | notIn hi hop => exact .cons (hword hi) hop.balanced
  | operand _ hop => exact hop.balanced

theorem Spells.balanced (h : Spells ts c) : Balanced ts := by
  have hstart {t : Token} (h : t.startsClause = true) :=
    Token.not_parenthesis_of_isLiteral (Token.isLiteral_of_startsClause h)
  cases h with
  | search ht => exact .cons (hstart ht) .nil
  | comparison hf ho hc =>
    have hk := Token.kind_of_isOperator ho
    exact .cons (hstart hf)
      (.cons ⟨Token.isSymbol_of_kind hk, Token.isSymbol_of_kind hk⟩ hc.balanced)

/-- The parenthesis of a list stands behind the operator, and there is no other one in it. -/
theorem SpellsOperand.not_opensGroup (h : SpellsOperand field operator ts c)
    (ht : t.kind ≠ .symbol) : ¬OpensGroup (t :: ts) before := by
  intro hopens
  obtain ⟨before', hrest⟩ := hopens.behind ht
  cases h with
  | literal => exact not_opensGroup_nil hrest
  | list _ _ hr hlist _ =>
    refine not_opensGroup_of_forall (List.forall_mem_append.2 ⟨?_, ?_⟩) hrest
    · exact fun u hu => (hlist.not_parenthesis u hu).1
    · simpa using Token.isSymbol_ne hr (by decide : ')' ≠ '(')

theorem SpellsComparison.not_opensGroup (h : SpellsComparison field operator ts c)
    (ht : t.kind ≠ .symbol) : ¬OpensGroup (t :: ts) before := by
  intro hopens
  have hword {t : Token} {w : String} (h : t.isWord w = true) : t.kind ≠ .symbol :=
    Token.kind_of_isLiteral (Token.isLiteral_of_isWord h)
  cases h with
  | null =>
    obtain ⟨_, hrest⟩ := hopens.behind ht
    exact not_opensGroup_nil hrest
  | notNull _ hn =>
    obtain ⟨_, hrest⟩ := hopens.behind ht
    exact not_opensGroup_singleton (Token.isSymbol_of_kind (hword hn)) hrest
  | notIn hi hop =>
    obtain ⟨_, _, hrest⟩ := hopens.tail (Token.isSymbol_of_kind ht)
    exact hop.not_opensGroup (hword hi) hrest
  | operand _ hop => exact hop.not_opensGroup ht hopens

/-- There is no group in a clause. -/
theorem Spells.not_opensGroup (h : Spells ts c) : ¬OpensGroup ts before := by
  intro hopens
  have hstart {t : Token} (h : t.startsClause = true) : t.isSymbol '(' = false :=
    Token.isSymbol_of_isLiteral (Token.isLiteral_of_startsClause h)
  cases h with
  | search ht => exact not_opensGroup_singleton (hstart ht) hopens
  | comparison hf ho hc =>
    obtain ⟨_, _, hrest⟩ := hopens.tail (hstart hf)
    exact hc.not_opensGroup (Token.kind_of_isOperator ho) hrest

end Clause

namespace Expr

variable {level : Level} {ts : List Token} {e : Expr}

theorem not_parenthesis_of_joinSign {t : Token} {c : Condition}
    (ht : t.isSymbol (joinSign c) = true) : t.isSymbol '(' = false ∧ t.isSymbol ')' = false := by
  cases c <;> exact ⟨Token.isSymbol_ne ht (by decide), Token.isSymbol_ne ht (by decide)⟩

theorem Spells.balanced (h : Spells level ts e) : Balanced ts := by
  induction h with
  | clause h => exact h.balanced
  | reference ht =>
    exact .cons (Token.not_parenthesis_of_isLiteral (Token.isLiteral_of_isRuleSetName ht)) .nil
  | not ht _ ih =>
    exact .cons ⟨Token.isSymbol_ne ht (by decide), Token.isSymbol_ne ht (by decide)⟩ ih
  | group hl hr _ ih => exact ih.enclose hl hr
  | single _ ih => exact ih
  | join _ ht _ ihl ihr => exact ihl.append (.cons (not_parenthesis_of_joinSign ht) ihr)

end Expr

end BoolQuery.Query
