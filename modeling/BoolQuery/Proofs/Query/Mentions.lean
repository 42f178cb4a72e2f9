import BoolQuery.Proofs.Query.Failures

/-! The references among tokens. Which words of a query refer to rulesets shows in its tokens, so the
names that a reading looks up do not depend on the schema: they are those that are mentioned up to
where the reading stops, which is its end or the first token that no query goes on with. -/

namespace BoolQuery.Query

/-- The names among tokens that stand where an operand begins. One is `due` behind a joiner and
behind what opens an operand, and no other word but the first one then can refer to a ruleset. -/
def mentions : (due : Bool) → List Token → List String
  | _, [] => []
  | true, t :: ts =>
    if t.isRuleSetName then t.text :: mentions false ts else mentions t.isOpening ts
  | false, t :: ts => mentions t.isJoiner ts

section Mentions

variable {t : Token} {ts us rest : List Token} {c : Condition}

/-- Nothing is mentioned in a clause. -/
theorem mentions_of_not_isJoiner (h : ∀ t ∈ ts, t.isJoiner = false) (us : List Token) :
    mentions false (ts ++ us) = mentions false us := by
  induction ts with
  | nil => rfl
  | cons t ts ih =>
    obtain ⟨ht, hts⟩ := List.forall_mem_cons.1 h
    rw [List.cons_append, mentions, ht, ih hts]

theorem mentions_literal (ht : t.startsClause = true) (us : List Token) :
    mentions true (t :: us) = mentions false us := by
  have hopen := Token.isOpening_of_kind
    (Token.kind_of_isLiteral (Token.isLiteral_of_startsClause ht))
  simp [mentions, Token.isRuleSetName_of_startsClause ht, hopen]

theorem mentions_opening (ht : t.isOpening = true) (us : List Token) :
    mentions true (t :: us) = mentions true us := by
  have hname : t.isRuleSetName = false := by
    simp [Token.isRuleSetName, Token.symbol_of_isOpening ht]
  simp [mentions, hname, ht]

theorem mentions_joiner (ht : t.isSymbol (joinSign c) = true) (us : List Token) :
    mentions false (t :: us) = mentions true us := by
  rw [mentions, Token.isJoiner_of_joinSign ht]

theorem isOpening_bang (h : t.isSymbol '!' = true) : t.isOpening = true := by
  simp [Token.isOpening, h]

theorem isOpening_parenthesis (h : t.isSymbol '(' = true) : t.isOpening = true := by
  simp [Token.isOpening, h]

theorem mentions_clause (hhead : ∃ t ts, us = t :: ts ∧ t.startsClause = true)
    (hus : ∀ t ∈ us, t.isJoiner = false) (rest : List Token) :
    mentions true (us ++ rest) = mentions false rest := by
  obtain ⟨t, ts, rfl, ht⟩ := hhead
  rw [List.cons_append, mentions_literal ht]
  exact mentions_of_not_isJoiner (List.forall_mem_cons.1 hus).2 rest

end Mentions

namespace Expr

variable {d : Nat} {level : Level} {ts us rest : List Token} {e : Expr} {f : Failure}

/-- The tokens of an expression mention its names, and none is due behind them. -/
theorem Spells.mentions_append (h : Spells level ts e) (us : List Token) :
    mentions true (ts ++ us) = e.names ++ mentions false us := by
  induction h generalizing us with
  | clause h => exact mentions_clause h.exists_cons h.not_isJoiner us
  | reference ht => simp [mentions, ht, names]
  | not ht _ ih =>
    rw [List.cons_append, mentions_opening (isOpening_bang ht), ih, names]
  | group hl hr _ ih =>
    rw [List.cons_append, mentions_opening (isOpening_parenthesis hl), List.append_assoc, ih,
      List.singleton_append, mentions, Token.isJoiner_of_isSymbol hr (by decide), names]
  | single _ ih => exact ih us
  | join _ ht _ ihl ihr =>
    rw [List.append_assoc, List.cons_append, ihl, mentions_joiner ht, ihr, names,
      List.append_assoc]

theorem Spells.mentions_eq (h : Spells level ts e) : mentions true ts = e.names := by
  have hmentions := h.mentions_append []
  rwa [List.append_nil, mentions, List.append_nil] at hmentions

/-- What was read before a failure mentions the names that the failure leaves behind. -/
theorem Fails.mentions_eq (h : Fails d level us rest f) : mentions true us = f.names := by
  induction h with
  | endOfText | unexpected | tooDeep => rfl
  | clause h =>
    have hclause := mentions_clause h.exists_cons h.not_isJoiner []
    rwa [List.append_nil] at hclause
  | not ht _ ih => rw [mentions_opening (isOpening_bang ht), ih]
  | group ht _ ih => rw [mentions_opening (isOpening_parenthesis ht), ih]
  | unclosed ht hus => rw [mentions_opening (isOpening_parenthesis ht), hus.mentions_eq]
  | first _ ih => exact ih
  | behind hts _ ht _ ih => rw [hts.mentions_append, mentions_joiner ht, ih, Failure.behind]

end Expr

/-- Some query begins with the tokens. -/
def StartsQuery (ts : List Token) : Prop :=
  ∃ us e, Expr.Spells (.chain .or) (ts ++ us) e ∧ e.depth ≤ maxDepth

/-- Reading the tokens takes the first `k` of them. A reading that fails takes those that some query
begins with, and if it reports the place of a token, it is the next one. -/
def Takes (ts : List Token) (k : Nat) : Except ParseError Parsed → Prop
  | .ok p => p.consumed = k
  | .error error => StartsQuery (ts.take k) ∧ (∀ t ∈ ts[k]?, ¬ StartsQuery (ts.take k ++ [t])) ∧
      ∀ token index, error = .unexpected token index → index = k

theorem Fault.Locates.index_eq {us rest : List Token} {fault : Fault} (h : fault.Locates rest) {token : String}
    {index : Nat} (herror : fault.toError (us ++ rest).length = .unexpected token index) :
    index = us.length := by
  cases fault with
  | unexpected t behind =>
    obtain ⟨rfl, _⟩ := h t behind rfl
    rw [toError_unexpected] at herror
    exact (ParseError.unexpected.inj herror).2.symm
  | endOfText | unclosedParenthesis | emptyList | tooDeep => cases herror

/-- Under any schema, a reading takes the same tokens and looks up the names that they mention. -/
theorem exists_takes (ts : List Token) : ∃ k ≤ ts.length, ∀ s : Schema,
    Takes ts k (parseTokens s ts).value ∧
      (parseTokens s ts).log = lookupLog s (mentions true (ts.take k)) := by
  cases hread : Expr.read ts with
  | error f =>
    obtain ⟨us, rest, rfl, hus⟩ := Expr.read_eq_error_iff.1 hread
    refine ⟨us.length, by simp, fun s => ?_⟩
    rw [parseTokens_of_fails hus, List.take_left, hus.mentions_eq]
    refine ⟨⟨?starts, ?stops, fun _ _ => hus.locates.index_eq⟩, rfl⟩
    case starts => simpa [StartsQuery] using hus.exists_spells
    case stops =>
      intro t ht
      rw [List.getElem?_append_right (Nat.le_refl _), Nat.sub_self,
        ← List.head?_eq_getElem?] at ht
      obtain ⟨behind, rfl⟩ := List.head?_eq_some_iff.1 ht
      rw [List.take_left]
      rintro ⟨vs, e, hspells, hd⟩
      rw [List.append_assoc, List.singleton_append] at hspells
      exact hus.not_spells hd hspells
  | ok p =>
    obtain ⟨hspells, _⟩ := Expr.spells_of_read hread
    refine ⟨ts.length - p.rest.length, Nat.sub_le _ _, fun s => ?_⟩
    rw [hspells.mentions_eq]
    simp [parseTokens, hread, Takes]

end BoolQuery.Query
