import BoolQuery.Proofs.Query.Layout
import BoolQuery.Proofs.RuleSet.Meaning

/-! How deep the text of a node nests depends little on its surroundings: these decide about
one pair of parentheses. -/

namespace BoolQuery

namespace Query

/-- How tightly the surroundings of a node bind. -/
def outerRank (outer : Option Condition) : Nat := (outer.map Condition.precedence).getD 0

theorem isLooserThan_iff {h : Header} {outer : Option Condition} :
    h.isLooserThan outer = true ↔ h.condition.precedence < outerRank outer := by
  cases outer <;> simp [Header.isLooserThan, outerRank]

theorem outerRank_le_and (outer : Option Condition) : outerRank outer ≤ outerRank (some .and) := by
  cases outer with
  | none => exact Nat.zero_le _
  | some c => cases c <;> decide

end Query

namespace Node
open Query

variable {h : Header} {kids : List Node} {outer outer' : Option Condition}

theorem nesting_of_name {name : String} (hname : h.name = some name) :
    (group h kids).nesting outer = if h.negated then 1 else 0 := by
  simp [nesting, hname]

/-- The `!` and the parentheses of a negated ruleset, without its children. -/
def bangs (kids : List Node) : Nat := if negatesBare kids then 1 else 2

theorem nesting_of_negated (hname : h.name = none) (hneg : h.negated = true) :
    (group h kids).nesting outer =
      if (soleName? kids).isSome then 1 else nestingOfAll h.condition kids + bangs kids := by
  simp only [nesting, hname, hneg, if_true, bangs]
  cases soleName? kids <;> rfl

theorem nesting_of_unmarked (hname : h.name = none) (hneg : h.negated = false) :
    (group h kids).nesting outer = (aloneNesting? outer kids).getD
      (nestingOfAll h.condition kids + if h.isLooserThan outer then 1 else 0) := by
  simp only [nesting, hname, hneg, Bool.false_eq_true, if_false]
  cases aloneNesting? outer kids <;> rfl

/-- Neither a name nor a negation is affected by what surrounds it. -/
theorem nesting_of_marked (hmark : h.name.isSome = true ∨ h.negated = true)
    (outer outer' : Option Condition) :
    (group h kids).nesting outer = (group h kids).nesting outer' := by
  cases hname : h.name with
  | some name => rw [nesting_of_name hname, nesting_of_name hname]
  | none =>
    have hneg : h.negated = true := by simpa [hname] using hmark
    rw [nesting_of_negated hname hneg, nesting_of_negated hname hneg]

theorem nesting_of_hasName {n : Node} (hn : n.hasName = true)
    (outer outer' : Option Condition) : n.nesting outer = n.nesting outer' := by
  cases n with
  | rule _ => cases hn
  | group h kids => exact nesting_of_marked (.inl hn) outer outer'

theorem nestingOfAll_singleton (c : Condition) (n : Node) :
    nestingOfAll c [n] = n.nesting (some c) := by
  simp [nestingOfAll]

theorem nestingOfAll_append (c : Condition) (ns ms : List Node) :
    nestingOfAll c (ns ++ ms) = max (nestingOfAll c ns) (nestingOfAll c ms) := by
  induction ns with
  | nil => simp [nestingOfAll]
  | cons n ns ih => simp [nestingOfAll, ih, Nat.max_assoc]

theorem nesting_negated_le (hname : h.name = none) (hneg : h.negated = true) :
    (group h kids).nesting outer ≤ nestingOfAll h.condition kids + 2 := by
  rw [nesting_of_negated hname hneg, bangs]
  split
  · omega
  · split <;> omega

mutual

/-- Tighter surroundings cost a pair of parentheses at most. -/
theorem nesting_mono (hrank : outerRank outer ≤ outerRank outer') : (n : Node) →
    n.nesting outer ≤ n.nesting outer' ∧ n.nesting outer' ≤ n.nesting outer + 1
  | rule _ => by simp [nesting]
  | group h kids => by
    by_cases hmark : h.name.isSome = true ∨ h.negated = true
    · rw [nesting_of_marked hmark outer outer']
      omega
    · rw [not_or, Bool.not_eq_true, Option.isSome_eq_false_iff, Option.isNone_iff_eq_none,
        Bool.not_eq_true] at hmark
      obtain ⟨hname, hneg⟩ := hmark
      have hloose : h.isLooserThan outer = true → h.isLooserThan outer' = true := fun hl =>
        isLooserThan_iff.2 (Nat.lt_of_lt_of_le (isLooserThan_iff.1 hl) hrank)
      rw [nesting_of_unmarked hname hneg, nesting_of_unmarked hname hneg]
      obtain ⟨ha, ha'⟩ | ⟨d, d', ha, ha', hle⟩ := aloneNesting_mono hrank kids
      · rw [ha, ha', Option.getD_none, Option.getD_none]
        by_cases hl : h.isLooserThan outer = true
        · rw [if_pos hl, if_pos (hloose hl)]
          omega
        · rw [if_neg hl]
          split <;> omega
      · rw [ha, ha']
        exact hle

theorem aloneNesting_mono (hrank : outerRank outer ≤ outerRank outer') : (kids : List Node) →
    (aloneNesting? outer kids = none ∧ aloneNesting? outer' kids = none) ∨
      ∃ d d', aloneNesting? outer kids = some d ∧ aloneNesting? outer' kids = some d' ∧
        d ≤ d' ∧ d' ≤ d + 1
  | [] => .inl ⟨rfl, rfl⟩
  | [only] => by
    cases hname : only.hasName with
    | true => exact .inl (by simp [aloneNesting?, hname])
    | false =>
      exact .inr ⟨_, _, by simp [aloneNesting?, hname], by simp [aloneNesting?, hname],
        nesting_mono hrank only⟩
  | _ :: _ :: _ => .inl ⟨rfl, rfl⟩

end

theorem nesting_le_and (n : Node) (outer : Option Condition) :
    n.nesting outer ≤ n.nesting (some .and) :=
  (nesting_mono (outerRank_le_and outer) n).1

/-- A single child nests no deeper than the unmarked ruleset around it. -/
theorem nesting_only_le {only : Node} (hname : h.name = none) (hneg : h.negated = false)
    (c : Condition) : only.nesting (some c) ≤ (group h [only]).nesting (some .and) := by
  rw [nesting_of_unmarked hname hneg]
  cases honly : only.hasName with
  | true =>
    simp only [aloneNesting?, honly, if_true, nestingOfAll_singleton]
    rw [nesting_of_hasName honly (some c) (some h.condition)]
    exact Nat.le_add_right _ _
  | false =>
    simp only [aloneNesting?, honly, Bool.false_eq_true, if_false]
    exact nesting_le_and only (some c)

theorem nestingOfAll_le (hname : h.name = none) (hneg : h.negated = false) :
    nestingOfAll h.condition kids ≤ (group h kids).nesting (some .and) := by
  rcases kids with _ | ⟨only, _ | ⟨n, ns⟩⟩
  · exact Nat.zero_le _
  · rw [nestingOfAll_singleton]
    exact nesting_only_le hname hneg h.condition
  · rw [nesting_of_unmarked hname hneg]
    exact Nat.le_add_right _ _

/-- Without a mark, and where its surroundings bind no tighter than itself, a ruleset nests as
its children do. -/
theorem nesting_unmarked_le (hname : h.name = none) (hneg : h.negated = false)
    (hrank : outerRank outer ≤ h.condition.precedence) :
    (group h kids).nesting outer ≤ nestingOfAll h.condition kids := by
  have hloose : h.isLooserThan outer = false := by
    apply Bool.eq_false_iff.2
    intro hl
    have := isLooserThan_iff.1 hl
    omega
  rw [nesting_of_unmarked hname hneg]
  rcases kids with _ | ⟨only, _ | ⟨n, ns⟩⟩
  · simp [aloneNesting?, hloose]
  · rw [nestingOfAll_singleton]
    cases honly : only.hasName with
    | true => simp [aloneNesting?, honly, hloose]
    | false =>
      simp only [aloneNesting?, honly, Bool.false_eq_true, if_false]
      have hle : outerRank outer ≤ outerRank (some h.condition) := hrank
      exact (nesting_mono hle only).1
  · simp [aloneNesting?, hloose]

/-- An unmarked `and` around a single child is not written. -/
theorem nesting_wrapper {only : Node} (hname : h.name = none) (hneg : h.negated = false)
    (hcond : h.condition = .and) : (group h [only]).nesting outer = only.nesting outer := by
  have hloose : h.isLooserThan outer = false := by
    apply Bool.eq_false_iff.2
    intro hl
    have hlt := isLooserThan_iff.1 hl
    have hle := outerRank_le_and outer
    rw [hcond] at hlt
    exact absurd hlt (Nat.not_lt.2 hle)
  rw [nesting_of_unmarked hname hneg, hloose]
  cases honly : only.hasName with
  | true =>
    simp only [aloneNesting?, honly, if_true, Option.getD_none, nestingOfAll_singleton]
    exact nesting_of_hasName honly _ _
  | false => simp [aloneNesting?, honly]

theorem nesting_unwrap (h : Header) (kids : List Node) (outer : Option Condition) :
    (unwrap h kids).nesting outer = (group h kids).nesting outer := by
  obtain ⟨only, rfl, hp, hu⟩ | hu := unwrap_cases h kids
  · obtain ⟨hplain, hcond⟩ := Header.isPlainAnd_iff.1 hp
    obtain ⟨hneg, hname, _⟩ := Header.isPlain_iff.1 hplain
    rw [hu, nesting_wrapper hname hneg hcond]
  · rw [hu]

end Node

end BoolQuery
