import BoolQuery.RuleSet.Meaning
import BoolQuery.RuleSet.Wrapper

/-! What merging and simplifying keep: the truth of a tree, and its leaves from left to right.
A named ruleset counts as a leaf, whatever its definition is. Its truth may be that of its
name or that of its definition, so it is left open what a named ruleset stands for. -/

namespace BoolQuery

/-- The end of a branch: a rule, or a named ruleset, which stands for its name. -/
inductive Leaf
  | rule (r : Rule)
  | name (name : String)

namespace Leaf

def rule? : Leaf → Option Rule
  | rule r => some r
  | name _ => none

/-- The rules among some leaves. -/
def rulesAmong (ls : List Leaf) : List Rule := ls.filterMap rule?

theorem rulesAmong_append (ls ls' : List Leaf) :
    rulesAmong (ls ++ ls') = rulesAmong ls ++ rulesAmong ls' :=
  List.filterMap_append

theorem mem_rulesAmong {ls : List Leaf} {r : Rule} : r ∈ rulesAmong ls ↔ rule r ∈ ls := by
  induction ls with
  | nil => simp [rulesAmong]
  | cons l ls ih =>
    cases l with
    | rule r' => simpa [rulesAmong, rule?] using or_congr_right ih
    | name _ => simpa [rulesAmong, rule?] using ih

end Leaf

namespace Condition

theorem combine_append (c : Condition) (xs ys : List Bool) :
    c.combine (xs ++ ys) = c.combine [c.combine xs, c.combine ys] := by
  cases c <;> simp [combine]

theorem combine_assoc (c : Condition) (x y z : Bool) :
    c.combine [c.combine [x, y], z] = c.combine [x, c.combine [y, z]] := by
  cases c <;> simp [combine, Bool.and_assoc, Bool.or_assoc]

theorem combine_cons (c : Condition) (x : Bool) (ys : List Bool) :
    c.combine (x :: ys) = c.combine [x, c.combine ys] := by
  cases c <;> simp [combine]

end Condition

theorem Header.isPlain_iff {h : Header} :
    h.isPlain = true ↔ h.negated = false ∧ h.name = none ∧ h.parenthesized = false := by
  simp [isPlain, and_assoc]

theorem Header.isPlainAnd_iff {h : Header} :
    h.isPlainAnd = true ↔ h.isPlain = true ∧ h.condition = .and := by
  simp [isPlainAnd]

namespace Node

mutual

/-- The leaves at all depths, from left to right. -/
def leaves : Node → List Leaf
  | rule r => [.rule r]
  | group h kids =>
    match h.name with
    | some name => [.name name]
    | none => leavesOfAll kids

def leavesOfAll : List Node → List Leaf
  | [] => []
  | n :: ns => n.leaves ++ leavesOfAll ns

end

theorem leavesOfAll_append (ns ms : List Node) :
    leavesOfAll (ns ++ ms) = leavesOfAll ns ++ leavesOfAll ms := by
  induction ns with
  | nil => rfl
  | cons n ns ih => simp [leavesOfAll, ih]

theorem leavesOfAll_singleton (n : Node) : leavesOfAll [n] = n.leaves := by
  simp [leavesOfAll]

mutual

theorem names_eq_nil_iff : (n : Node) → (n.names = [] ↔ ∀ name, .name name ∉ n.leaves)
  | .rule _ => by simp [names, leaves]
  | .group h kids => by
    cases hname : h.name with
    | none => simp [names, leaves, hname, namesOfAll_eq_nil_iff kids]
    | some name => simp [names, leaves, hname]

/-- Nodes are free of names if their leaves are: what a named ruleset hides is below a name. -/
theorem namesOfAll_eq_nil_iff : (ns : List Node) →
    (namesOfAll ns = [] ↔ ∀ name, .name name ∉ leavesOfAll ns)
  | [] => by simp [namesOfAll, leavesOfAll]
  | n :: ns => by
    rw [namesOfAll, List.append_eq_nil_iff, names_eq_nil_iff n, namesOfAll_eq_nil_iff ns]
    simp only [leavesOfAll, List.mem_append, not_or, forall_and]

end

mutual

/-- The truth of a node, where `named` gives that of a named ruleset from its name and from the
truth of its children together. -/
def valued (rule : Rule → Bool) (named : String → Bool → Bool) : Node → Bool
  | .rule r => rule r
  | group h kids =>
    h.negated ^^ match h.name with
      | some name => named name (h.condition.combine (valuedAll rule named kids))
      | none => h.condition.combine (valuedAll rule named kids)

def valuedAll (rule : Rule → Bool) (named : String → Bool → Bool) : List Node → List Bool
  | [] => []
  | n :: ns => n.valued rule named :: valuedAll rule named ns

end

mutual

theorem holds_eq_valued (a : Assignment) : (n : Node) →
    n.holds a = n.valued a.rule fun name _ => a.name name
  | rule _ => rfl
  | group h kids => by
    cases hname : h.name with
    | some name => simp only [holds, valued, hname]
    | none => simp only [holds, valued, hname, truths_eq_valuedAll]

theorem truths_eq_valuedAll (a : Assignment) : (ns : List Node) →
    truths a ns = valuedAll a.rule (fun name _ => a.name name) ns
  | [] => rfl
  | n :: ns => by
    rw [truths, valuedAll, holds_eq_valued, truths_eq_valuedAll]

end

variable {rule : Rule → Bool} {named : String → Bool → Bool}

theorem valuedAll_append (ns ms : List Node) :
    valuedAll rule named (ns ++ ms) = valuedAll rule named ns ++ valuedAll rule named ms := by
  induction ns with
  | nil => rfl
  | cons n ns ih => simp [valuedAll, ih]

theorem valued_of_name_eq_none {h : Header} (kids : List Node) (hname : h.name = none) :
    (group h kids).valued rule named =
      (h.negated ^^ h.condition.combine (valuedAll rule named kids)) := by
  simp [valued, hname]

theorem holds_of_name_eq_none {h : Header} (a : Assignment) (kids : List Node)
    (hname : h.name = none) :
    (group h kids).holds a = (h.negated ^^ h.condition.combine (truths a kids)) := by
  simp [holds, hname]

theorem leaves_of_name_eq_none {h : Header} (kids : List Node) (hname : h.name = none) :
    (group h kids).leaves = leavesOfAll kids := by
  simp [leaves, hname]

/-- A group that gives way to its child is a plain one with that child alone. -/
theorem unwrap_cases (h : Header) (kids : List Node) :
    (∃ only, kids = [only] ∧ h.isPlainAnd = true ∧ unwrap h kids = only) ∨
      unwrap h kids = group h kids := by
  unfold unwrap
  split
  · rename_i only
    by_cases hp : h.isPlainAnd = true
    · exact .inl ⟨only, rfl, hp, if_pos hp⟩
    · exact .inr (if_neg hp)
  · exact .inr rfl

theorem valued_unwrap (h : Header) (kids : List Node) :
    (unwrap h kids).valued rule named = (group h kids).valued rule named := by
  obtain ⟨only, rfl, hp, hu⟩ | hu := unwrap_cases h kids
  · obtain ⟨hplain, _⟩ := Header.isPlainAnd_iff.1 hp
    obtain ⟨hneg, hname, _⟩ := Header.isPlain_iff.1 hplain
    rw [hu, valued_of_name_eq_none _ hname, hneg]
    simp [valuedAll]
  · rw [hu]

theorem leaves_unwrap (h : Header) (kids : List Node) :
    (unwrap h kids).leaves = (group h kids).leaves := by
  obtain ⟨only, rfl, hp, hu⟩ | hu := unwrap_cases h kids
  · obtain ⟨hplain, _⟩ := Header.isPlainAnd_iff.1 hp
    obtain ⟨_, hname, _⟩ := Header.isPlain_iff.1 hplain
    rw [hu, leaves_of_name_eq_none _ hname, leavesOfAll_singleton]
  · rw [hu]

theorem rules_unwrap (h : Header) (kids : List Node) :
    (unwrap h kids).rules = rulesOfAll kids := by
  obtain ⟨only, rfl, _, hu⟩ | hu := unwrap_cases h kids
  · simp [hu, rulesOfAll]
  · rw [hu, rules]

mutual

theorem rules_simplify : (n : Node) → n.simplify.rules = n.rules
  | rule _ => rfl
  | group h kids => by
    rw [simplify, rules_unwrap, rules, rulesOfAll_simplifyAll]

theorem rulesOfAll_simplifyAll : (ns : List Node) → rulesOfAll (simplifyAll ns) = rulesOfAll ns
  | [] => rfl
  | n :: ns => by
    rw [simplifyAll, rulesOfAll, rulesOfAll, rules_simplify, rulesOfAll_simplifyAll]

end

mutual

theorem valued_simplify : (n : Node) → n.simplify.valued rule named = n.valued rule named
  | .rule _ => rfl
  | group h kids => by
    rw [simplify, valued_unwrap, valued, valued, valuedAll_simplifyAll]

theorem valuedAll_simplifyAll : (ns : List Node) →
    valuedAll rule named (simplifyAll ns) = valuedAll rule named ns
  | [] => rfl
  | n :: ns => by
    rw [simplifyAll, valuedAll, valuedAll, valued_simplify, valuedAll_simplifyAll]

end

mutual

theorem leaves_simplify : (n : Node) → n.simplify.leaves = n.leaves
  | rule _ => rfl
  | group h kids => by
    rw [simplify, leaves_unwrap, leaves, leaves, leavesOfAll_simplifyAll]

theorem leavesOfAll_simplifyAll : (ns : List Node) → leavesOfAll (simplifyAll ns) = leavesOfAll ns
  | [] => rfl
  | n :: ns => by
    rw [simplifyAll, leavesOfAll, leavesOfAll, leaves_simplify, leavesOfAll_simplifyAll]

end

end Node

namespace RuleSet

def leaves (t : RuleSet) : List Leaf := t.toNode.leaves

/-- The truth of a tree, where `named` gives that of a named ruleset. -/
def valued (rule : Rule → Bool) (named : String → Bool → Bool) (t : RuleSet) : Bool :=
  t.toNode.valued rule named

/-- The truth of a tree in which every named ruleset stands for its definition. -/
def expandedHolds (rule : Rule → Bool) (t : RuleSet) : Bool :=
  t.valued rule fun _ definition => definition

variable {condition : Condition} {t l r : RuleSet} {rule : Rule → Bool}
  {named : String → Bool → Bool}

theorem holds_eq_valued (a : Assignment) (t : RuleSet) :
    t.holds a = t.valued a.rule fun name _ => a.name name :=
  Node.holds_eq_valued a t.toNode

theorem valued_of_isPlain (h : t.isPlain = true) : t.valued rule named =
    t.condition.combine (Node.valuedAll rule named t.children) := by
  obtain ⟨hneg, hname, _⟩ := Header.isPlain_iff.1 h
  rw [valued, toNode, Node.valued_of_name_eq_none _ hname, hneg, Bool.false_xor]

theorem leaves_of_name_eq_none (h : t.name = none) : t.leaves = Node.leavesOfAll t.children :=
  Node.leaves_of_name_eq_none t.children h

theorem leaves_of_isPlain (h : t.isPlain = true) : t.leaves = Node.leavesOfAll t.children :=
  leaves_of_name_eq_none (Header.isPlain_iff.1 h).2.1

/-- A ruleset with one child joins nothing. -/
theorem combine_of_length (c c' : Condition) {ns : List Node} (h : ns.length = 1) :
    c.combine (Node.valuedAll rule named ns) = c'.combine (Node.valuedAll rule named ns) := by
  obtain ⟨n, rfl⟩ := List.length_eq_one_iff.1 h
  simp [Node.valuedAll]

/-- What two merged operands can become. Their children share a ruleset only where both are
plain. -/
inductive Merges (condition : Condition) (l r : RuleSet) : RuleSet → Prop
  | spliced : l.isPlain = true → r.isPlain = true → l.condition = condition →
      r.condition = condition ∨ r.children.length = 1 →
      Merges condition l r { l with children := l.children ++ r.children }
  | grafted : l.isPlain = true → l.condition = condition →
      Merges condition l r { l with children := l.children ++ [r.toNode] }
  | unwrapped : l.isPlain = true → r.isPlain = true → l.children.length = 1 →
      r.children.length = 1 → Merges condition l r (ofChildren condition (l.children ++ r.children))
  | paired : Merges condition l r (ofChildren condition [l.toNode, r.toNode])

theorem merges_merge (condition : Condition) (l r : RuleSet) :
    Merges condition l r (merge condition l r) := by
  unfold merge
  split
  · rename_i h
    simp only [Bool.and_eq_true, beq_iff_eq] at h
    obtain ⟨⟨hl, hr⟩, hc⟩ := h
    split
    · rename_i h
      exact .spliced hl hr hc (by simpa using h)
    · exact .grafted hl hc
  split
  · rename_i h
    simp only [Bool.and_eq_true, beq_iff_eq] at h
    obtain ⟨⟨⟨⟨⟨⟨hl, hr⟩, rfl⟩, _⟩, _⟩, hl1⟩, hr1⟩ := h
    exact .unwrapped hl hr hl1 hr1
  · exact .paired

theorem Merges.isPlain (h : Merges condition l r t) : t.isPlain = true := by
  cases h with
  | spliced hl | grafted hl => exact hl
  | unwrapped | paired => rfl

theorem Merges.condition_eq (h : Merges condition l r t) : t.condition = condition := by
  cases h with
  | spliced _ _ hc | grafted _ hc => exact hc
  | unwrapped | paired => rfl

/-- Two operands give two children at least. -/
theorem Merges.two_le_length (h : Merges condition l r t)
    (hl : l.isPlain = true → l.children ≠ []) (hr : r.isPlain = true → r.children ≠ []) :
    2 ≤ t.children.length := by
  cases h with
  | spliced hpl hpr | unwrapped hpl hpr =>
    have := List.length_pos_iff.2 (hl hpl)
    have := List.length_pos_iff.2 (hr hpr)
    simp only [ofChildren, List.length_append]
    omega
  | grafted hpl =>
    have := List.length_pos_iff.2 (hl hpl)
    simp only [List.length_append, List.length_cons, List.length_nil]
    omega
  | paired => exact Nat.le_refl 2

theorem Merges.valued (h : Merges condition l r t) :
    t.valued rule named = condition.combine [l.valued rule named, r.valued rule named] := by
  cases h with
  | spliced hl hr hc hrc =>
    have hr' : r.valued rule named =
        condition.combine (Node.valuedAll rule named r.children) := by
      rw [valued_of_isPlain hr]
      obtain rfl | h1 := hrc
      · rfl
      · exact combine_of_length _ _ h1
    rw [valued_of_isPlain hl, hr', valued_of_isPlain (by exact hl), Node.valuedAll_append,
      ← hc, Condition.combine_append]
  | grafted hl hc =>
    rw [valued_of_isPlain hl, valued_of_isPlain (by exact hl), Node.valuedAll_append,
      ← hc, Condition.combine_append]
    simp [Node.valuedAll, RuleSet.valued]
  | unwrapped hl hr hl1 hr1 =>
    rw [valued_of_isPlain hl, valued_of_isPlain hr, valued_of_isPlain rfl,
      combine_of_length _ condition hl1, combine_of_length _ condition hr1]
    rw [← Condition.combine_append, ← Node.valuedAll_append]
    rfl
  | paired =>
    rw [valued_of_isPlain rfl]
    simp [ofChildren, Node.valuedAll, RuleSet.valued]

theorem Merges.leaves (h : Merges condition l r t) : t.leaves = l.leaves ++ r.leaves := by
  cases h with
  | spliced hl hr _ _ =>
    rw [leaves_of_isPlain hl, leaves_of_isPlain hr, leaves_of_isPlain (by exact hl),
      Node.leavesOfAll_append]
  | grafted hl _ =>
    rw [leaves_of_isPlain hl, leaves_of_isPlain (by exact hl), Node.leavesOfAll_append,
      Node.leavesOfAll_singleton]
    rfl
  | unwrapped hl hr _ _ =>
    rw [leaves_of_isPlain hl, leaves_of_isPlain hr, ← Node.leavesOfAll_append]
    rfl
  | paired =>
    rw [leaves_of_isPlain rfl]
    simp [ofChildren, Node.leavesOfAll, RuleSet.leaves]

theorem Merges.rules (h : Merges condition l r t) :
    t.toNode.rules = l.toNode.rules ++ r.toNode.rules := by
  cases h with
  | spliced | unwrapped => exact Node.rulesOfAll_append _ _
  | grafted | paired =>
    simp [toNode, ofChildren, Node.rules, Node.rulesOfAll, Node.rulesOfAll_append]

theorem rules_simplify (t : RuleSet) : t.simplify.toNode.rules = t.toNode.rules :=
  Node.rulesOfAll_simplifyAll t.children

theorem valued_simplify (t : RuleSet) : t.simplify.valued rule named = t.valued rule named := by
  simp only [RuleSet.valued, simplify, toNode, Node.valued, Node.valuedAll_simplifyAll]

theorem holds_simplify (a : Assignment) (t : RuleSet) : t.simplify.holds a = t.holds a := by
  rw [holds_eq_valued, holds_eq_valued, valued_simplify]

theorem leaves_simplify (t : RuleSet) : t.simplify.leaves = t.leaves := by
  simp only [RuleSet.leaves, simplify, toNode, Node.leaves, Node.leavesOfAll_simplifyAll]

end RuleSet

end BoolQuery
