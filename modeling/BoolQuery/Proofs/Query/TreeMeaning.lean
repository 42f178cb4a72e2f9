import BoolQuery.Proofs.Query.Remainder
import BoolQuery.Proofs.RuleSet.Meaning
import BoolQuery.Query.Meaning

/-! A query that is read to its end gives a tree that means what its tokens spell: the same
truth under every assignment, and the same leaves in the order of the text. -/

namespace BoolQuery.Query

namespace Expr

/-- The leaves that an expression states, in the order of the text. -/
def leaves (s : Schema) : Expr → List Leaf
  | clause c => [.rule (c.toRule s)]
  | reference name => [.name name]
  | not e => e.leaves s
  | group e => e.leaves s
  | join _ l r => l.leaves s ++ r.leaves s

/-- What a schema makes of literals and references is all that its trees depend on. -/
theorem toTree_congr {s s' : Schema} (hvalue : s'.valueOf = s.valueOf)
    (hlookup : ∀ name, (s'.lookup name).value = (s.lookup name).value)
    (hstore : s'.store.isSome = s.store.isSome) (e : Expr) : e.toTree s' = e.toTree s := by
  induction e with
  | clause c => simp only [toTree, Clause.toRule, hvalue]
  | reference name => rw [toTree, toTree, resolve, resolve, hlookup]
  | not e ih => rw [toTree, toTree, ih, negate, negate, hstore]
  | group e ih => rw [toTree, toTree, ih]
  | join c l r ihl ihr => rw [toTree, toTree, ihl, ihr]

variable {s : Schema} {rule : Rule → Bool} {named : String → Bool → Bool}

theorem valued_negate (s : Schema) (t : RuleSet) :
    (negate s t).valued rule named = !t.valued rule named := by
  unfold negate
  split
  · simp [RuleSet.valued, RuleSet.toNode, Node.valued, Node.valuedAll]
  · simp [RuleSet.valued, RuleSet.toNode, Node.valued]

theorem leaves_negate (s : Schema) (t : RuleSet) : (negate s t).leaves = t.leaves := by
  unfold negate
  split
  · rw [RuleSet.leaves_of_name_eq_none rfl, Node.leavesOfAll_singleton]
    rfl
  · rfl

theorem name_resolve (s : Schema) (name : String) : (resolve s name).name = some name := by
  unfold resolve
  split <;> rfl

/-- A reference stands for its name, or for the opposite where its definition is a negation. -/
theorem holds_resolve (a : Assignment) (name : String) :
    (resolve s name).holds a = ((resolve s name).negated ^^ a.name name) := by
  simp [RuleSet.holds, RuleSet.toNode, Node.holds, name_resolve]

theorem leaves_resolve (s : Schema) (name : String) : (resolve s name).leaves = [.name name] := by
  simp [RuleSet.leaves, RuleSet.toNode, Node.leaves, name_resolve]

theorem valued_ofRule (r : Rule) : (RuleSet.ofRule r).valued rule named = rule r := by
  rw [RuleSet.valued_of_isPlain rfl]
  simp [RuleSet.ofRule, RuleSet.ofChildren, Node.valuedAll, Node.valued]

theorem leaves_ofRule (r : Rule) : (RuleSet.ofRule r).leaves = [.rule r] := by
  rw [RuleSet.leaves_of_isPlain rfl]
  rfl

/-- The tree of an expression has its truth, if every reference has the truth of what it
resolves to. -/
theorem valued_toTree (e : Expr) : (e.toTree s).valued rule named =
    e.holds s ⟨rule, fun name => (resolve s name).valued rule named⟩ := by
  induction e with
  | clause c => exact valued_ofRule _
  | reference name => rfl
  | not e ih => rw [toTree, valued_negate, ih, holds]
  | group e ih => exact ih
  | join condition l r ihl ihr =>
    rw [toTree, (RuleSet.merges_merge condition _ _).valued, ihl, ihr, holds]

/-- Only the leaves of an expression matter for its truth. -/
theorem holds_congr {a b : Assignment} {e : Expr}
    (hrule : ∀ r ∈ e.rules s, a.rule r = b.rule r)
    (hname : ∀ name ∈ e.names, a.name name = b.name name) : e.holds s a = e.holds s b := by
  induction e with
  | clause c => exact hrule _ (by simp [rules])
  | reference name => exact hname name (by simp [names])
  | not e ih => rw [holds, holds, ih hrule hname]
  | group e ih => exact ih hrule hname
  | join condition l r ihl ihr =>
    rw [holds, holds,
      ihl (fun r h => hrule r (List.mem_append_left _ h))
        (fun n h => hname n (List.mem_append_left _ h)),
      ihr (fun r h => hrule r (List.mem_append_right _ h))
        (fun n h => hname n (List.mem_append_right _ h))]

/-- The tree of an expression has its truth, if every reference is negated where its definition
is a negation. -/
theorem holds_toTree_eq (a : Assignment) (e : Expr) : (e.toTree s).holds a =
    e.holds s ⟨a.rule, fun name => (resolve s name).negated ^^ a.name name⟩ := by
  rw [RuleSet.holds_eq_valued, valued_toTree]
  refine holds_congr (fun _ _ => rfl) ?_
  intro name _
  exact (RuleSet.holds_eq_valued a _).symm.trans (holds_resolve a name)

/-- As long as no definition is a negation, the mark of a named ruleset comes from the query
alone. -/
theorem holds_toTree (a : Assignment) {e : Expr}
    (h : ∀ name ∈ e.names, (resolve s name).negated = false) :
    (e.toTree s).holds a = e.holds s a := by
  rw [holds_toTree_eq]
  refine holds_congr (fun _ _ => rfl) ?_
  intro name hn
  show ((resolve s name).negated ^^ a.name name) = a.name name
  rw [h name hn, Bool.false_xor]

theorem leaves_toTree (s : Schema) (e : Expr) : (e.toTree s).leaves = e.leaves s := by
  induction e with
  | clause c => exact leaves_ofRule _
  | reference name => exact leaves_resolve s name
  | not e ih => rw [toTree, leaves_negate, ih, leaves]
  | group e ih => exact ih
  | join condition l r ihl ihr =>
    rw [toTree, (RuleSet.merges_merge condition _ _).leaves, ihl, ihr, leaves]

theorem leaves_simplify_toTree (s : Schema) (e : Expr) :
    (e.toTree s).simplify.leaves = e.leaves s := by
  rw [RuleSet.leaves_simplify, leaves_toTree]

theorem rulesAmong_leaves (s : Schema) (e : Expr) : Leaf.rulesAmong (e.leaves s) = e.rules s := by
  induction e with
  | clause | reference => rfl
  | not e ih | group e ih => exact ih
  | join _ l r ihl ihr => rw [leaves, rules, Leaf.rulesAmong_append, ihl, ihr]

theorem rule_mem_leaves {e : Expr} {r : Rule} : .rule r ∈ e.leaves s ↔ r ∈ e.rules s := by
  rw [← Leaf.mem_rulesAmong, rulesAmong_leaves]

/-- Where no rulesets are stored, the tree of an expression has its rules and no others. -/
theorem rules_toTree (hs : s.store = none) (e : Expr) : (e.toTree s).toNode.rules = e.rules s := by
  induction e with
  | clause c => rfl
  | reference name => simp [toTree, resolve, Schema.lookup, hs, RuleSet.reference, RuleSet.toNode,
      Node.rules, Node.rulesOfAll, rules]
  | not e ih =>
    rw [toTree, negate, hs, Option.isSome_none, Bool.and_false, if_neg Bool.false_ne_true]
    exact ih
  | group e ih => exact ih
  | join condition l r ihl ihr =>
    rw [toTree, (RuleSet.merges_merge condition _ _).rules, ihl, ihr, rules]

theorem rules_simplify_toTree (hs : s.store = none) (e : Expr) :
    (e.toTree s).simplify.toNode.rules = e.rules s := by
  rw [RuleSet.rules_simplify, rules_toTree hs]

theorem name_mem_leaves {e : Expr} {name : String} : .name name ∈ e.leaves s ↔ name ∈ e.names := by
  induction e with
  | clause | reference => simp [leaves, names]
  | not e ih | group e ih => exact ih
  | join _ l r ihl ihr => simp only [leaves, names, List.mem_append, ihl, ihr]

theorem negated_resolve_of_store_eq_none (h : s.store = none) (name : String) :
    (resolve s name).negated = false := by
  simp [resolve, Schema.lookup, h, RuleSet.reference]

end Expr

/-- Tokens are a whole query exactly if they spell an expression that is not too deep, and
then its simplified tree is what they are read as. -/
theorem parseTokens_iff {s : Schema} {ts : List Token} {p : Parsed} :
    (parseTokens s ts).value = .ok p ∧ p.isComplete = true ↔
      ∃ e, Expr.Spells (.chain .or) ts e ∧ e.depth ≤ maxDepth ∧
        p = ⟨(e.toTree s).simplify, ts.length, ts.length⟩ := by
  constructor
  · rintro ⟨h, hc⟩
    obtain ⟨us, rest, e, rfl, hus, hd, -, rfl⟩ := parseTokens_eq_ok_iff.1 h
    obtain rfl : rest = [] := by simpa [Parsed.isComplete] using hc
    rw [List.append_nil]
    exact ⟨e, hus, hd, rfl⟩
  · rintro ⟨e, hspells, hd, rfl⟩
    have hnil : Expr.Ends (.chain .or) [] := .nil _
    refine ⟨parseTokens_eq_ok_iff.2 ?_, by simp [Parsed.isComplete]⟩
    exact ⟨ts, [], e, (List.append_nil ts).symm, hspells, hd, hnil.endsBefore e, rfl⟩

/-- Without stored rulesets, a query that is read to its end gives a tree with the truth and
the leaves of the one expression that its tokens spell. -/
theorem parseTokens_sound {s : Schema} (hs : s.store = none) {ts : List Token} {p : Parsed}
    (h : (parseTokens s ts).value = .ok p) (hc : p.isComplete = true) :
    ∃ e, Expr.Spells (.chain .or) ts e ∧ (∀ e', Expr.Spells (.chain .or) ts e' → e' = e) ∧
      (∀ a, p.tree.holds a = e.holds s a) ∧ p.tree.leaves = e.leaves s := by
  obtain ⟨e, hspells, _, rfl⟩ := parseTokens_iff.1 ⟨h, hc⟩
  refine ⟨e, hspells, fun e' h' => h'.unique hspells, ?_, ?_⟩
  · intro a
    rw [RuleSet.holds_simplify]
    exact Expr.holds_toTree a fun name _ => Expr.negated_resolve_of_store_eq_none hs name
  · exact Expr.leaves_simplify_toTree s e

/-- A negated group with a reference in it, behind a conjunction: `a & !(BAD | b)`. -/
theorem parseTokens_sound_negated_group :
    let s : Schema := { field? := fun _ => none }
    let ts : List Token := [⟨.word, "a"⟩, ⟨.symbol, "&"⟩, ⟨.symbol, "!"⟩, ⟨.symbol, "("⟩,
      ⟨.word, "BAD"⟩, ⟨.symbol, "|"⟩, ⟨.word, "b"⟩, ⟨.symbol, ")"⟩]
    ∃ p, (parseTokens s ts).value = .ok p ∧ p.isComplete = true ∧
      ∃ e, Expr.Spells (.chain .or) ts e ∧ (∀ e', Expr.Spells (.chain .or) ts e' → e' = e) ∧
        (∀ a, p.tree.holds a = e.holds s a) ∧ p.tree.leaves = e.leaves s := by
  intro s ts
  have ha : Expr.Spells .operand [⟨.word, "a"⟩] _ := .clause (.search (by decide +kernel))
  have hbad : Expr.Spells .operand [⟨.word, "BAD"⟩] _ := .reference (by decide +kernel)
  have hb : Expr.Spells .operand [⟨.word, "b"⟩] _ := .clause (.search (by decide +kernel))
  have hor : Expr.Spells (.chain .or) [⟨.word, "BAD"⟩, ⟨.symbol, "|"⟩, ⟨.word, "b"⟩] _ :=
    .join (hbad.ofOperand .or) (by decide) (hb.ofOperand .and)
  have hnot : Expr.Spells .operand (ts.drop 2) _ :=
    .not (by decide) (.group (by decide) (by decide) hor)
  have hand : Expr.Spells (.chain .and) ts _ := .join (ha.ofOperand .and) (by decide) hnot
  obtain ⟨h, hc⟩ := parseTokens_iff.2 ⟨_, .single hand, by decide, rfl⟩
  exact ⟨_, h, hc, parseTokens_sound (s := s) rfl h hc⟩

end BoolQuery.Query
