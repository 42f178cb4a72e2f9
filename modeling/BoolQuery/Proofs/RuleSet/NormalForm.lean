import BoolQuery.Proofs.Query.Shape
import BoolQuery.Proofs.RuleSet.Parts

/-! Simplified trees are normal forms. A wrapper below the root is the only thing that simplifying
can change, and one pass leaves none, however the wrappers stood inside each other. So simplifying
again changes nothing, and the trees that it does not change are those without wrappers. What it
changes has no part in the meaning of a tree, nor in its rules and its marks. -/

namespace BoolQuery

namespace RuleSet
open Node

/-- The rulesets below the root, each before those inside it. -/
def descendants (t : RuleSet) : List RuleSet := rulesetsOfAll t.children

/-- An unmarked `and` around a single child, whatever that child is. -/
def IsWrapper (u : RuleSet) : Prop := u.isPlainAnd = true ∧ u.children.length = 1

/-- The headers that have a mark, each before those inside its ruleset. -/
def marks (t : RuleSet) : List Header := (marked t.rulesets).map RuleSet.toHeader

end RuleSet

namespace Node
open RuleSet

variable {u : RuleSet}

mutual

/-- A ruleset inside a node is the node itself, or a child of a ruleset inside it. -/
theorem exists_parent_of_mem_rulesets : (n : Node) → u ∈ n.rulesets →
    n = u.toNode ∨ ∃ v ∈ n.rulesets, u.toNode ∈ v.children
  | rule _ => nofun
  | group h kids => fun hu => by
    obtain rfl | hu := List.mem_cons.1 hu
    · exact .inl rfl
    · obtain hu | ⟨v, hv, huv⟩ := exists_parent_of_mem_rulesetsOfAll kids hu
      · exact .inr ⟨⟨h, kids⟩, List.mem_cons_self, hu⟩
      · exact .inr ⟨v, List.mem_cons_of_mem _ hv, huv⟩

theorem exists_parent_of_mem_rulesetsOfAll : (ns : List Node) → u ∈ rulesetsOfAll ns →
    u.toNode ∈ ns ∨ ∃ v ∈ rulesetsOfAll ns, u.toNode ∈ v.children
  | [] => nofun
  | n :: ns => fun hu => by
    obtain hu | hu := List.mem_append.1 hu
    · obtain rfl | ⟨v, hv, huv⟩ := exists_parent_of_mem_rulesets n hu
      · exact .inl List.mem_cons_self
      · exact .inr ⟨v, List.mem_append_left _ hv, huv⟩
    · obtain hu | ⟨v, hv, huv⟩ := exists_parent_of_mem_rulesetsOfAll ns hu
      · exact .inl (List.mem_cons_of_mem _ hu)
      · exact .inr ⟨v, List.mem_append_right _ hv, huv⟩

end

theorem unwrap_of_not_isWrapper {h : Header} {kids : List Node} (hw : ¬IsWrapper ⟨h, kids⟩) :
    unwrap h kids = group h kids := by
  obtain ⟨only, rfl, hp, _⟩ | hu := unwrap_cases h kids
  · exact absurd ⟨hp, rfl⟩ hw
  · exact hu

mutual

theorem simplify_eq_self : (n : Node) → (∀ u ∈ n.rulesets, ¬u.IsWrapper) → n.simplify = n
  | rule _ => fun _ => rfl
  | group h kids => fun hn => by
    have hkids := simplifyAll_eq_self kids fun u hu => hn u (List.mem_cons_of_mem _ hu)
    rw [simplify, hkids, unwrap_of_not_isWrapper (hn ⟨h, kids⟩ List.mem_cons_self)]

/-- Nodes without a wrapper in them stay as they are. -/
theorem simplifyAll_eq_self : (ns : List Node) → (∀ u ∈ rulesetsOfAll ns, ¬u.IsWrapper) →
    simplifyAll ns = ns
  | [] => fun _ => rfl
  | n :: ns => fun hns => by
    rw [simplifyAll, simplify_eq_self n fun u hu => hns u (List.mem_append_left _ hu),
      simplifyAll_eq_self ns fun u hu => hns u (List.mem_append_right _ hu)]

end

end Node

namespace RuleSet
open Node

variable {t u : RuleSet}

theorem exists_parent (hu : u ∈ t.descendants) : ∃ v ∈ t.rulesets, u.toNode ∈ v.children := by
  obtain hu | ⟨v, hv, huv⟩ := exists_parent_of_mem_rulesetsOfAll t.children hu
  · exact ⟨t, List.mem_cons_self, hu⟩
  · exact ⟨v, List.mem_cons_of_mem _ hv, huv⟩

theorem not_isWrapper_of_mem_simplify (hu : u ∈ t.simplify.descendants) : ¬u.IsWrapper := by
  rintro ⟨hp, hlength⟩
  obtain ⟨v, hv, huv⟩ := exists_parent hu
  obtain ⟨only, honly⟩ := List.length_eq_one_iff.1 hlength
  rw [toNode, honly] at huv
  have hmarked := unwrapped_simplify hv u.toHeader only huv
  rw [hp] at hmarked
  cases hmarked

theorem simplify_eq_of_not_isWrapper (ht : ∀ u ∈ t.descendants, ¬u.IsWrapper) :
    t.simplify = t := by
  rw [simplify, simplifyAll_eq_self t.children ht]

theorem marks_simplify (t : RuleSet) : t.simplify.marks = t.marks := by
  rw [marks, marked_rulesets_simplify, List.map_map]
  rfl

/-- Simplifying brings a tree into its normal form, in which no ruleset below the root is a wrapper,
and changes no tree that is in this form. It keeps the header of the root and the number of its
children, the truth of the tree under every assignment, whatever a named ruleset stands for, its
rules at all depths from left to right, and the headers of its marked rulesets in their order. -/
theorem simplify_normalForm (t : RuleSet) :
    (∀ u ∈ t.simplify.descendants, ¬u.IsWrapper) ∧
      t.simplify.simplify = t.simplify ∧
      (t.simplify.toHeader = t.toHeader ∧ t.simplify.children.length = t.children.length) ∧
      (∀ rule named, t.simplify.valued rule named = t.valued rule named) ∧
      t.simplify.toNode.rules = t.toNode.rules ∧
      t.simplify.marks = t.marks ∧
      (t.simplify = t ↔ ∀ u ∈ t.descendants, ¬u.IsWrapper) := by
  have hnormal : ∀ u ∈ t.simplify.descendants, ¬u.IsWrapper :=
    fun u hu => not_isWrapper_of_mem_simplify hu
  refine ⟨hnormal, simplify_eq_of_not_isWrapper hnormal,
    ⟨rfl, length_simplifyAll t.children⟩, fun _ _ => valued_simplify t, rules_simplify t,
    marks_simplify t, fun heq => ?_, simplify_eq_of_not_isWrapper⟩
  rwa [heq] at hnormal

end RuleSet

end BoolQuery
