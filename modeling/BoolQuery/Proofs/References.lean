import BoolQuery.Proofs.Query.Mentions
import BoolQuery.Proofs.Query.TreeHeight
import BoolQuery.Proofs.RuleSet.Parts

/-! The references of a tree. Collecting them goes through every ruleset, those inside definitions
too, and keeps the first mention of each name. A ruleset that joining or simplifying takes away is
unmarked, so it has no name: the references of a query are the names that its tokens mention. With
them it is settled whether a tree is valid, as far as its rules are. -/

namespace BoolQuery

/-- If what was seen is kept without repetitions, so is what is seen now. -/
theorem Header.noteName_eraseDups (h : Header) (seen : List String) :
    h.noteName seen.eraseDups = (seen ++ h.name.toList).eraseDups := by
  unfold noteName
  cases h.name with
  | none => simp
  | some name =>
    rw [Option.toList_some, List.eraseDups_append]
    by_cases hseen : name ∈ seen <;>
      simp [hseen, List.removeAll, List.eraseDups_cons, List.mem_eraseDups]

namespace Node

mutual

/-- Collecting adds the names of a node to those that were seen, without repetitions. -/
theorem collectNames_eraseDups : (n : Node) → (seen : List String) →
    n.collectNames seen.eraseDups = (seen ++ n.names).eraseDups
  | rule _, seen => by rw [collectNames, names, List.append_nil]
  | group h kids, seen => by
    rw [collectNames, h.noteName_eraseDups, collectNamesOfAll_eraseDups kids, names,
      List.append_assoc]

theorem collectNamesOfAll_eraseDups : (ns : List Node) → (seen : List String) →
    collectNamesOfAll seen.eraseDups ns = (seen ++ namesOfAll ns).eraseDups
  | [], seen => by rw [collectNamesOfAll, namesOfAll, List.append_nil]
  | n :: ns, seen => by
    rw [collectNamesOfAll, collectNames_eraseDups n, collectNamesOfAll_eraseDups ns, namesOfAll,
      List.append_assoc]

end

mutual

theorem names_eq_filterMap : (n : Node) → n.names = n.rulesets.filterMap (·.name)
  | rule _ => rfl
  | group h kids => by
    rw [names, rulesets, namesOfAll_eq_filterMap kids, List.filterMap_cons]
    cases h.name <;> rfl

theorem namesOfAll_eq_filterMap : (ns : List Node) →
    namesOfAll ns = (rulesetsOfAll ns).filterMap (·.name)
  | [] => rfl
  | n :: ns => by
    rw [namesOfAll, rulesetsOfAll, List.filterMap_append, names_eq_filterMap n,
      namesOfAll_eq_filterMap ns]

end

/-- A name is a mark. -/
theorem filterMap_name_marked (us : List RuleSet) :
    (marked us).filterMap (·.name) = us.filterMap (·.name) := by
  rw [marked, List.filterMap_filter]
  refine List.filterMap_congr fun u _ => ?_
  cases hp : u.isPlain with
  | false => rfl
  | true => exact (Header.isPlain_iff.1 hp).2.1.symm

end Node

namespace RuleSet
open Node

variable {c : Condition} {l r t : RuleSet} {name : String}

/-- The names of a tree are those of its marked rulesets. -/
theorem names_eq_marked (t : RuleSet) :
    t.toNode.names = (marked t.rulesets).filterMap (·.name) := by
  rw [filterMap_name_marked, rulesets, names_eq_filterMap]

theorem names_simplify (t : RuleSet) : t.simplify.toNode.names = t.toNode.names := by
  rw [names_eq_marked, names_eq_marked, marked_rulesets_simplify, List.filterMap_map]
  rfl

theorem Merges.names (h : Merges c l r t) : t.toNode.names = l.toNode.names ++ r.toNode.names := by
  rw [names_eq_marked, names_eq_marked, names_eq_marked, h.marked_rulesets, List.filterMap_append]

theorem references_eq (t : RuleSet) : t.references = t.toNode.names.eraseDups :=
  collectNames_eraseDups t.toNode []

theorem mem_references : name ∈ t.references ↔ name ∈ t.toNode.names := by
  rw [references_eq, List.mem_eraseDups]

end RuleSet

namespace Query.Expr
open RuleSet

variable {s : Schema}

/-- Where no rulesets are stored, the tree of an expression has its names in their order. -/
theorem names_toTree (hs : s.store = none) (e : Expr) : (e.toTree s).toNode.names = e.names := by
  induction e with
  | clause c => rfl
  | reference name =>
    rw [toTree_reference hs]
    rfl
  | not e ih =>
    rw [toTree_not hs]
    exact ih
  | group e ih => exact ih
  | join c l r ihl ihr => rw [toTree, (merges_merge c _ _).names, ihl, ihr, Expr.names]

end Query.Expr

namespace Schema
open Query

variable {s : Schema} {t : RuleSet}

/-- Where a ruleset may be empty, only the names of a tree can make it invalid besides its rules. -/
theorem validateRuleSet_iff_of_rules (hempty : s.allowsEmpty = true)
    (hrules : ∀ o ∈ t.occurrences, (s.checkRule o).value = none) :
    (s.validateRuleSet t).value = true ↔ ∀ name ∈ t.references, s.Resolves name := by
  have hallowed : ∀ o ∈ t.occurrences, ∃ f, s.field? o.rule.field = some f ∧ s.Allows f o :=
    fun o ho => checkRule_iff_allows.1 (hrules o ho)
  simp only [validateRuleSet_eq_true_iff, valid_iff, RuleSet.mem_references]
  exact ⟨fun h => h.2.1, fun h => ⟨hallowed, h, fun _ => hempty⟩⟩

/-- The references of a tree are the names of its rulesets at all depths, each where it comes first
when a ruleset goes before those inside it. They are kept by simplifying, and where no rulesets are
stored, those of a query are what its tokens mention. A tree whose rules all pass, under a schema
that has nothing against empty rulesets, is valid exactly if its references resolve. -/
theorem references_complete :
    (∀ t : RuleSet, t.references = (t.rulesets.filterMap (·.name)).eraseDups ∧
      t.simplify.references = t.references) ∧
    (∀ (s : Schema) (text : String) (p : Parsed), s.store = none → (parse s text).value = .ok p →
      p.tree.references = (mentions true ((tokenize text.toList).take p.consumed)).eraseDups) ∧
    ∀ (s : Schema) (t : RuleSet), s.allowsEmpty = true →
      (∀ o ∈ t.occurrences, (s.checkRule o).value = none) →
      ((s.validateRuleSet t).value = true ↔ ∀ name ∈ t.references, s.Resolves name) := by
  refine ⟨fun t => ⟨?preorder, ?simplified⟩, fun s text p hs h => ?mentioned,
    fun s t hempty hrules => validateRuleSet_iff_of_rules hempty hrules⟩
  case preorder => rw [RuleSet.references_eq, Node.names_eq_filterMap, RuleSet.rulesets]
  case simplified => rw [RuleSet.references_eq, RuleSet.references_eq, RuleSet.names_simplify]
  case mentioned =>
    obtain ⟨e, hspells, _, htree⟩ := spells_of_parse h
    rw [RuleSet.references_eq, htree, RuleSet.names_simplify, Expr.names_toTree hs,
      hspells.mentions_eq]

/-- A definition in a wrapper mentions its own name again. In the query, `D` is a value and the last
word is left over, so neither is a reference. -/
theorem references_complete_repeated :
    let a : Node := .rule { field := "a", operator := "=", value := some (.string "x") }
    let stored := RuleSet.ofChildren .or [(RuleSet.reference "B").toNode, a]
    let s : Schema :=
      { field? := fun name => if name = "a" then some {} else none
        store := some fun _ => .answer (some stored) }
    let t := RuleSet.ofChildren .or
      [.group {} [.group { name := some "A", negated := true } [stored.toNode,
        (RuleSet.reference "A").toNode]], a, (RuleSet.reference "B").toNode, .group {} []]
    (t.references = ["A", "B"] ∧ t.simplify.references = ["A", "B"]) ∧
      (∃ p, (parse { field? := fun _ => none } "C & !(B | !C) | a = D B").value = .ok p ∧
        p.tree.references = ["C", "B"]) ∧
      (s.validateRuleSet t).value = true := by
  intro a stored s t
  obtain ⟨hwhole, hread, hvalid⟩ := references_complete
  refine ⟨?tree, ?query, (hvalid s t rfl (by decide)).2 fun _ _ => ⟨_, rfl, stored, rfl⟩⟩
  case tree =>
    obtain ⟨hpreorder, hsimplified⟩ := hwhole t
    have hnames : t.references = ["A", "B"] := hpreorder.trans (by decide)
    exact ⟨hnames, hsimplified.trans hnames⟩
  case query =>
    have hconsumed : (parse { field? := fun _ => none } "C & !(B | !C) | a = D B").value.map
        (·.consumed) = .ok 13 := by
      decide +kernel
    obtain ⟨p, hp, hconsumed⟩ := exists_of_map_eq_ok hconsumed
    refine ⟨p, hp, ?_⟩
    rw [hread _ _ p rfl hp, hconsumed]
    decide +kernel

end Schema

end BoolQuery
