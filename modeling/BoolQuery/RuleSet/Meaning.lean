import BoolQuery.RuleSet.Basic

/-! What a tree means: its truth once the rules and the named rulesets are true or false.
Parentheses have no part in it, and neither has the definition of a named ruleset. -/

namespace BoolQuery

/-- What is true of the thing that is looked for. -/
structure Assignment where
  rule : Rule → Bool
  name : String → Bool

namespace Condition

/-- The truth of operands together. No operands are true under `and`, false under `or`. -/
def combine : Condition → List Bool → Bool
  | and, bs => bs.all id
  | or, bs => bs.any id

@[simp] theorem combine_singleton (c : Condition) (b : Bool) : c.combine [b] = b := by
  cases c <;> simp [combine]

end Condition

namespace Node

mutual

def holds (a : Assignment) : Node → Bool
  | rule r => a.rule r
  | group h kids =>
    h.negated ^^ match h.name with
      | some name => a.name name
      | none => h.condition.combine (truths a kids)

/-- The truth of each of some nodes. -/
def truths (a : Assignment) : List Node → List Bool
  | [] => []
  | n :: ns => n.holds a :: truths a ns

end

mutual

/-- The rules at all depths, from left to right. -/
def rules : Node → List Rule
  | rule r => [r]
  | group _ kids => rulesOfAll kids

def rulesOfAll : List Node → List Rule
  | [] => []
  | n :: ns => n.rules ++ rulesOfAll ns

end

mutual

/-- The node with another rule in the place of each. -/
def mapRules (f : Rule → Rule) : Node → Node
  | rule r => rule (f r)
  | group h kids => group h (mapRulesAll f kids)

def mapRulesAll (f : Rule → Rule) : List Node → List Node
  | [] => []
  | n :: ns => n.mapRules f :: mapRulesAll f ns

end

theorem rulesOfAll_append (ns ms : List Node) :
    rulesOfAll (ns ++ ms) = rulesOfAll ns ++ rulesOfAll ms := by
  induction ns with
  | nil => rfl
  | cons n ns ih => simp [rulesOfAll, ih]

end Node

namespace RuleSet

def holds (a : Assignment) (t : RuleSet) : Bool := t.toNode.holds a

end RuleSet

end BoolQuery
