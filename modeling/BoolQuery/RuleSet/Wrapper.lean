import BoolQuery.RuleSet.Basic

/-! Removing wrappers. An unmarked `and` around a single child says nothing, so below the
root every such ruleset gives way to its child. -/

namespace BoolQuery

namespace Node

/-- A group, or its only child where the group is a wrapper. -/
def unwrap (h : Header) : List Node → Node
  | [only] => if h.isPlainAnd then only else group h [only]
  | kids => group h kids

mutual

/-- From the leaves upwards, so that a wrapper around a wrapper goes too. -/
def simplify : Node → Node
  | rule r => rule r
  | group h kids => unwrap h (simplifyAll kids)

def simplifyAll : List Node → List Node
  | [] => []
  | n :: ns => n.simplify :: simplifyAll ns

end

end Node

namespace RuleSet

/-- The root stays, so that a tree is a ruleset even if it holds a single rule. -/
def simplify (t : RuleSet) : RuleSet := { t with children := Node.simplifyAll t.children }

end RuleSet

end BoolQuery
