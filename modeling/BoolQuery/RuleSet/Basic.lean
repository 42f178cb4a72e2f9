import BoolQuery.Rule

/-! Trees of rules. A ruleset joins its children by `and` or by `or`; its header carries
what marks it out from its surroundings: a negation, a name, parentheses of its own. -/

namespace BoolQuery

inductive Condition
  | and
  | or
  deriving DecidableEq, Repr

namespace Condition

/-- The higher one binds its operands more tightly. -/
def precedence : Condition → Nat
  | or => 1
  | and => 2

/-- What stands between the children in a query. -/
def joiner : Condition → String
  | and => " & "
  | or => " | "

def word : Condition → String
  | and => "and"
  | or => "or"

end Condition

/-- What a ruleset states about itself, its children left aside. -/
structure Header where
  condition : Condition := .and
  /-- The name of a stored ruleset that this one refers to. -/
  name : Option String := none
  negated : Bool := false
  /-- Whether the ruleset was written inside parentheses of its own. -/
  parenthesized : Bool := false
  deriving DecidableEq, Repr

namespace Header

/-- A header without marks: its ruleset may be merged into its surroundings. -/
def isPlain (h : Header) : Bool := !h.negated && h.name.isNone && !h.parenthesized

/-- The header of a wrapper that joins nothing when it has a single child. -/
def isPlainAnd (h : Header) : Bool := h.isPlain && h.condition == .and

/-- The names that were seen before, and behind them the header's own if it is new. -/
def noteName (h : Header) (seen : List String) : List String :=
  match h.name with
  | some name => if seen.contains name then seen else seen ++ [name]
  | none => seen

end Header

inductive Node
  | rule (r : Rule)
  | group (header : Header) (children : List Node)

/-- A tree: a group that stands at the root, or is looked at on its own. The children of
a named ruleset are its stored definition, if that was found. -/
structure RuleSet extends Header where
  children : List Node := []

namespace Node

mutual

def equal : Node → Node → Bool
  | rule r, rule s => r == s
  | group h kids, group h' kids' => h == h' && equalAll kids kids'
  | _, _ => false

def equalAll : List Node → List Node → Bool
  | [], [] => true
  | n :: ns, m :: ms => equal n m && equalAll ns ms
  | _, _ => false

end

instance : BEq Node := ⟨equal⟩

def hasName : Node → Bool
  | rule _ => false
  | group h _ => h.name.isSome

mutual

/-- A rule, or a chain of single-child rulesets that ends in one. Names do not matter
here, but a negation breaks the chain. -/
def isAtomic : Node → Bool
  | rule _ => true
  | group h kids => !h.negated && isAtomicAlone kids

/-- Whether the list holds a single node, which is atomic. -/
def isAtomicAlone : List Node → Bool
  | [only] => isAtomic only
  | _ => false

end

mutual

/-- The names of the named nodes, each before those below it. -/
def names : Node → List String
  | rule _ => []
  | group h kids => h.name.toList ++ namesOfAll kids

def namesOfAll : List Node → List String
  | [] => []
  | n :: ns => n.names ++ namesOfAll ns

end

mutual

/-- The names that were seen before, and behind them those of the node that are new. -/
def collectNames (seen : List String) : Node → List String
  | rule _ => seen
  | group h kids => collectNamesOfAll (h.noteName seen) kids

def collectNamesOfAll (seen : List String) : List Node → List String
  | [] => seen
  | n :: ns => collectNamesOfAll (n.collectNames seen) ns

end

end Node

namespace RuleSet

/-- The ruleset as a child of another one. -/
def toNode (t : RuleSet) : Node := .group t.toHeader t.children

/-- An unmarked ruleset. -/
def ofChildren (condition : Condition) (children : List Node) : RuleSet where
  condition
  children

/-- The tree of a single rule. -/
def ofRule (r : Rule) : RuleSet := ofChildren .and [.rule r]

/-- Stands for a stored ruleset whose definition is not known. -/
def reference (name : String) : RuleSet where
  name := some name

def withName (name : String) (t : RuleSet) : RuleSet := { t with name := some name }

def equal (t u : RuleSet) : Bool := t.toNode == u.toNode

instance : BEq RuleSet := ⟨equal⟩

def isAtomic (t : RuleSet) : Bool := t.toNode.isAtomic

/-- The stored rulesets that the tree refers to, in the order of their first mention. -/
def references (t : RuleSet) : List String := t.toNode.collectNames []

/-- Whether some rule that stands directly in the ruleset is on `field`. -/
def hasRuleOn (t : RuleSet) (field : String) : Bool :=
  t.children.any fun
    | .rule r => r.field == field
    | .group _ _ => false

/-- Two operands joined. Unmarked operands share one ruleset as far as their conditions
allow it; an operand with a mark, or of the other condition, stays a child of its own. -/
def merge (condition : Condition) (left right : RuleSet) : RuleSet :=
  if left.isPlain && right.isPlain && left.condition == condition then
    if right.condition == condition || right.children.length == 1 then
      { left with children := left.children ++ right.children }
    else
      { left with children := left.children ++ [right.toNode] }
  else if left.isPlain && right.isPlain && condition == .or &&
      left.condition == .and && right.condition == .and &&
      left.children.length == 1 && right.children.length == 1 then
    ofChildren .or (left.children ++ right.children)
  else
    ofChildren condition [left.toNode, right.toNode]

end RuleSet

end BoolQuery
