import BoolQuery.Json.Reader
import BoolQuery.Json.Writer
import BoolQuery.RuleSet.Basic
import BoolQuery.Wire.Value

/-! Trees in JSON, in the shape that query editors exchange. Nothing in a node says
whether it is a rule, so it is a rule if it can be read as one. -/

namespace BoolQuery
open Json (record)

/-- A member that is left out when it is absent. -/
def presentMember {α : Type} (name : String) (write : α → Json) (a : Option α) :
    List (String × Json) :=
  (a.map fun x => (name, write x)).toList

/-- A switch that is left out when it is off. -/
def switchMember (name : String) (on : Bool) : List (String × Json) :=
  if on then [(name, .bool true)] else []

namespace Condition

def ofWord? (w : String) : Option Condition :=
  if w == "and" then some .and else if w == "or" then some .or else none

def ofJson? (j : Json) : Option Condition := j.asWord?.bind ofWord?

end Condition

namespace Rule

def toJson (r : Rule) : Json :=
  record <|
    [("field", .ofString r.field), ("operator", .ofString r.operator)] ++
    presentMember "value" Value.toJson r.value ++
    presentMember "entity" Json.ofString r.entity

def ofJson? (j : Json) : Option Rule := do
  let r ← Record.ofJson? ["field", "operator", "value", "entity"] j
  some
    { field := ← r.required "field" Json.asString?
      operator := ← r.required "operator" Json.asString?
      value := ← r.nullable "value" Value.ofJson?
      entity := ← r.nullable "entity" Json.asString? }

end Rule

namespace Header

def members (h : Header) (children : List Json) : List (String × Json) :=
  [("condition", .ofString h.condition.word), ("rules", .array children)] ++
    presentMember "name" Json.ofString h.name ++
    switchMember "not" h.negated ++
    switchMember "isChild" h.parenthesized

end Header

namespace Node

mutual

def toJson : Node → Json
  | rule r => r.toJson
  | group h kids => record (h.members (toJsons kids))

def toJsons : List Node → List Json
  | [] => []
  | n :: ns => n.toJson :: toJsons ns

end

end Node

namespace RuleSet

def toJson (t : RuleSet) : Json := t.toNode.toJson

/-- Reads a ruleset whose children are read by `child`. -/
def ofJsonWith? (child : Json → Option Node) (j : Json) : Option RuleSet := do
  let r ← Record.ofJson? ["condition", "rules", "name", "not", "isChild"] j
  some
    { condition := ← r.required "condition" Condition.ofJson?
      children := ← r.required "rules" (Json.listOf? child)
      name := ← r.nullable "name" Json.asString?
      negated := ← r.optional "not" false Json.asBool?
      parenthesized := ← r.optional "isChild" false Json.asBool? }

end RuleSet

namespace Node

/-- Reads a node that is nested at most `depth` levels deep. -/
def ofJson? : (depth : Nat) → Json → Option Node
  | 0, _ => none
  | depth + 1, j =>
    ((Rule.ofJson? j).map rule).or <|
      (RuleSet.ofJsonWith? (ofJson? depth) j).map RuleSet.toNode

/-- Reads a node where `depth` levels may be nested, which all of it must respect. -/
def ofSoundJson? (depth : Nat) (j : Json) : Option Node :=
  (j.sound? depth).bind (ofJson? depth)

end Node

namespace RuleSet

/-- The tree of a document. The root and its array are two levels. -/
def ofJson? (j : Json) : Option RuleSet :=
  ofJsonWith? (Node.ofSoundJson? (Json.maxDepth - 2)) j

def toJsonText (t : RuleSet) : String := String.ofList t.toJson.text

def ofJsonText? (text : String) : Option RuleSet := (Json.read? text.toList).bind ofJson?

end RuleSet

end BoolQuery
