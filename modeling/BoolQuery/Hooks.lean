import BoolQuery.Config

/-! Hooks that are described by data: with a fixed answer, or with one that depends on a
single property of what they are asked about. The hooks of fields report each call. -/

namespace BoolQuery

namespace Occurrence

/-- What a hook of this name reports about its call. -/
def details (name : String) (o : Occurrence) : List (String × String) :=
  [("name", name), ("rules", toString o.enclosing.children.length)]

end Occurrence

/-- Overrides the operators of fields. -/
inductive OperatorHook
  | byType
  | always (operators : List String)
  /-- Refuses for every field that is not in the table. -/
  | byField (lists : Table (List String)) (message : String)
  | refusing (message : String)

namespace OperatorHook

def run (h : OperatorHook) (name : String) (f : Field) : Hook (List String) :=
  match h with
  | byType => .answer f.defaultOperators
  | always operators => .answer operators
  | byField lists message =>
    match lists.get? name with
    | some operators => .answer operators
    | none => .refuse message
  | refusing message => .refuse message

end OperatorHook

/-- Stores rulesets. -/
inductive StoreHook
  | of (definitions : Table RuleSet)
  /-- The same, with a report of each lookup. -/
  | reporting (definitions : Table RuleSet)
  | refusing (message : String)

namespace StoreHook

def run (h : StoreHook) (name : String) : Hook (Option RuleSet) :=
  match h with
  | of definitions => Config.storeOf definitions name
  | reporting definitions =>
    (Config.storeOf definitions name).announced "resolver called" [("name", name)]
  | refusing message => .refuse message

end StoreHook

inductive SourceAnswer
  | values (vs : List Value)
  | nothing
  /-- The values if the enclosing ruleset has a rule on `field`. -/
  | ifBeside (field : String) (vs : List Value)
  | refusal (message : String)

/-- Finds the values that a field accepts. -/
structure SourceHook where
  name : String := "source"
  answer : SourceAnswer

namespace SourceAnswer

def toHook (a : SourceAnswer) (o : Occurrence) : Hook (Option (List Value)) :=
  match a with
  | values vs => .answer (some vs)
  | nothing => .answer none
  | ifBeside field vs => .answer (if o.enclosing.hasRuleOn field then some vs else none)
  | refusal message => .refuse message

end SourceAnswer

namespace SourceHook

def run (h : SourceHook) (o : Occurrence) : Hook (Option (List Value)) :=
  (h.answer.toHook o).announced "source called" (o.details h.name)

end SourceHook

inductive ValidatorTest
  | always (ok : Bool)
  | valueIsNot (v : Option Value)
  | operatorIs (operator : String)
  | enclosedBy (condition : Condition) (negated : Bool)
  | beside (field : String)
  | refusal (message : String)

/-- Has the last word on a rule. -/
structure ValidatorHook where
  name : String := "validator"
  test : ValidatorTest

namespace ValidatorTest

def toHook (t : ValidatorTest) (o : Occurrence) : Hook Bool :=
  match t with
  | always ok => .answer ok
  | valueIsNot v => .answer (o.rule.value != v)
  | operatorIs operator => .answer (o.rule.operator == operator)
  | enclosedBy condition negated =>
    .answer (o.enclosing.condition == condition && o.enclosing.negated == negated)
  | beside field => .answer (o.enclosing.hasRuleOn field)
  | refusal message => .refuse message

end ValidatorTest

namespace ValidatorHook

def run (h : ValidatorHook) (o : Occurrence) : Hook Bool :=
  (h.test.toHook o).announced "validator called" (o.details h.name)

end ValidatorHook

end BoolQuery
