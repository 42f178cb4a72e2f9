import BoolQuery.Logged
import BoolQuery.RuleSet.Basic

/-! Fields: the type of the values that a field is compared with, and the operators and
values that it accepts. -/

namespace BoolQuery

inductive FieldType
  | string
  | number
  | boolean
  | date
  | time
  | category
  | textarea
  | multiselect
  /-- A type that is known only to others; any value will do. -/
  | other
  deriving DecidableEq, Repr

namespace FieldType

def all : List FieldType :=
  [string, number, boolean, date, time, category, textarea, multiselect, other]

def word : FieldType → String
  | string => "string"
  | number => "number"
  | boolean => "boolean"
  | date => "date"
  | time => "time"
  | category => "category"
  | textarea => "textarea"
  | multiselect => "multiselect"
  | other => "other"

/-- The type of that name; every unknown name means `other`. -/
def ofWord (w : String) : FieldType := (all.find? (·.word == w)).getD other

theorem ofWord_word (t : FieldType) : ofWord t.word = t := by cases t <;> decide

end FieldType

/-- A value that a field offers, and the name it is offered under. -/
structure FieldOption where
  name : String
  value : Value

namespace FieldOption

/-- A value offered under its own text. -/
def ofValue (v : Value) : FieldOption := ⟨v.asString?.getD v.display, v⟩

end FieldOption

/-- What a field declares about itself. -/
structure FieldSpec where
  /-- The name for people. -/
  name : String := ""
  type : FieldType := .string
  operators : Option (List String) := none
  options : Option (List FieldOption) := none
  nullable : Bool := false
  entity : Option String := none
  defaultValue : Option Value := none

namespace FieldSpec

def operatorsOfType : FieldType → List String
  | .string => ["=", "!=", "contains", "like"]
  | .number | .time | .date => ["=", "!=", ">", ">=", "<", "<="]
  | .category => ["=", "!=", "in", "not in"]
  | .boolean => ["="]
  | .multiselect => ["in", "not in"]
  | .textarea | .other => []

/-- The declared operators, or those of the type. A nullable field can be tested for null
besides, unless it declares its operators itself. -/
def defaultOperators (f : FieldSpec) : List String :=
  f.operators.getD (operatorsOfType f.type ++ if f.nullable then nullTests else [])

def optionValues (f : FieldSpec) : List Value := (f.options.getD []).map (·.value)

end FieldSpec

/-- The part of a query that a hook looks at: a rule, and the ruleset it stands in. -/
structure Occurrence where
  rule : Rule
  enclosing : RuleSet

/-- A field with its hooks. -/
structure Field extends FieldSpec where
  /-- Finds the accepted values for one rule. `none` and the empty list mean that the
  source has nothing to say. -/
  source : Option (Occurrence → Hook (Option (List Value))) := none
  /-- Has the last word on a rule's value. -/
  validator : Option (Occurrence → Hook Bool) := none

end BoolQuery
