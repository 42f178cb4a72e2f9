import BoolQuery.Text.Ascii
import BoolQuery.Value

/-! Rules, the leaves of a query: a field compared with a value by an operator. -/

namespace BoolQuery

structure Rule where
  field : String
  operator : String
  /-- Absent in a null test. -/
  value : Option Value := none
  /-- The group of fields that an editor shows the rule under; no query text states it. -/
  entity : Option String := none

/-- Whether `operator` compares with a list of values. -/
def isListOperator (operator : String) : Bool :=
  operator == "in" || operator == "not in"

def nullTests : List String := ["is null", "is not null"]

/-- Whether `operator` tests for the absence of a value and so compares with none. -/
def isNullTest (operator : String) : Bool := nullTests.contains operator

namespace Rule

/-- The field of a search through the whole document. -/
def documentField : String := "document"

def nullTest (field : String) (negated : Bool) : Rule where
  field
  operator := if negated then "is not null" else "is null"

/-- The search that a literal on its own stands for. -/
def documentSearch (value : Value) : Rule where
  field := documentField
  operator := "contains"
  value := some value

def isDocumentSearch (r : Rule) : Bool :=
  r.field == documentField && Text.equalsIgnoringCase r.operator "contains"

def equal (r s : Rule) : Bool :=
  r.field == s.field && r.operator == s.operator && r.value == s.value && r.entity == s.entity

instance : BEq Rule := ⟨equal⟩

end Rule

end BoolQuery
