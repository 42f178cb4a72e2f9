import BoolQuery.Query.Tree
import BoolQuery.Check

/-! Checking trees and texts against a schema. A tree is valid if all its names resolve
and each rule fits its field; the check goes through the tree from top to bottom and stops
at the first fault. -/

namespace BoolQuery

namespace Value

/-- `HH:MM` or `HH:MM:SS`. -/
def isTime (s : String) : Bool :=
  let parts := s.toList.splitOn ':'
  (parts.length == 2 || parts.length == 3) &&
    parts.all fun p => p.length == 2 && p.all Char.isDigit

/-- Whether a single value has the type of a field. -/
def hasType (type : FieldType) (v : Value) : Bool :=
  match type, v with
  | .string, string _ | .textarea, string _ => true
  | .number, number x => x.isFinite
  | .boolean, bool _ => true
  | .date, date _ => true
  | .time, string s => isTime s
  | .multiselect, list _ => true
  | .category, _ | .other, _ => true
  | _, _ => false

/-- Whether what a rule compares with has the type of its field; in a list every value
must have it. -/
def fits (type : FieldType) (listed : Bool) (v : Value) : Bool :=
  if listed then
    match v with
    | list items => items.all (hasType type)
    | _ => false
  else hasType type v

/-- Whether what a rule compares with is among the accepted values. -/
def within (accepted : List Value) (listed : Bool) (v : Value) : Bool :=
  match v, listed with
  | list items, true => items.all accepted.contains
  | v, false => accepted.contains v
  | _, true => false

end Value

namespace Schema

/-- The operators that a field accepts here. A failing override is ignored. -/
def operatorsFor (s : Schema) (name : String) (f : Field) : Logged (List String) :=
  let declared := f.operators.getD []
  match s.override name f with
  | none => pure declared
  | some answer => do
    match ← answer with
    | .ok operators => pure operators
    | .error error =>
      Logged.ofEvent (.overrideFailed name error)
      pure declared

/-- The values that a field accepts for one rule: those its source finds, if it finds any,
else the offered ones. No values at all mean that any value will do. -/
def acceptedFor (f : Field) (o : Occurrence) : Logged (List Value) :=
  match f.source with
  | none => pure f.optionValues
  | some find => do
    match ← find o with
    | .ok found =>
      let values := found.getD []
      pure (if values.isEmpty then f.optionValues else values)
    | .error error =>
      Logged.ofEvent (.sourceFailed o.rule.field error)
      pure f.optionValues

def checkOperator (s : Schema) (f : Field) (r : Rule) : Check := do
  let operators ← s.operatorsFor r.field f
  Check.require (operators.isEmpty || operators.contains r.operator)
    (.operatorNotAllowed r.field r.operator)

/-- A null test has no value, and every other operator has one. -/
def checkPresence (r : Rule) : Check :=
  if isNullTest r.operator then
    Check.require r.value.isNone (.nullTestWithValue r.field r.operator)
  else Check.require r.value.isSome (.missingValue r.field r.operator)

def checkList (r : Rule) : Check :=
  let holdsList := (r.value.bind Value.asList?).any fun items => !items.isEmpty
  Check.require (!isListOperator r.operator || holdsList) (.listNeeded r.field)

def checkAccepted (f : Field) (o : Occurrence) : Check := do
  let accepted ← acceptedFor f o
  let listed := isListOperator o.rule.operator
  Check.require (accepted.isEmpty || o.rule.value.all (Value.within accepted listed))
    (.valueNotAllowed o.rule.field)

def checkValidator (f : Field) (o : Occurrence) : Check :=
  match f.validator with
  | none => Check.accept
  | some validate => do
    match ← validate o with
    | .ok true => Check.accept
    | .ok false => Check.reject (.validatorRefused o.rule.field)
    | .error error => Check.reject (.validatorFailed o.rule.field error)

def checkEntity (s : Schema) (r : Rule) : Check :=
  match s.knowsEntity, r.entity with
  | some knows, some entity => Check.require (knows entity) (.unknownEntity entity)
  | _, _ => Check.accept

def checkType (s : Schema) (f : Field) (r : Rule) : Check :=
  let fits := r.value.all (Value.fits f.type (isListOperator r.operator))
  Check.require (!s.strict || fits) (.typeMismatch r.field)

/-- All demands on a rule, in the order in which they are made. -/
def checkRule (s : Schema) (o : Occurrence) : Check :=
  let r := o.rule
  match s.field? r.field with
  | none => Check.reject (.unknownField r.field)
  | some f =>
    (s.checkOperator f r).thenCheck fun _ =>
    (checkPresence r).thenCheck fun _ =>
    (checkList r).thenCheck fun _ =>
    (checkAccepted f o).thenCheck fun _ =>
    (checkValidator f o).thenCheck fun _ =>
    (s.checkEntity r).thenCheck fun _ =>
    s.checkType f r

/-- A named ruleset has to be stored, and an unnamed one may have to have children. -/
def checkHeader (s : Schema) (h : Header) (childless : Bool) : Check :=
  match h.name with
  | some name => do
    let found ← s.lookup name
    Check.require found.isSome (.unresolvedName name)
  | none => Check.require (s.allowsEmpty || !childless) .emptyRuleSet

mutual

/-- Checks a node that stands in the ruleset `enclosing`. -/
def checkNode (s : Schema) (enclosing : RuleSet) : Node → Check
  | .rule r => s.checkRule ⟨r, enclosing⟩
  | .group h kids =>
    (s.checkHeader h kids.isEmpty).thenCheck fun _ => s.checkNodes ⟨h, kids⟩ kids

def checkNodes (s : Schema) (enclosing : RuleSet) : List Node → Check
  | [] => Check.accept
  | n :: ns => (s.checkNode enclosing n).thenCheck fun _ => s.checkNodes enclosing ns

end

def checkRuleSet (s : Schema) (t : RuleSet) : Check :=
  (s.checkHeader t.toHeader t.children.isEmpty).thenCheck fun _ => s.checkNodes t t.children

/-- A text has to be a query from its start to its end, and the query valid. -/
def checkText (s : Schema) (text : String) : Check := do
  match ← Query.parse s text with
  | .error error => Check.reject (.notParsed error)
  | .ok parsed =>
    if parsed.isComplete then s.checkRuleSet parsed.tree
    else Check.reject (.trailingInput parsed.consumed parsed.total)

/-- Whether a tree is valid, with what was reported on the way. -/
def validateRuleSet (s : Schema) (t : RuleSet) : Logged Bool := (s.checkRuleSet t).verdict

/-- Whether a text is a valid query, with what was reported on the way. -/
def validateText (s : Schema) (text : String) : Logged Bool := (s.checkText text).verdict

end Schema

end BoolQuery
