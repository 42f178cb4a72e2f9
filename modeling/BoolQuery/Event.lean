import BoolQuery.Query.ParseError

/-! What is reported while a query is read and checked. Of all events only a rejection
says that the query was refused; the others tell of hooks that failed and what was done. -/

namespace BoolQuery

/-- Why a query is not valid. -/
inductive Rejection
  | notParsed (error : Query.ParseError)
  | trailingInput (consumed total : Nat)
  | unresolvedName (name : String)
  | emptyRuleSet
  | unknownField (field : String)
  | operatorNotAllowed (field operator : String)
  | nullTestWithValue (field operator : String)
  | missingValue (field operator : String)
  | listNeeded (field : String)
  | valueNotAllowed (field : String)
  | validatorRefused (field : String)
  | validatorFailed (field error : String)
  | unknownEntity (entity : String)
  | typeMismatch (field : String)
  deriving DecidableEq, Repr

namespace Rejection

def message : Rejection → String
  | notParsed _ => "bql does not parse"
  | trailingInput _ _ => "bql has trailing input"
  | unresolvedName _ => "named ruleset does not resolve"
  | emptyRuleSet => "empty ruleset"
  | unknownField _ => "unknown field"
  | operatorNotAllowed _ _ => "operator not allowed"
  | nullTestWithValue _ _ => "null test carries a value"
  | missingValue _ _ => "missing value"
  | listNeeded _ => "IN operator needs a non-empty list"
  | valueNotAllowed _ => "value outside allowed values"
  | validatorRefused _ => "rejected by field validator"
  | validatorFailed _ _ => "field validator failed"
  | unknownEntity _ => "unknown entity"
  | typeMismatch _ => "value does not match field type"

def details : Rejection → List (String × String)
  | notParsed error => [("error", error.message)]
  | trailingInput consumed total => [("consumed", toString consumed), ("total", toString total)]
  | unresolvedName name => [("name", name)]
  | emptyRuleSet => []
  | unknownField field => [("field", field)]
  | operatorNotAllowed field operator => [("field", field), ("operator", operator)]
  | nullTestWithValue field operator => [("field", field), ("operator", operator)]
  | missingValue field operator => [("field", field), ("operator", operator)]
  | listNeeded field => [("field", field)]
  | valueNotAllowed field => [("field", field)]
  | validatorRefused field => [("field", field)]
  | validatorFailed field error => [("field", field), ("error", error)]
  | unknownEntity entity => [("entity", entity)]
  | typeMismatch field => [("field", field)]

end Rejection

inductive Event
  | tokenized (count : Nat)
  | lookupFailed (name error : String)
  | overrideFailed (field error : String)
  | sourceFailed (field error : String)
  | rejected (reason : Rejection)
  /-- Whatever a hook reports about itself. -/
  | report (message : String) (details : List (String × String))
  deriving DecidableEq, Repr

namespace Event

def message : Event → String
  | tokenized _ => "tokenized bql input"
  | lookupFailed _ _ => "named ruleset lookup failed"
  | overrideFailed _ _ => "operator override failed"
  | sourceFailed _ _ => "category source failed"
  | rejected reason => reason.message
  | report message _ => message

/-- The particulars of an event, each with its label. -/
def details : Event → List (String × String)
  | tokenized count => [("count", toString count)]
  | lookupFailed name error => [("name", name), ("error", error)]
  | overrideFailed field error => [("field", field), ("error", error)]
  | sourceFailed field error => [("field", field), ("error", error)]
  | rejected reason => reason.details
  | report _ details => details

end Event

end BoolQuery
