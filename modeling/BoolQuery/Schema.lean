import BoolQuery.Field

/-! The vocabulary that queries are read and checked against. Only the fields are needed;
a schema may also override operators, store rulesets and know entities. -/

namespace BoolQuery

structure Schema where
  field? : String → Option Field
  /-- Replaces the operators of a field; `none` leaves them as declared. -/
  override : String → Field → Option (Hook (List String)) := fun _ _ => none
  /-- Finds the definition of a stored ruleset. -/
  store : Option (String → Hook (Option RuleSet)) := none
  /-- If present, a rule may only name an entity that passes. -/
  knowsEntity : Option (String → Bool) := none
  /-- Whether an unnamed ruleset may be without children. -/
  allowsEmpty : Bool := true
  /-- Whether a value must have the type of its field. -/
  strict : Bool := false

namespace Schema

/-- Looks up a stored ruleset. A failing store counts as one that does not have it. -/
def lookup (s : Schema) (name : String) : Logged (Option RuleSet) :=
  match s.store with
  | none => pure none
  | some find => do
    match ← find name with
    | .ok found => pure found
    | .error error =>
      Logged.ofEvent (.lookupFailed name error)
      pure none

end Schema

end BoolQuery
