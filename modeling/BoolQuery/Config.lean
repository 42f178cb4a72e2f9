import BoolQuery.Schema
import BoolQuery.Table

/-! Configurations: schemas put together from tables, switches and hooks. -/

namespace BoolQuery

/-- A group of fields in a query editor. -/
structure Entity where
  name : String
  defaultField : Option String := none

structure Config where
  fields : Table Field := []
  /-- Without a table any entity will do. -/
  entities : Option (Table Entity) := none
  allowsEmpty : Bool := true
  strict : Bool := false
  /-- Replaces the operators of every field. -/
  override : Option (String → Field → Hook (List String)) := none
  store : Option (String → Hook (Option RuleSet)) := none

namespace Config

def toSchema (c : Config) : Schema where
  field? := c.fields.get?
  override name f := c.override.map fun hook => hook name f
  store := c.store
  knowsEntity := c.entities.map fun table name => (table.get? name).isSome
  allowsEmpty := c.allowsEmpty
  strict := c.strict

def withField (c : Config) (name : String) (f : Field) : Config :=
  { c with fields := c.fields.put name f }

/-- Declares an entity; from the first one on, entities are checked. -/
def withEntity (c : Config) (name : String) (e : Entity) : Config :=
  { c with entities := some ((c.entities.getD []).put name e) }

/-- The store that has these definitions and no others. -/
def storeOf (definitions : Table RuleSet) : String → Hook (Option RuleSet) :=
  fun name => .answer (definitions.get? name)

end Config

end BoolQuery
