import BoolQuery.Config
import BoolQuery.Wire.Field

/-! Configurations in JSON. Hooks have no text, so a configuration that was read has
none. -/

namespace BoolQuery

/-- A dictionary whose entries are read by `read`. -/
def Json.tableOf? {α : Type} (read : Json → Option α) (j : Json) : Option (Table α) := do
  let entries ← j.entries?
  some (Table.ofEntries (← entries.mapM fun (name, v) => (read v).map (name, ·)))

namespace Entity

def ofJson? (j : Json) : Option Entity := do
  let r ← Record.ofJson? ["name", "defaultField"] j
  some
    { name := ← r.required "name" Json.asString?
      defaultField := ← r.nullable "defaultField" Json.asString? }

end Entity

namespace Config

/-- A field without hooks. -/
def plainField? (depth : Nat) (j : Json) : Option Field :=
  (FieldSpec.ofJson? depth j).map fun spec => { toFieldSpec := spec }

/-- Reads a configuration. Its fields stand two levels down. -/
def ofJson? (j : Json) : Option Config := do
  let r ← Record.ofJson? ["fields", "entities", "allowEmptyRulesets", "strictValues"] j
  some
    { fields := ← r.required "fields" (Json.tableOf? (plainField? (Json.maxDepth - 2)))
      entities := ← r.nullable "entities" (Json.tableOf? Entity.ofJson?)
      allowsEmpty := ← r.optional "allowEmptyRulesets" true Json.asBool?
      strict := ← r.optional "strictValues" false Json.asBool? }

def ofJsonText? (text : String) : Option Config := (Json.read? text.toList).bind ofJson?

end Config

end BoolQuery
