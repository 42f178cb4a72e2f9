import BoolQuery.Field
import BoolQuery.Wire.RuleSet

/-! What fields declare, in JSON. -/

namespace BoolQuery

namespace FieldType

def toJson (t : FieldType) : Json := .ofString t.word

def ofJson? (j : Json) : Option FieldType := j.asWord?.map ofWord

end FieldType

namespace FieldOption

def toJson (o : FieldOption) : Json :=
  Json.record [("name", .ofString o.name), ("value", o.value.toJson)]

/-- Reads an option whose value may have `depth` levels. -/
def ofJson? (depth : Nat) (j : Json) : Option FieldOption := do
  let r ← Record.ofJson? ["name", "value"] j
  some
    { name := ← r.required "name" Json.asString?
      value := ← r.required "value" fun v => (v.sound? depth).bind Value.ofJson? }

end FieldOption

namespace FieldSpec

def toJson (f : FieldSpec) : Json :=
  Json.record <|
    [("name", .ofString f.name), ("type", f.type.toJson)] ++
    presentMember "operators" (fun ops => .array (ops.map Json.ofString)) f.operators ++
    presentMember "options" (fun os => .array (os.map FieldOption.toJson)) f.options ++
    [("nullable", .bool f.nullable)] ++
    presentMember "entity" Json.ofString f.entity ++
    presentMember "defaultValue" Value.toJson f.defaultValue

/-- Reads a field that may itself have `depth` levels. The values of its options stand
three levels down. -/
def ofJson? (depth : Nat) (j : Json) : Option FieldSpec := do
  let r ← Record.ofJson?
    ["name", "type", "operators", "options", "nullable", "entity", "defaultValue"] j
  some
    { name := ← r.optional "name" "" Json.asString?
      type := ← r.optional "type" .string FieldType.ofJson?
      operators := ← r.nullable "operators" (Json.listOf? Json.asString?)
      options := ← r.nullable "options" (Json.listOf? (FieldOption.ofJson? (depth - 3)))
      nullable := ← r.optional "nullable" false Json.asBool?
      entity := ← r.nullable "entity" Json.asString?
      defaultValue := ← r.nullable "defaultValue" fun v =>
        (v.sound? (depth - 1)).bind Value.ofJson? }

def toJsonText (f : FieldSpec) : String := String.ofList f.toJson.text

def ofJsonText? (text : String) : Option FieldSpec :=
  (Json.read? text.toList).bind (ofJson? Json.maxDepth)

end FieldSpec

end BoolQuery
