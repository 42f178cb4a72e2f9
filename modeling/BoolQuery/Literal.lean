import BoolQuery.Query.Token
import BoolQuery.Date.Reader
import BoolQuery.Schema

/-! From literals to values. Quotes make a literal a string; a bare word is read by the
type of its field, and stays a string where that fails. -/

namespace BoolQuery

namespace Value

/-- The value of a bare word compared with a field of type `type`. -/
def ofWord (type : FieldType) (word : String) : Value :=
  match type with
  | .number => ((Numeric.Double.read? (Text.trim word.toList)).map number).getD (string word)
  | .boolean => bool (word == "true")
  | .date => ((Date.read? word.toList).map date).getD (string word)
  | _ => string word

end Value

namespace Schema

/-- The value of a literal compared with `field`. Of an unknown field no type is known. -/
def valueOf (s : Schema) (field : String) (t : Query.Token) : Value :=
  if t.kind == .quoted then .string t.text
  else match s.field? field with
    | none => .string t.text
    | some f => .ofWord f.type t.text

end Schema

end BoolQuery
