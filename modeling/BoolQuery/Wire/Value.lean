import BoolQuery.Numeric.Shortest
import BoolQuery.Value
import BoolQuery.Wire.Record

/-! Values in JSON. A date is written as its text, so it is read back as a string. -/

namespace BoolQuery

namespace Numeric.Double

/-- A number by its shortest decimal. JSON has no word for infinities and NaNs. -/
def toJson (x : Double) : Json :=
  if x.isFinite then .number x.negative (x.shortest .even) else .null

end Numeric.Double

namespace Value

mutual

def toJson : Value → Json
  | bool b => .bool b
  | number x => x.toJson
  | string s => .ofString s
  | date d => .string (d.text.map Json.Letter.char)
  | list items => .array (toJsons items)

def toJsons : List Value → List Json
  | [] => []
  | v :: vs => v.toJson :: toJsons vs

end

mutual

def ofJson? : Json → Option Value
  | .null => none
  | .bool b => some (bool b)
  | .number negative d => some (number (Numeric.Double.ofDecimal negative d))
  | .string ls => (Json.Letters.toString? ls).map string
  | .array items => (ofJsons? items).map list
  | .object _ => none

def ofJsons? : List Json → Option (List Value)
  | [] => some []
  | j :: js => do
    let v ← ofJson? j
    let vs ← ofJsons? js
    some (v :: vs)

end

end Value

end BoolQuery
