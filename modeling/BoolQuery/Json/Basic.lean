import BoolQuery.Numeric.Decimal
import BoolQuery.Text.Hex

/-! JSON documents. Numbers are kept as the decimals that were written, and a string may
hold half of a character, since an escape can spell one; whether a document makes sense in
its place is for its readers to say. -/

namespace BoolQuery

namespace Json

/-- One place of a string: a character, or a surrogate that is not part of a pair. -/
inductive Letter
  | char (c : Char)
  | half (codeUnit : Nat)
  deriving DecidableEq, Repr

def Letter.char? : Letter → Option Char
  | char c => some c
  | half _ => none

abbrev Letters := List Letter

namespace Letters

def ofString (s : String) : Letters := s.toList.map Letter.char

/-- The text of a string without halves. -/
def toString? (ls : Letters) : Option String := (ls.mapM Letter.char?).map String.ofList

end Letters

end Json

inductive Json
  | null
  | bool (b : Bool)
  | number (negative : Bool) (d : Numeric.Decimal)
  | string (letters : Json.Letters)
  | array (items : List Json)
  | object (members : List (Json.Letters × Json))

namespace Json

def ofString (s : String) : Json := string (Letters.ofString s)

/-- An object whose keys are plain text. -/
def record (members : List (String × Json)) : Json :=
  object (members.map fun (key, j) => (Letters.ofString key, j))

def asString? : Json → Option String
  | string ls => Letters.toString? ls
  | _ => none

def asBool? : Json → Option Bool
  | bool b => some b
  | _ => none

def isNull : Json → Bool
  | null => true
  | _ => false

end Json

end BoolQuery
