import BoolQuery.Json.Basic
import BoolQuery.Numeric.Double

/-! Reading records from JSON. A record is an object, or an array of its members in a
fixed order that may end early. Members that a record does not know are skipped without a
look at them; what is looked at must be sound, that is, free of numbers beyond all bounds,
of halves of characters, and of too deep nesting. -/

namespace BoolQuery

namespace Json

/-- How deep arrays and objects may be nested. -/
def maxDepth : Nat := 127

mutual

/-- Whether a document is sound where `depth` more levels may be nested. -/
def isSound (depth : Nat) : Json → Bool
  | null => true
  | bool _ => true
  | number negative d => (Numeric.Double.ofDecimal negative d).isFinite
  | string ls => (Letters.toString? ls).isSome
  | array items => depth != 0 && areSound (depth - 1) items
  | object members => depth != 0 && areSoundMembers (depth - 1) members

def areSound (depth : Nat) : List Json → Bool
  | [] => true
  | j :: js => isSound depth j && areSound depth js

def areSoundMembers (depth : Nat) : List (Letters × Json) → Bool
  | [] => true
  | (key, j) :: members =>
    (Letters.toString? key).isSome && isSound depth j && areSoundMembers depth members

end

/-- A document that is read in full, if it is sound. -/
def sound? (depth : Nat) (j : Json) : Option Json := if j.isSound depth then some j else none

/-- The items of an array, each read by `item`. -/
def listOf? {α : Type} (item : Json → Option α) : Json → Option (List α)
  | array items => items.mapM item
  | _ => none

/-- The members of an object that serves as a dictionary. -/
def entries? : Json → Option (List (String × Json))
  | object members => members.mapM fun (key, j) => (Letters.toString? key).map (·, j)
  | _ => none

/-- A word out of a fixed set, written as a string or as the only key of an object. -/
def asWord? : Json → Option String
  | string ls => Letters.toString? ls
  | object [(key, null)] => Letters.toString? key
  | _ => none

end Json

/-- The members of a record that were given. -/
abbrev Record := List (String × Json)

namespace Record

/-- Reads a record with these members, of which none may be given twice. -/
def ofJson? (names : List String) : Json → Option Record
  | .object members => do
    let entries ← (Json.object members).entries?
    let known := entries.filter fun entry => names.contains entry.1
    if (known.map (·.1)).Nodup then some known else none
  | .array items => if items.length ≤ names.length then some (names.zip items) else none
  | _ => none

variable {α : Type}

def get? (r : Record) (name : String) : Option Json := r.lookup name

def required (r : Record) (name : String) (read : Json → Option α) : Option α :=
  (r.get? name).bind read

/-- A member that stands for `default` when it is not given. -/
def optional (r : Record) (name : String) (default : α) (read : Json → Option α) : Option α :=
  match r.get? name with
  | none => some default
  | some j => read j

/-- A member that may be missing; `null` says so too. -/
def nullable (r : Record) (name : String) (read : Json → Option α) : Option (Option α) :=
  match r.get? name with
  | none => some none
  | some j => if j.isNull then some none else (read j).map some

end Record

end BoolQuery
