import BoolQuery.Date.Basic
import BoolQuery.Numeric.Layout

/-! The typed values of rules. Numbers are compared as numbers, so a list that holds a NaN
does not equal itself. -/

namespace BoolQuery

inductive Value
  | bool (b : Bool)
  | number (x : Numeric.Double)
  | string (s : String)
  | date (d : Date)
  /-- The values of an `in` or `not in` rule. -/
  | list (items : List Value)

namespace Value

mutual

def equal : Value → Value → Bool
  | bool b, bool c => b == c
  | number x, number y => x == y
  | string s, string t => s == t
  | date d, date e => d == e
  | list xs, list ys => equalAll xs ys
  | _, _ => false

def equalAll : List Value → List Value → Bool
  | [], [] => true
  | x :: xs, y :: ys => equal x y && equalAll xs ys
  | _, _ => false

end

instance : BEq Value := ⟨equal⟩

def asString? : Value → Option String
  | string s => some s
  | _ => none

def asList? : Value → Option (List Value)
  | list items => some items
  | _ => none

def boolText (b : Bool) : List Char := (if b then "true" else "false").toList

mutual

/-- The display of a value, for people: strings are quoted but nothing in them is
escaped. -/
def displayText : Value → List Char
  | bool b => boolText b
  | number x => x.displayText
  | string s => '"' :: (s.toList ++ ['"'])
  | date d => d.text
  | list items => '(' :: ([','].intercalate (displayTexts items) ++ [')'])

def displayTexts : List Value → List (List Char)
  | [] => []
  | v :: vs => v.displayText :: displayTexts vs

end

def display (v : Value) : String := String.ofList v.displayText

end Value

end BoolQuery
