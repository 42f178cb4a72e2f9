import BoolQuery.Text.Digits

/-! Unsigned decimals and their plain notation: digits with an optional point and an
optional power of ten. Reading keeps every digit, so nothing is rounded here. -/

namespace BoolQuery.Numeric
open BoolQuery.Text

/-- The number `digits * 10 ^ exponent`. -/
structure Decimal where
  digits : Nat
  exponent : Int
  deriving DecidableEq, Repr

namespace Decimal

/-- How many digits are written for `d`; one for zero. -/
def width (d : Decimal) : Nat := (Text.digits d.digits).length

/-- How many places before the point the first digit of `d` stands, so that `d` is below
`10 ^ point`. -/
def point (d : Decimal) : Int := d.exponent + d.width

/-- An optional sign and what follows it; `true` is a minus. -/
def splitSign : List Char → Bool × List Char
  | '-' :: cs => (true, cs)
  | '+' :: cs => (false, cs)
  | cs => (false, cs)

def signed (negative : Bool) (n : Nat) : Int := if negative then -(n : Int) else n

/-- The power of ten behind a number, and what follows it: an `e` with a signed number,
or nothing, which stands for zero. -/
def spanExponent? : List Char → Option (Int × List Char)
  | [] => some (0, [])
  | c :: cs =>
    if c == 'e' || c == 'E' then
      let (negative, afterSign) := splitSign cs
      let (ds, rest) := spanDigits afterSign
      if ds.isEmpty then none else some (signed negative (ofDigits ds), rest)
    else some (0, c :: cs)

/-- The decimal with these digits before and after the point, times a power of ten. -/
def ofParts (whole fraction : List Char) (power : Int) : Decimal :=
  ⟨ofDigits (whole ++ fraction), power - fraction.length⟩

/-- The digits after a point, if the text goes on with one. -/
def spanFraction : List Char → List Char × List Char
  | '.' :: cs => spanDigits cs
  | cs => ([], cs)

/-- Reads a whole text as an unsigned decimal. At least one digit stands on one side of
the point. -/
def read? (cs : List Char) : Option Decimal :=
  let (whole, afterWhole) := spanDigits cs
  let (fraction, afterFraction) := spanFraction afterWhole
  if whole.isEmpty && fraction.isEmpty then none
  else
    match spanExponent? afterFraction with
    | some (power, []) => some (ofParts whole fraction power)
    | _ => none

end Decimal

end BoolQuery.Numeric
