import BoolQuery.Numeric.Shortest

/-! How numbers are laid out as text. A query and a plain display write every place of a
number and no exponent; JSON marks a number as fractional and writes very large and very
small ones with an exponent. -/

namespace BoolQuery.Numeric

namespace Decimal

/-- All places of a decimal. A whole number is followed by `wholeEnd`. -/
def positional (wholeEnd : List Char) (d : Decimal) : List Char :=
  let ds := Text.digits d.digits
  let zeros (n : Int) := List.replicate n.toNat '0'
  if d.point ≤ 0 then '0' :: '.' :: (zeros (-d.point) ++ ds)
  else if 0 ≤ d.exponent then ds ++ zeros d.exponent ++ wholeEnd
  else ds.take d.point.toNat ++ '.' :: ds.drop d.point.toNat

/-- One digit before the point and a power of ten, whose sign is always written. -/
def scientific (d : Decimal) : List Char :=
  let power := d.point - 1
  let significand := match Text.digits d.digits with
    | first :: second :: rest => first :: '.' :: second :: rest
    | ds => ds
  significand ++ 'e' :: (if power < 0 then '-' else '+') :: Text.digits power.natAbs

/-- Decimal notation from `1e-5` up to below `1e16`, an exponent outside. -/
def fractional (d : Decimal) : List Char :=
  if d.digits = 0 || (-5 < d.point && d.point ≤ 16) then
    d.positional ['.', '0']
  else d.scientific

end Decimal

def signText (negative : Bool) : List Char := if negative then ['-'] else []

namespace Double

/-- A finite number in all its places. -/
def placesText (x : Double) : List Char :=
  signText x.negative ++ (x.shortest .up).positional []

/-- The text of a number on its own; the sign of zero is kept. -/
def displayText (x : Double) : List Char :=
  if x.isNaN then "NaN".toList
  else if x.isFinite then x.placesText
  else signText x.negative ++ "inf".toList

/-- The text of a number in a query. What is not a finite number has none there and is
written `null`. -/
def queryText (x : Double) : List Char :=
  if !x.isFinite then "null".toList
  else if x.isZero then ['0']
  else x.placesText

end Double

end BoolQuery.Numeric
