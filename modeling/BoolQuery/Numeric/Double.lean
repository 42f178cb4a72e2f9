import BoolQuery.Numeric.Decimal

/-! Binary floating-point numbers of 64 bits, as data: a sign and the 63 bits below it.
Below infinity the bits count the numbers in order, so they serve as the number's rank,
and rounding a decimal is a computation on natural numbers. -/

namespace BoolQuery.Numeric

/-- How many numbers share an exponent. -/
def binade : Nat := Nat.pow 2 52

/-- The weight of the sign bit. -/
def signWeight : Nat := Nat.pow 2 63

/-- A number with 53 significant bits, an infinity or a NaN. -/
structure Double where
  negative : Bool
  /-- The exponent field above the 52 bits of the significand. -/
  magnitude : Nat
  magnitude_lt : magnitude < signWeight := by decide
  deriving DecidableEq, Repr

namespace Double

/-- The rank of infinity; every larger one is a NaN. -/
def infiniteRank : Nat := 2047 * binade

def isFinite (x : Double) : Bool := x.magnitude < infiniteRank

def isNaN (x : Double) : Bool := infiniteRank < x.magnitude

def isZero (x : Double) : Bool := x.magnitude == 0

def ofBits (bits : UInt64) : Double where
  negative := signWeight ≤ bits.toNat
  magnitude := bits.toNat % signWeight
  magnitude_lt := Nat.mod_lt _ (by decide)

def toBits (x : Double) : UInt64 :=
  UInt64.ofNat ((if x.negative then signWeight else 0) + x.magnitude)

/-- Numerical equality: a NaN equals nothing, and the two zeros are equal. -/
def equal (x y : Double) : Bool :=
  !x.isNaN && !y.isNaN && x.magnitude == y.magnitude &&
    (x.negative == y.negative || x.isZero)

instance : BEq Double := ⟨equal⟩

/-- The absolute value of a finite number as `significand * 2 ^ power`. -/
def significand (x : Double) : Nat :=
  if x.magnitude / binade = 0 then x.magnitude else binade + x.magnitude % binade

/-- The power of two that the significand is multiplied by. -/
def power (x : Double) : Int :=
  if x.magnitude / binade = 0 then -1074 else (x.magnitude / binade : Nat) - 1075

/-- `num / den` rounded to the nearest natural number, a half to the even one. -/
def roundHalfEven (num den : Nat) : Nat :=
  let whole := num / den
  let twice := 2 * (num % den)
  if twice < den || (twice == den && whole % 2 == 0) then whole else whole + 1

/-- The greatest power of two that is not above `num / den`, both being positive. -/
def floorLog2 (num den : Nat) : Int :=
  let guess : Int := (Nat.log2 num : Int) - Nat.log2 den
  if num * Nat.pow 2 (-guess).toNat < den * Nat.pow 2 guess.toNat then guess - 1 else guess

/-- The rank of the number nearest to the positive fraction `num / den`. A significand
that rounds up to `2 ^ 53` carries into the exponent by itself. -/
def rankOfRatio (num den : Nat) : Nat :=
  let q := max (floorLog2 num den - 52) (-1074)
  let m := roundHalfEven (num * Nat.pow 2 (-q).toNat) (den * Nat.pow 2 q.toNat)
  min ((q + 1074).toNat * binade + m) infiniteRank

/-- The rank of the number nearest to a decimal. A decimal far outside the range is
settled by its size, so its power of ten is never computed. -/
def rankOfDecimal (d : Decimal) : Nat :=
  if d.digits = 0 then 0
  else if 310 < d.point then infiniteRank
  else if d.point < -330 then 0
  else rankOfRatio (d.digits * Nat.pow 10 d.exponent.toNat) (Nat.pow 10 (-d.exponent).toNat)

theorem rankOfDecimal_le (d : Decimal) : rankOfDecimal d ≤ infiniteRank := by
  unfold rankOfDecimal rankOfRatio
  repeat' split
  all_goals first | exact Nat.min_le_right _ _ | decide

/-- The number nearest to a decimal with a sign, a tie going to the even significand. -/
def ofDecimal (negative : Bool) (d : Decimal) : Double where
  negative
  magnitude := rankOfDecimal d
  magnitude_lt := Nat.lt_of_le_of_lt (rankOfDecimal_le d) (by decide)

/-- Reads a whole text as a finite number. -/
def read? (cs : List Char) : Option Double :=
  let (negative, rest) := Decimal.splitSign cs
  ((Decimal.read? rest).map (ofDecimal negative)).filter isFinite

theorem isFinite_of_read? {cs : List Char} {x : Double} (h : read? cs = some x) :
    x.isFinite = true := by
  simp only [read?, Option.filter_eq_some_iff] at h
  exact h.2

end Double

end BoolQuery.Numeric
