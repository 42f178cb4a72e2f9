import BoolQuery.Numeric.Double

/-! The shortest decimal of a floating-point number: the fewest digits that read back as
the number, and of those the decimal nearest to it. On every grid of decimals only the
two neighbours of the number can win, so each grid costs two tests. -/

namespace BoolQuery.Numeric

/-- Which neighbour wins when the number lies halfway between two decimals. -/
inductive Tie
  | up
  | even
  deriving DecidableEq, Repr

namespace Double

/-- The absolute value of a finite number, in full. -/
def exactDecimal (x : Double) : Decimal :=
  if 0 ≤ x.power then ⟨x.significand * Nat.pow 2 x.power.toNat, 0⟩
  else ⟨x.significand * Nat.pow 5 (-x.power).toNat, x.power⟩

def readsBackAs (x : Double) (d : Decimal) : Bool :=
  rankOfDecimal d == x.magnitude

/-- The neighbour below and the one above when the last `dropped` digits of `d` are
given up. -/
def neighbours (d : Decimal) (dropped : Nat) : Decimal × Decimal :=
  let below := d.digits / Nat.pow 10 dropped
  (⟨below, d.exponent + dropped⟩, ⟨below + 1, d.exponent + dropped⟩)

/-- Whether `d` lies nearer to its neighbour above on the grid without the last `dropped`
digits. -/
def nearerAbove (tie : Tie) (d : Decimal) (dropped : Nat) : Bool :=
  let twice := 2 * (d.digits % Nat.pow 10 dropped)
  match compare twice (Nat.pow 10 dropped) with
  | .lt => false
  | .gt => true
  | .eq => tie == .up || d.digits / Nat.pow 10 dropped % 2 == 1

/-- The neighbour that reads back, the nearer one if both do. -/
def neighbour? (tie : Tie) (x : Double) (d : Decimal) (dropped : Nat) : Option Decimal :=
  let (below, above) := neighbours d dropped
  match x.readsBackAs below, x.readsBackAs above with
  | true, true => some (if nearerAbove tie d dropped then above else below)
  | true, false => some below
  | false, true => some above
  | false, false => none

/-- The first success on ever finer grids; at the end stands the number itself. -/
def shorten (tie : Tie) (x : Double) (d : Decimal) : Nat → Decimal
  | 0 => d
  | dropped + 1 =>
    match neighbour? tie x d (dropped + 1) with
    | some found => found
    | none => shorten tie x d dropped

/-- The shortest decimal of the absolute value of a finite number. -/
def shortest (tie : Tie) (x : Double) : Decimal :=
  if x.isZero then ⟨0, 0⟩ else shorten tie x x.exactDecimal x.exactDecimal.width

end Double

end BoolQuery.Numeric
