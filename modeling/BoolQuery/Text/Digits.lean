/-! Decimal digits: the text of a natural number, and the run of digits at the start of
a text. -/

namespace BoolQuery.Text

def digits (n : Nat) : List Char := Nat.toDigits 10 n

/-- The number that a run of digits denotes; leading zeros are allowed. -/
def ofDigits (ds : List Char) : Nat := Nat.ofDigitChars 10 ds 0

/-- The longest run of ASCII digits at the start, and what follows it. -/
def spanDigits (cs : List Char) : List Char × List Char :=
  (cs.takeWhile Char.isDigit, cs.dropWhile Char.isDigit)

/-- `n` in at least `width` digits, filled with zeros on the left. -/
def padded (width n : Nat) : List Char :=
  List.replicate (width - (digits n).length) '0' ++ digits n

@[simp] theorem ofDigits_digits (n : Nat) : ofDigits (digits n) = n :=
  Nat.ofDigitChars_toDigits (by decide) (by decide)

end BoolQuery.Text
