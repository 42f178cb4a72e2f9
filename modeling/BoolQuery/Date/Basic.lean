import BoolQuery.Text.Digits

/-! Days of the proleptic Gregorian calendar and their written form. A date is a real
calendar day by construction, within a fixed range of years around year zero. -/

namespace BoolQuery

namespace Calendar

def isLeapYear (year : Int) : Bool :=
  year % 4 == 0 && (year % 100 != 0 || year % 400 == 0)

/-- Zero for a number that is no month, so that no day belongs to it. -/
def daysInMonth (year : Int) (month : Nat) : Nat :=
  match month with
  | 1 | 3 | 5 | 7 | 8 | 10 | 12 => 31
  | 4 | 6 | 9 | 11 => 30
  | 2 => if isLeapYear year then 29 else 28
  | _ => 0

def firstYear : Int := -262143

def lastYear : Int := 262142

/-- Whether the three numbers name a day that a `Date` can hold. -/
def IsDay (year : Int) (month day : Nat) : Prop :=
  firstYear ≤ year ∧ year ≤ lastYear ∧ 1 ≤ day ∧ day ≤ daysInMonth year month

instance (year : Int) (month day : Nat) : Decidable (IsDay year month day) := by
  unfold IsDay; infer_instance

end Calendar

structure Date where
  year : Int
  month : Nat
  day : Nat
  isDay : Calendar.IsDay year month day
  deriving DecidableEq, Repr

namespace Date
open Text

def ofNumbers? (year : Int) (month day : Nat) : Option Date :=
  if h : Calendar.IsDay year month day then some ⟨year, month, day, h⟩ else none

/-- A year of up to four digits is filled to four; every other year has a sign, without
which a reader could not tell where it ends. -/
def yearText (year : Int) : List Char :=
  if 0 ≤ year && year ≤ 9999 then padded 4 year.natAbs
  else (if year < 0 then '-' else '+') :: padded 4 year.natAbs

def text (d : Date) : List Char :=
  yearText d.year ++ '-' :: (padded 2 d.month ++ '-' :: padded 2 d.day)

theorem ofNumbers?_self (d : Date) : ofNumbers? d.year d.month d.day = some d := by
  simp [ofNumbers?, d.isDay]

theorem month_le (d : Date) : 1 ≤ d.month ∧ d.month ≤ 12 := by
  obtain ⟨_, _, h₁, h₂⟩ := d.isDay
  have h : 1 ≤ Calendar.daysInMonth d.year d.month := Nat.le_trans h₁ h₂
  unfold Calendar.daysInMonth at h
  split at h <;> omega

theorem day_le (d : Date) : 1 ≤ d.day ∧ d.day ≤ 31 := by
  obtain ⟨_, _, h₁, h₂⟩ := d.isDay
  refine ⟨h₁, Nat.le_trans h₂ ?_⟩
  unfold Calendar.daysInMonth
  repeat' split
  all_goals decide

end Date

end BoolQuery
