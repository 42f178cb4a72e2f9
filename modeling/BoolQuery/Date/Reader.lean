import BoolQuery.Date.Basic
import BoolQuery.Text.Blank

/-! Reading a date: a calendar date such as `1990-04-12`, or the date part of an
RFC 3339 timestamp. A timestamp is checked in full, and its day is the one written, not
the day at the zero meridian. -/

namespace BoolQuery.Date
open Text

/-- What follows the character `c`. -/
def after? (c : Char) : List Char → Option (List Char)
  | [] => none
  | d :: cs => if d == c then some cs else none

/-- A number of one up to `limit` digits, and what follows it. -/
def readUpTo? (limit : Nat) (cs : List Char) : Option (Nat × List Char) :=
  let ds := (cs.take limit).takeWhile Char.isDigit
  if ds.isEmpty then none else some (ofDigits ds, cs.drop ds.length)

/-- A number of `count` digits, and what follows it. -/
def readExactly? (count : Nat) (cs : List Char) : Option (Nat × List Char) :=
  let ds := cs.take count
  if ds.length == count && ds.all Char.isDigit then some (ofDigits ds, cs.drop count) else none

/-- A year has at most four digits, but any number of them after a sign. -/
def readYear? (cs : List Char) : Option (Int × List Char) :=
  match cs with
  | '-' :: rest => (readUpTo? rest.length rest).map fun (n, r) => (-(n : Int), r)
  | '+' :: rest => (readUpTo? rest.length rest).map fun (n, r) => ((n : Int), r)
  | _ => (readUpTo? 4 cs).map fun (n, r) => ((n : Int), r)

/-- A calendar date. Blanks may stand before each of the three numbers. -/
def readCalendar? (cs : List Char) : Option Date := do
  let (year, cs) ← readYear? (trimStart cs)
  let (month, cs) ← readUpTo? 2 (trimStart (← after? '-' cs))
  let (day, cs) ← readUpTo? 2 (trimStart (← after? '-' cs))
  if cs.isEmpty then ofNumbers? year month day else none

/-- What follows the time of day. Any minute may have a sixty-first second. -/
def skipTime? (cs : List Char) : Option (List Char) := do
  let (hour, cs) ← readExactly? 2 cs
  let (minute, cs) ← readExactly? 2 (← after? ':' cs)
  let (second, cs) ← readExactly? 2 (← after? ':' cs)
  if hour ≤ 23 && minute ≤ 59 && second ≤ 60 then some cs else none

/-- What follows the fraction of a second, if there is one. -/
def skipFraction? : List Char → Option (List Char)
  | '.' :: cs =>
    let (ds, rest) := spanDigits cs
    if ds.isEmpty then none else some rest
  | cs => some cs

/-- What follows the distance from universal time. -/
def skipOffset? : List Char → Option (List Char)
  | [] => none
  | c :: cs =>
    if c == 'Z' || c == 'z' then some cs
    else if c == '+' || c == '-' || c == '\u2212' then do
      let (hour, cs) ← readExactly? 2 cs
      let (minute, cs) ← readExactly? 2 (← after? ':' cs)
      if hour ≤ 23 && minute ≤ 59 then some cs else none
    else none

/-- What follows the mark between the date and the time of a timestamp. -/
def skipTimeMark? : List Char → Option (List Char)
  | c :: cs => if c == 'T' || c == 't' || c == ' ' then some cs else none
  | [] => none

/-- The date of an RFC 3339 timestamp. -/
def readTimestamp? (cs : List Char) : Option Date := do
  let (year, cs) ← readExactly? 4 cs
  let (month, cs) ← readExactly? 2 (← after? '-' cs)
  let (day, cs) ← readExactly? 2 (← after? '-' cs)
  let cs ← skipOffset? (← skipFraction? (← skipTime? (← skipTimeMark? cs)))
  if cs.isEmpty then ofNumbers? year month day else none

/-- Reads a whole text as a date. -/
def read? (cs : List Char) : Option Date :=
  readCalendar? cs <|> readTimestamp? cs

end BoolQuery.Date
