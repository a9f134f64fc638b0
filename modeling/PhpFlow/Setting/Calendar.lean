/-!
# Days, times of day and moments

A moment is a day and a time of day, and it may tell how many minutes it is ahead of universal time.
-/
namespace PhpFlow

structure Day where
  year : Nat
  month : Nat
  day : Nat
  deriving DecidableEq, Repr

structure Clock where
  hour : Nat
  minute : Nat
  second : Nat
  microsecond : Nat
  deriving DecidableEq, Repr

structure Moment where
  day : Day
  clock : Clock
  offset : Option Int
  deriving DecidableEq, Repr

def padded (width n : Nat) : String :=
  let digits := Nat.toDigits 10 n
  String.ofList (List.replicate (width - digits.length) '0' ++ digits)

namespace Day

def isLeap (year : Nat) : Bool := year % 4 = 0 && (year % 100 != 0 || year % 400 = 0)

def monthLength (year month : Nat) : Nat :=
  if month = 2 then (if isLeap year then 29 else 28)
  else if month = 4 || month = 6 || month = 9 || month = 11 then 30
  else 31

/-- The day is one of the calendar, which begins with the year 1. -/
def inCalendar (d : Day) : Bool :=
  1 ≤ d.year && 1 ≤ d.month && d.month ≤ 12 && 1 ≤ d.day && d.day ≤ monthLength d.year d.month

def daysBefore (year : Nat) : Nat → Nat
  | 0 => 0
  | month + 1 => daysBefore year month + (if month = 0 then 0 else monthLength year month)

def number (d : Day) : Nat :=
  let past := d.year - 1
  365 * past + past / 4 - past / 100 + past / 400 + daysBefore d.year d.month + d.day

def toText (d : Day) : String := padded 4 d.year ++ "-" ++ padded 2 d.month ++ "-" ++ padded 2 d.day

end Day

namespace Clock

def number (c : Clock) : Nat := ((c.hour * 60 + c.minute) * 60 + c.second) * 1000000 + c.microsecond

def toText (c : Clock) : String :=
  padded 2 c.hour ++ ":" ++ padded 2 c.minute ++ ":" ++ padded 2 c.second ++
    (if c.microsecond = 0 then "" else "." ++ padded 6 c.microsecond)

end Clock

namespace Moment

/-- Microseconds since the beginning of the calendar, in universal time if the offset is known. -/
def number (m : Moment) : Int :=
  (m.day.number * 86400000000 + m.clock.number : Nat) - m.offset.getD 0 * 60000000

def offsetText (minutes : Int) : String :=
  (if minutes < 0 then "-" else "+") ++ padded 2 (minutes.natAbs / 60) ++ ":" ++
    padded 2 (minutes.natAbs % 60)

def toText (m : Moment) : String :=
  m.day.toText ++ " " ++ m.clock.toText ++ (m.offset.map offsetText).getD ""

end Moment

end PhpFlow
