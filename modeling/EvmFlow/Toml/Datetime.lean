/-!
# Dates and times

A date, a time, or both, perhaps with the distance from the universal time. The grammar fixes the
number of digits, but not that the numbers name a day and a time of day.

* `Datetime`: the numbers and the text they were read from;
* `Datetime.problem?`: what is wrong with the numbers, if anything is;
* `Datetime.Problem.message`: the wording.
-/

namespace EvmFlow.Toml

/-- A day of the calendar. -/
structure Date where
  year : Nat
  month : Nat
  day : Nat
deriving DecidableEq

/-- A time of day, without the fraction of its second. -/
structure Time where
  hour : Nat
  minute : Nat
  second : Nat
deriving DecidableEq

/-- A distance from the universal time, with the text it was read from. -/
structure Zone where
  hour : Nat
  minute : Nat
  text : String
deriving DecidableEq

/-- A date, a time, or a date with a time that may have a zone. -/
inductive Moment where
  | date (d : Date)
  | time (t : Time)
  | both (d : Date) (t : Time) (zone? : Option Zone)
deriving DecidableEq

/-- A moment and the text it was read from. -/
structure Datetime where
  text : String
  moment : Moment
deriving DecidableEq

/-- What can be wrong with a moment: a number out of its range, or a zone that makes no sense, which
is then taken for text behind the time. -/
inductive Datetime.Problem where
  | outOfRange (part : String)
  | extraText (text : String)
deriving DecidableEq

/-- The wording of a problem with a text. -/
def Datetime.Problem.message (text : String) : Datetime.Problem → String
  | outOfRange part => s!"parsing time \"{text}\": {part} out of range"
  | extraText extra => s!"parsing time \"{text}\": extra text: \"{extra}\""

/-- The number of days of a month. -/
def daysIn (year month : Nat) : Nat :=
  if month = 2 then
    if year % 4 = 0 ∧ (year % 100 ≠ 0 ∨ year % 400 = 0) then 29 else 28
  else if month = 4 ∨ month = 6 ∨ month = 9 ∨ month = 11 then 30
  else 31

/-- The month is out of range. -/
def Date.monthProblem? (d : Date) : Option Datetime.Problem :=
  if 1 ≤ d.month ∧ d.month ≤ 12 then none else some (.outOfRange "month")

/-- The month has no such day. -/
def Date.dayProblem? (d : Date) : Option Datetime.Problem :=
  if 1 ≤ d.day ∧ d.day ≤ daysIn d.year d.month then none else some (.outOfRange "day")

/-- The first number of a time that is out of range. -/
def Time.problem? (t : Time) : Option Datetime.Problem :=
  if 24 ≤ t.hour then some (.outOfRange "hour")
  else if 60 ≤ t.minute then some (.outOfRange "minute")
  else if 60 ≤ t.second then some (.outOfRange "second")
  else none

/-- Whether a zone lies within a day and its minutes within an hour, the ends included. -/
def Zone.isSound (z : Zone) : Bool := z.hour ≤ 24 && z.minute ≤ 60

/-- What is wrong with a moment. A zone counts as extra text if anything is wrong, and the day of
the month is looked at last. -/
def Moment.problem? : Moment → Option Datetime.Problem
  | date d => d.monthProblem?.or d.dayProblem?
  | time t => t.problem?
  | both d t none => (d.monthProblem?.or t.problem?).or d.dayProblem?
  | both d t (some zone) =>
    (d.monthProblem?.or t.problem?).or
      (if d.dayProblem?.isNone && zone.isSound then none else some (.extraText zone.text))

/-- What is wrong with the numbers, if anything is. -/
def Datetime.problem? (d : Datetime) : Option Datetime.Problem := d.moment.problem?

end EvmFlow.Toml
