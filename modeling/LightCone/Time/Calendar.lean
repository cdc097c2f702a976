/-!
Dates of the proleptic Gregorian calendar.

Years are counted from March, so that a leap day is the last day of its year, and in cycles of
four hundred years, which have 146097 days each. `Date.ofDay` turns a count of days from
the start of 1970 into a date and `Date.toDay` turns it back; a date is valid if it comes back
from its day (`Date.valid`).
-/
namespace LightCone

/-- A year, a month from 1 and a day from 1. -/
structure Date where
  year : Int
  month : Nat
  day : Nat
  deriving DecidableEq

namespace Date

/-- Days from the first of March of the year 0 to the start of 1970. -/
def epochDay : Int := 719468

/-- Days of a cycle of four hundred years. -/
def cycleDays : Int := 146097

/-- Days before a year of a cycle. -/
def daysBeforeYear (year : Int) : Int := 365 * year + year / 4 - year / 100

/-- The year of a cycle that a day of the cycle falls into. -/
def yearOfCycleDay (day : Int) : Int :=
  (day - day / 1460 + day / 36524 - day / 146096) / 365

/-- Days before a month, counted from March as month 0. -/
def daysBeforeMonth (month : Int) : Int := (153 * month + 2) / 5

def ofDay (n : Int) : Date :=
  let fromMarch := n + epochDay
  let cycle := fromMarch / cycleDays
  let cycleDay := fromMarch % cycleDays
  let cycleYear := yearOfCycleDay cycleDay
  let yearDay := cycleDay - daysBeforeYear cycleYear
  let month := (5 * yearDay + 2) / 153
  let year := cycle * 400 + cycleYear
  { year := if month < 10 then year else year + 1
    month := (if month < 10 then month + 3 else month - 9).toNat
    day := (yearDay - daysBeforeMonth month + 1).toNat }

/-- The day of a date, counted from the start of 1970. -/
def toDay (d : Date) : Int :=
  let month : Int := if d.month < 3 then (d.month : Int) + 9 else (d.month : Int) - 3
  let year := if d.month < 3 then d.year - 1 else d.year
  let cycle := year / 400
  let cycleYear := year % 400
  cycle * cycleDays + daysBeforeYear cycleYear + daysBeforeMonth month + (d.day : Int) - 1 - epochDay

def valid (d : Date) : Bool := ofDay d.toDay = d

end Date
end LightCone
