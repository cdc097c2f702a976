import LightCone.Text.Blank
import LightCone.Text.Digits
import LightCone.Time.Calendar
import LightCone.Time.Instant

/-!
Instants as text, after RFC 3339.

An instant is written in UTC with a fraction of 0, 3, 6 or 9 digits, the fewest that hold it;
years outside 0 to 9999 have a sign (`Instant.text`). Reading (`Instant.read?`) takes any
offset from UTC, more forms of the same parts, and blank space between them.
-/
namespace LightCone.Instant

-- A power of naturals is the one of the core library, whatever else is in scope.
attribute [local instance (high)] instPowNat

def secondsPerDay : Int := 86400

/-! ## Writing -/

/-- A year: four digits, or a sign and at least four digits outside 0 to 9999. -/
def yearText (year : Int) : List Char :=
  if year < 0 then '-' :: Duration.paddedDigits 4 year.natAbs
  else if year ≤ 9999 then Duration.paddedDigits 4 year.natAbs
  else '+' :: Duration.paddedDigits 4 year.natAbs

/-- The fraction of a second in the fewest groups of three digits. -/
def fractionText (nanos : Nat) : List Char :=
  if nanos = 0 then []
  else if nanos % 1000000 = 0 then '.' :: Duration.paddedDigits 3 (nanos / 1000000)
  else if nanos % 1000 = 0 then '.' :: Duration.paddedDigits 6 (nanos / 1000)
  else '.' :: Duration.paddedDigits 9 nanos

/-- The instant in UTC. A leap second is the sixtieth of its minute. -/
def textChars (t : Instant) : List Char :=
  let seconds := t.unixSeconds
  let date := Date.ofDay (seconds / secondsPerDay)
  let second := (seconds % secondsPerDay).toNat
  let two := Duration.paddedDigits 2
  yearText date.year ++ '-' :: two date.month ++ '-' :: two date.day ++
    'T' :: two (second / 3600) ++ ':' :: two (second / 60 % 60) ++
    ':' :: two (second % 60 + if t.leap then 1 else 0) ++
    fractionText (t.nanos % nanosPerSecond).toNat ++ ['Z']

def text (t : Instant) : String := String.ofList t.textChars

/-! ## Reading -/

def skipBlank (cs : List Char) : List Char := cs.dropWhile isBlank

/-- A character, after blank ones. -/
def readMark (mark : Char) (cs : List Char) : Option (List Char) :=
  match skipBlank cs with
  | c :: rest => if c = mark then some rest else none
  | [] => none

/-- A number of at most `width` digits, after blank characters. -/
def readNumber (width : Nat) (cs : List Char) : Option (Nat × List Char) :=
  let cs := skipBlank cs
  let digits := (cs.take width).takeWhile Char.isDigit
  if digits.isEmpty then none else some (digitsValue digits, cs.drop digits.length)

/-- A year: four digits at most, or any number of them after a sign. -/
def readYear (cs : List Char) : Option (Int × List Char) :=
  match skipBlank cs with
  | '-' :: rest =>
    let (digits, rest) := spanDigits rest
    if digits.isEmpty then none else some (-(digitsValue digits : Int), rest)
  | '+' :: rest =>
    let (digits, rest) := spanDigits rest
    if digits.isEmpty then none else some ((digitsValue digits : Int), rest)
  | rest => (readNumber 4 rest).map fun (n, rest) => ((n : Int), rest)

/-- The nanoseconds of a fraction, if there is one; digits past the ninth are dropped. -/
def readFraction : List Char → Option (Nat × List Char)
  | '.' :: rest =>
    let (digits, rest) := spanDigits rest
    if digits.isEmpty then none
    else
      let kept := digits.take 9
      some (digitsValue kept * 10 ^ (9 - kept.length), rest)
  | rest => some (0, rest)

def readTwo : List Char → Option (Nat × List Char)
  | a :: b :: rest => if a.isDigit && b.isDigit then some (digitsValue [a, b], rest) else none
  | _ => none

/-- The offset from UTC in seconds: a letter for none, or a sign, hours and minutes. -/
def readOffset (cs : List Char) : Option (Int × List Char) :=
  match cs with
  | [] => none
  | c :: rest =>
    if c = 'Z' ∨ c = 'z' then some (0, rest)
    else if (cs.take 3).map Char.toUpper = ['U', 'T', 'C'] then some (0, cs.drop 3)
    else if c = '+' ∨ c = '-' ∨ c = '\u2212' then do
      let (hours, rest) ← readTwo rest
      let (minutes, rest) ← readTwo (rest.dropWhile fun c => c = ':' || isBlank c)
      if 60 ≤ minutes then none
      else
        let offset : Int := hours * 3600 + minutes * 60
        some (if c = '+' then offset else -offset, rest)
    else none

/-- The instant of a date, a time of day and an offset, if the calendar holds it, both as written
    and in UTC. -/
def ofParts (date : Date) (hour minute second nanos : Nat) (offset : Int) : Option Instant :=
  if date.valid && decide (hour < 24) && decide (minute < 60) && decide (second ≤ 60)
      && decide (offset.natAbs < 86400) then do
    let leap := decide (second = 60)
    let secondOfMinute := if leap then 59 else second
    let seconds : Int := date.toDay * secondsPerDay + hour * 3600 + minute * 60 + secondOfMinute
    let written ← ofNanos? (seconds * nanosPerSecond + nanos)
    let t ← ofNanos? (written.nanos - offset * nanosPerSecond)
    some { t with leap := leap }
  else none

def read? (cs : List Char) : Option Instant := do
  let (year, cs) ← readYear cs
  let cs ← readMark '-' cs
  let (month, cs) ← readNumber 2 cs
  let cs ← readMark '-' cs
  let (day, cs) ← readNumber 2 cs
  let cs ← match cs with
    | c :: rest => if c = 'T' ∨ c = 't' ∨ c = ' ' then some rest else none
    | [] => none
  let (hour, cs) ← readNumber 2 cs
  let cs ← readMark ':' cs
  let (minute, cs) ← readNumber 2 cs
  let cs ← readMark ':' cs
  let (second, cs) ← readNumber 2 cs
  let (nanos, cs) ← readFraction cs
  let (offset, cs) ← readOffset (skipBlank cs)
  if (skipBlank cs).isEmpty then ofParts ⟨year, month, day⟩ hour minute second nanos offset
  else none

end LightCone.Instant
