import LightCone.Binary64.Basic

/-!
Decimal text of binary64 numbers.

This file

1. scales a magnitude by a power of ten and rounds it to an integer (`scaledInteger`), the
   one inexact step of fixed-point and scientific text;
2. finds the fewest decimal digits that read back as a magnitude (`shortestDigits`): of the
   decimals of the least length inside the interval that rounds to it, the nearest;
3. lays digits out: a fixed number of places, a mantissa with an exponent, positional
   digits alone, and the form of numbers in documents.

Two decimals may be equally near. Then the last digit is the even one everywhere but in
positional digits alone, where it is the larger one.
-/
namespace LightCone.Binary64

-- A power of naturals is the one of the core library, whatever else is in scope.
attribute [local instance (high)] instPowNat

/-- A magnitude times `10 ^ power`, made an integer by a rule for quotients. -/
def scaledInteger (round : Nat → Nat → Nat) (units : Nat) : Int → Nat
  | .ofNat p => round (units * 10 ^ p) one
  | .negSucc p => round units (one * 10 ^ (p + 1))

/-- The power of ten of the leading decimal digit of a positive magnitude. No magnitude is
    below `10 ^ -324`. -/
def leadingPower (units : Nat) : Int :=
  (toString (units * 10 ^ (324 : Nat) / one)).length - 325

/-- The sign and the text of numbers that have no digits, or the text of a magnitude. -/
def signedText (body : Nat → String) : Binary64 → String
  | .nan => "NaN"
  | .infinity negative => if negative then "-inf" else "inf"
  | .finite negative units _ => (if negative then "-" else "") ++ body units

/-- Puts a point before the last `places` digits of a list of digits. -/
def pointed (places : Nat) (digits : List Char) : String :=
  let padded := List.replicate (places + 1 - digits.length) '0' ++ digits
  let whole := padded.take (padded.length - places)
  let fraction := padded.drop (padded.length - places)
  String.ofList (if places = 0 then whole else whole ++ '.' :: fraction)

/-- A number with a fixed count of places after the point. -/
def fixed (places : Nat) : Binary64 → String :=
  signedText fun units => pointed places (toString (scaledInteger roundHalfEven units places)).toList

/-- A number as one digit, `places` digits after the point, and a power of ten. -/
def scientific (places : Nat) : Binary64 → String :=
  signedText fun units =>
    if units = 0 then pointed places ['0'] ++ "e0"
    else
      let power := leadingPower units
      let digits := scaledInteger roundHalfEven units (places - power)
      if digits < 10 ^ (places + 1) then
        pointed places (toString digits).toList ++ "e" ++ toString power
      else pointed places (toString (10 ^ places)).toList ++ "e" ++ toString (power + 1)

/-! ## Shortest digits -/

/-- Whether the decimal `digits · 10 ^ -power` rounds to the magnitude. The interval of those
    that do reaches half way to each neighbour, which is nearer below a power of two; its ends
    belong to it if the magnitude is an even multiple of its last binary place. -/
def readsBack (units : Nat) (power : Int) (digits : Nat) : Bool :=
  let last := 2 ^ (units.log2 - 52)
  let low := if 52 < units.log2 ∧ units = 2 ^ units.log2 then 4 * units - last else 4 * units - 2 * last
  let high := 4 * units + 2 * last
  let (decimal, scale) := match power with
    | .ofNat p => (4 * digits * one, 10 ^ p)
    | .negSucc p => (4 * digits * (one * 10 ^ (p + 1)), 1)
  if units / last % 2 = 0 then low * scale ≤ decimal ∧ decimal ≤ high * scale
  else low * scale < decimal ∧ decimal < high * scale

/-- A decimal with `count` digits that reads back as the magnitude, nearest to it first; which
    one is nearest says the rule `round`. -/
def digitsOfLength (round : Nat → Nat → Nat) (units count : Nat) : Option (Nat × Int) :=
  let power := (count : Int) - 1 - leadingPower units
  let below := scaledInteger Nat.div units power
  let nearest := scaledInteger round units power
  let other := if nearest = below then below + 1 else below
  if readsBack units power nearest then some (nearest, -power)
  else if readsBack units power other then some (other, -power)
  else none

/-- Digits and the power of ten of the last one, without zeros at the end. -/
def dropZeros : Nat → Nat × Int → Nat × Int
  | 0, d => d
  | steps + 1, (digits, power) =>
    if digits % 10 = 0 then dropZeros steps (digits / 10, power + 1) else (digits, power)

/-- The shortest decimal of a positive magnitude: its digits and the power of ten of the last.
    Seventeen digits always suffice. -/
def shortestDigits (round : Nat → Nat → Nat) (units : Nat) : Nat × Int :=
  match (List.range 17).findSome? fun n => digitsOfLength round units (n + 1) with
  | some d => dropZeros 18 d
  | none => (scaledInteger round units (16 - leadingPower units), leadingPower units - 16)

/-- Digits with the point where the power of the last digit puts it. -/
def positional (digits : Nat) : Int → String
  | .ofNat p => String.ofList ((toString digits).toList ++ List.replicate p '0')
  | .negSucc p => pointed (p + 1) (toString digits).toList

/-- The shortest text of a number, positional at every size. Of two equally near decimals it
    is the larger one in magnitude. -/
def shortest : Binary64 → String :=
  signedText fun units =>
    if units = 0 then "0"
    else
      let (digits, power) := shortestDigits roundHalfUp units
      positional digits power

def signedPower (power : Int) : String :=
  (if power < 0 then "" else "+") ++ toString power

/-- The text of a finite number in a document: the shortest digits with a point, positional
    from `10 ^ -5` up to `10 ^ 16`, with an exponent and its sign outside. Of two equally near
    decimals it is the one with the even last digit. -/
def documentText : Binary64 → String :=
  signedText fun units =>
    if units = 0 then "0.0"
    else
      let (digits, power) := shortestDigits roundHalfEven units
      let text := (toString digits).toList
      let leading := (text.length : Int) + power
      if 0 ≤ power ∧ leading ≤ 16 then positional digits power ++ ".0"
      else if -5 < leading ∧ leading ≤ 16 then positional digits power
      else
        let mantissa := if text.length = 1 then String.ofList text else pointed (text.length - 1) text
        mantissa ++ "e" ++ signedPower (leading - 1)

end LightCone.Binary64
