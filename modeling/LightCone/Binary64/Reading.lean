import LightCone.Binary64.Basic
import LightCone.Text.Digits

/-!
Reading binary64 numbers from decimal text.

A text is a sign, if any, and either digits with a point and an exponent, both optional, or a
word for infinity or for not a number in any case of letters. The value of the digits is
exact until it is rounded once (`ofDecimalText`).
-/
namespace LightCone.Binary64

/-- The number nearest to `digits · 10 ^ exponent`, without computing powers of ten that lie
    beyond every finite number or below every positive one. -/
def ofDecimalText (negative : Bool) (digits : Nat) (exponent : Int) : Binary64 :=
  let leading := (toString digits).length + exponent
  if digits = 0 then zero negative
  else if leading < -400 then zero negative
  else if 400 < leading then .infinity negative
  else ofDecimal negative digits exponent

def spanSign : List Char → Bool × List Char
  | '-' :: rest => (true, rest)
  | '+' :: rest => (false, rest)
  | rest => (false, rest)

/-- The power of ten written after a mantissa; none if the text is not an exponent. -/
def readExponent : List Char → Option Int
  | [] => some 0
  | c :: rest =>
    if c = 'e' ∨ c = 'E' then
      let (negative, digits) := spanSign rest
      if digits.isEmpty || !digits.all Char.isDigit then none
      else some (if negative then -(digitsValue digits : Int) else digitsValue digits)
    else none

def readMagnitude (negative : Bool) (cs : List Char) : Option Binary64 :=
  let word := String.ofList (cs.map Char.toLower)
  if word = "inf" ∨ word = "infinity" then some (.infinity negative)
  else if word = "nan" then some .nan
  else
    let (whole, rest) := spanDigits cs
    let (fraction, rest) := match rest with
      | '.' :: after => spanDigits after
      | rest => ([], rest)
    if whole.isEmpty && fraction.isEmpty then none
    else (readExponent rest).map fun exponent =>
      ofDecimalText negative (digitsValue (whole ++ fraction)) (exponent - fraction.length)

/-- The number that a text stands for, if it is one. -/
def read (cs : List Char) : Option Binary64 :=
  let (negative, rest) := spanSign cs
  readMagnitude negative rest

end LightCone.Binary64
