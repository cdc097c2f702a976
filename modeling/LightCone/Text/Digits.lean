/-!
Decimal digits.

This file reads runs of decimal digits: their value (`digitsValue`), a run at the start of a
text (`spanDigits`), and whole numbers that fit 64 bits (`readWord`).
-/
namespace LightCone

/-- The value of a list of decimal digits, most significant first. -/
def digitsValue (digits : List Char) : Nat :=
  digits.foldl (fun n c => 10 * n + (c.toNat - 48)) 0

/-- The digits that a text starts with, and the rest. -/
def spanDigits (cs : List Char) : List Char × List Char :=
  (cs.takeWhile Char.isDigit, cs.dropWhile Char.isDigit)

/-- The first number past 64 bits. -/
def wordLimit : Nat := 18446744073709551616

/-- A whole number below `2 ^ 64`: digits after at most one plus sign, and nothing else. -/
def readWord (cs : List Char) : Option Nat :=
  let digits := if cs.head? = some '+' then cs.tail else cs
  if digits.isEmpty || !digits.all Char.isDigit then none
  else if digitsValue digits < wordLimit then some (digitsValue digits)
  else none

end LightCone
