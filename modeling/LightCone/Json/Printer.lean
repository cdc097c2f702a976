import LightCone.Binary64.Text
import LightCone.Json.Value

/-!
The compact text of JSON values.

Nothing stands between the parts. A text is quoted, with escapes for the quote, the backslash
and control characters; binary64 numbers have a point or an exponent, and one that is not finite
is null.
-/
namespace LightCone.Json

def escapeChar (c : Char) : List Char :=
  if c = '"' then ['\\', '"']
  else if c = '\\' then ['\\', '\\']
  else if c = '\x08' then ['\\', 'b']
  else if c = '\x0c' then ['\\', 'f']
  else if c = '\n' then ['\\', 'n']
  else if c = '\r' then ['\\', 'r']
  else if c = '\t' then ['\\', 't']
  else if c.toNat < 32 then
    ['\\', 'u', '0', '0', Nat.digitChar (c.toNat / 16), Nat.digitChar (c.toNat % 16)]
  else [c]

def quoted (s : String) : List Char := '"' :: s.toList.flatMap escapeChar ++ ['"']

def Number.chars : Number → List Char
  | natural n => Nat.toDigits 10 n
  | negative n => '-' :: Nat.toDigits 10 n
  | real x => if x.isFinite then x.documentText.toList else ['n', 'u', 'l', 'l']
  | tooLarge => ['n', 'u', 'l', 'l']

namespace Value

mutual

/-- The compact text of a value. -/
def chars : Value → List Char
  | null => ['n', 'u', 'l', 'l']
  | bool true => ['t', 'r', 'u', 'e']
  | bool false => ['f', 'a', 'l', 's', 'e']
  | number n => n.chars
  | string text => quoted (text.getD "")
  | array items _ => '[' :: itemChars items ++ [']']
  | object fields _ => '\x7b' :: fieldChars fields ++ ['\x7d']
  | malformed => []

def itemChars : List Value → List Char
  | [] => []
  | [v] => chars v
  | v :: rest => chars v ++ ',' :: itemChars rest

def fieldChars : List (Option String × Value) → List Char
  | [] => []
  | [(key, v)] => quoted (key.getD "") ++ ':' :: chars v
  | (key, v) :: rest => quoted (key.getD "") ++ ':' :: chars v ++ ',' :: fieldChars rest

end

/-- The compact text of a value. -/
def render (v : Value) : String := String.ofList v.chars

end Value
end LightCone.Json
