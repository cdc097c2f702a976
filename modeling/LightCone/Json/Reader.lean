import LightCone.Json.Value
import LightCone.Text.Digits

/-!
Reading JSON documents.

Each reader gives what it read and the rest of the text, or no rest where the text stops being
JSON. This file

1. reads numbers: whole ones of up to 64 bits exactly, others as their first digits times a
   power of ten, each rounded to binary64;
2. reads texts, with pairs of escapes for characters past the sixteen-bit range;
3. reads values; of every two steps down or forward one takes a character, so twice as many
   steps as there are characters suffice (`readDocument`).
-/
namespace LightCone.Json

def isSpace (c : Char) : Bool := c = ' ' || c = '\n' || c = '\t' || c = '\r'

def skipSpace (cs : List Char) : List Char := cs.dropWhile isSpace

/-! ## Numbers -/

/-- Digits taken into a 64-bit number while they fit. -/
structure Digits where
  value : Nat
  /-- The digits that fit. -/
  taken : Nat
  /-- The digits from the first that does not fit. -/
  left : Nat

/-- Takes digits in order while the number stays below `2 ^ 64`. -/
def takeDigits (value taken : Nat) : List Char → Digits
  | [] => ⟨value, taken, 0⟩
  | c :: rest =>
    let next := 10 * value + (c.toNat - 48)
    if next < wordLimit then takeDigits next (taken + 1) rest
    else ⟨value, taken, rest.length + 1⟩

/-- Divides by `10 ^ 308` until the power left to divide by is at most that. -/
def scaleDown (x : Binary64) : Nat → Nat → Binary64
  | 0, _ => x
  | steps + 1, power =>
    if power ≤ 308 then x / .ofDecimal false 1 power
    else if x ≤ 0 then x
    else scaleDown (x / .ofDecimal false 1 308) steps (power - 308)

/-- Digits times a power of ten, both rounded before they are multiplied or divided; none past
    the largest number. -/
def decimalNumber (negative : Bool) (digits : Nat) (power : Int) : Number :=
  let x := Binary64.ofNat digits
  let signed (x : Binary64) : Number := .real (if negative then -x else x)
  match power with
  | .ofNat p =>
    if p ≤ 308 then
      let y := x * .ofDecimal false 1 p
      if y.isFinite then signed y else .tooLarge
    else if digits = 0 then signed x
    else .tooLarge
  | .negSucc p => signed (scaleDown x (p / 308 + 2) (p + 1))

/-- The largest exponent that is told apart from larger ones. -/
def exponentLimit : Nat := 2147483647

/-- A number from its digits and what may follow them: an exponent. -/
def readPower (negative : Bool) (digits : Nat) (power : Int) (cs : List Char) :
    Number × Option (List Char) :=
  match cs with
  | 'e' :: rest | 'E' :: rest =>
    let (down, rest) := match rest with
      | '+' :: rest => (false, rest)
      | '-' :: rest => (true, rest)
      | rest => (false, rest)
    let (exponent, rest) := spanDigits rest
    if exponent.isEmpty then (.natural 0, none)
    else
      let n := digitsValue exponent
      if exponentLimit < n then
        (if digits = 0 ∨ down then .real (.zero negative) else .tooLarge, some rest)
      else (decimalNumber negative digits (if down then power - n else power + n), some rest)
  | rest => (decimalNumber negative digits power, some rest)

/-- A number with the digits after its point; those that no longer fit count for nothing. -/
def readFraction (negative : Bool) (whole : Digits) (cs : List Char) : Number × Option (List Char) :=
  let (fraction, rest) := spanDigits cs
  if fraction.isEmpty then (.natural 0, none)
  else
    let all := takeDigits whole.value 0 fraction
    readPower negative all.value ((whole.left : Int) - all.taken) rest

def wholeNumber (negative : Bool) (n : Nat) : Number :=
  if !negative then .natural n
  else if n = 0 ∨ wordLimit / 2 < n then .real (-(Binary64.ofNat n))
  else .negative n

/-- A number after its sign: no zero leads other digits. -/
def readUnsigned (negative : Bool) (cs : List Char) : Number × Option (List Char) :=
  let (digits, rest) := spanDigits cs
  match digits with
  | [] => (.natural 0, none)
  | '0' :: _ :: _ => (.natural 0, none)
  | digits =>
    let whole := takeDigits 0 0 digits
    match rest with
    | '.' :: rest => readFraction negative whole rest
    | 'e' :: _ | 'E' :: _ => readPower negative whole.value whole.left rest
    | rest =>
      if whole.left = 0 then (wholeNumber negative whole.value, some rest)
      else (decimalNumber negative whole.value whole.left, some rest)

/-! ## Texts -/

def hexDigit (c : Char) : Option Nat :=
  if c.isDigit then some (c.toNat - 48)
  else if 'a' ≤ c ∧ c ≤ 'f' then some (c.toNat - 87)
  else if 'A' ≤ c ∧ c ≤ 'F' then some (c.toNat - 55)
  else none

def readHex : List Char → Option (Nat × List Char)
  | a :: b :: c :: d :: rest => do
    let a ← hexDigit a
    let b ← hexDigit b
    let c ← hexDigit c
    let d ← hexDigit d
    some (((a * 16 + b) * 16 + c) * 16 + d, rest)
  | _ => none

/-- What one escape after a backslash stands for: a character, or half of one. -/
inductive Escape where
  | char (c : Char)
  | high (n : Nat)
  | low (n : Nat)

/-- An escape after its backslash. -/
def readEscape : List Char → Option (Escape × List Char)
  | '"' :: rest => some (.char '"', rest)
  | '\\' :: rest => some (.char '\\', rest)
  | '/' :: rest => some (.char '/', rest)
  | 'b' :: rest => some (.char '\x08', rest)
  | 'f' :: rest => some (.char '\x0c', rest)
  | 'n' :: rest => some (.char '\n', rest)
  | 'r' :: rest => some (.char '\r', rest)
  | 't' :: rest => some (.char '\t', rest)
  | 'u' :: rest => do
    let (n, rest) ← readHex rest
    if 0xD800 ≤ n ∧ n < 0xDC00 then some (.high n, rest)
    else if 0xDC00 ≤ n ∧ n < 0xE000 then some (.low n, rest)
    else some (.char (Char.ofNat n), rest)
  | _ => none

def joinHalves (high low : Nat) : Char :=
  Char.ofNat (0x10000 + (high - 0xD800) * 0x400 + (low - 0xDC00))

def addChar (c : Char) (text : Option (List Char)) : Option (List Char) := text.map (c :: ·)

/-- The text up to the closing quote, and the rest after it. `half` is a first half that waits
    for its second; the text is none if a half is left alone. -/
def readQuoted : Nat → Option Nat → List Char → Option (List Char) × Option (List Char)
  | 0, _, _ => (none, none)
  | steps + 1, half, cs =>
    match cs with
    | [] => (none, none)
    | '"' :: rest => (if half.isSome then none else some [], some rest)
    | '\\' :: rest =>
      match readEscape rest with
      | none => (none, none)
      | some (.char c, rest) =>
        let (text, rest) := readQuoted steps none rest
        (if half.isSome then none else addChar c text, rest)
      | some (.high n, rest) =>
        let (text, rest) := readQuoted steps (some n) rest
        (if half.isSome then none else text, rest)
      | some (.low n, rest) =>
        let (text, rest) := readQuoted steps none rest
        (half.bind fun h => addChar (joinHalves h n) text, rest)
    | c :: rest =>
      if c.toNat < 32 then (none, none)
      else
        let (text, rest) := readQuoted steps none rest
        (if half.isSome then none else addChar c text, rest)

def readText (steps : Nat) (cs : List Char) : Option String × Option (List Char) :=
  let (text, rest) := readQuoted steps none cs
  (text.map String.ofList, rest)

/-! ## Values -/

/-- The rest of a word, then the value that it names. -/
def readWordValue (word : String) (value : Value) (cs : List Char) : Value × Option (List Char) :=
  if cs.take word.length = word.toList then (value, some (cs.drop word.length))
  else (.malformed, none)

def numberValue (n : Number × Option (List Char)) : Value × Option (List Char) :=
  match n with
  | (n, some rest) => (.number n, some rest)
  | (_, none) => (.malformed, none)

mutual

def readValue : Nat → List Char → Value × Option (List Char)
  | 0, _ => (.malformed, none)
  | steps + 1, cs =>
    match skipSpace cs with
    | [] => (.malformed, none)
    | 'n' :: rest => readWordValue "ull" .null rest
    | 't' :: rest => readWordValue "rue" (.bool true) rest
    | 'f' :: rest => readWordValue "alse" (.bool false) rest
    | '"' :: rest =>
      match readText (steps + 1) rest with
      | (text, some rest) => (.string text, some rest)
      | (_, none) => (.malformed, none)
    | '[' :: rest =>
      match skipSpace rest with
      | ']' :: rest => (.array [] true, some rest)
      | rest =>
        let (items, rest) := readItems steps rest
        (.array items rest.isSome, rest)
    | '\x7b' :: rest =>
      match skipSpace rest with
      | '\x7d' :: rest => (.object [] true, some rest)
      | rest =>
        let (fields, rest) := readFields steps rest
        (.object fields rest.isSome, rest)
    | '-' :: rest => numberValue (readUnsigned true rest)
    | c :: rest =>
      if c.isDigit then numberValue (readUnsigned false (c :: rest)) else (.malformed, none)

/-- Items up to the closing bracket: one, and more after each comma. -/
def readItems : Nat → List Char → List Value × Option (List Char)
  | 0, _ => ([], none)
  | steps + 1, cs =>
    match readValue steps cs with
    | (v, none) => ([v], none)
    | (v, some rest) =>
      match skipSpace rest with
      | ']' :: rest => ([v], some rest)
      | ',' :: rest =>
        let (items, rest) := readItems steps rest
        (v :: items, rest)
      | _ => ([v], none)

/-- Fields up to the closing brace: one, and more after each comma. -/
def readFields : Nat → List Char → List (Option String × Value) × Option (List Char)
  | 0, _ => ([], none)
  | steps + 1, cs =>
    match skipSpace cs with
    | '"' :: rest =>
      match readText (steps + 1) rest with
      | (_, none) => ([], none)
      | (key, some rest) =>
        match skipSpace rest with
        | ':' :: rest =>
          match readValue steps rest with
          | (v, none) => ([(key, v)], none)
          | (v, some rest) =>
            match skipSpace rest with
            | '\x7d' :: rest => ([(key, v)], some rest)
            | ',' :: rest =>
              let (fields, rest) := readFields steps rest
              ((key, v) :: fields, rest)
            | _ => ([(key, v)], none)
        | _ => ([(key, .malformed)], none)
    | _ => ([], none)

end

/-- The value of a document, and whether only space follows it. -/
def readDocument (cs : List Char) : Value × Bool :=
  match readValue (2 * cs.length + 2) cs with
  | (v, some rest) => (v, (skipSpace rest).isEmpty)
  | (v, none) => (v, false)

end LightCone.Json
