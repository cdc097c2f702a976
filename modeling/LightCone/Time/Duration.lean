import LightCone.Binary64.Basic

/-!
Durations: spans of time in whole nanoseconds, below `2 ^ 64` seconds.

This file

1. defines durations with their bound in the type; a sum or multiple past the bound is the
   longest duration;
2. converts to and from binary64 seconds. A duration becomes the rounded sum of its whole
   seconds and its rounded fraction; seconds become the nearest nanosecond, a half going to
   the even one, and what is not a positive finite number becomes zero;
3. writes a duration in its largest unit that leaves a whole part.
-/
namespace LightCone

-- A power of naturals is the one of the core library, whatever else is in scope.
attribute [local instance (high)] instPowNat

def nanosPerSecond : Nat := 1000000000

/-- The first count of nanoseconds that no duration reaches: `2 ^ 64` seconds. -/
def Duration.limit : Nat := 18446744073709551616000000000

/-- A span of time in nanoseconds. -/
structure Duration where
  nanos : Nat
  lt_limit : nanos < Duration.limit
  deriving DecidableEq

namespace Duration

instance : LT Duration := ⟨fun a b => a.nanos < b.nanos⟩
instance : LE Duration := ⟨fun a b => a.nanos ≤ b.nanos⟩
instance (a b : Duration) : Decidable (a < b) := inferInstanceAs (Decidable (a.nanos < b.nanos))
instance (a b : Duration) : Decidable (a ≤ b) := inferInstanceAs (Decidable (a.nanos ≤ b.nanos))

def zero : Duration := ⟨0, by decide⟩

/-- The longest duration, one nanosecond below `2 ^ 64` seconds. -/
def longest : Duration := ⟨18446744073709551615999999999, by decide⟩

instance : Inhabited Duration := ⟨zero⟩

/-- The duration of a count of nanoseconds, or the longest one. -/
def ofNanos (nanos : Nat) : Duration :=
  if h : nanos < limit then ⟨nanos, h⟩ else longest

@[ext] theorem ext {a b : Duration} (h : a.nanos = b.nanos) : a = b := by
  cases a; cases b; cases h; rfl

theorem nanos_ofNanos (n : Nat) : (ofNanos n).nanos = min n longest.nanos := by
  unfold ofNanos
  split
  · next h => simp only [longest, limit] at h ⊢; omega
  · next h => simp only [longest, limit] at h ⊢; omega

@[simp] theorem ofNanos_nanos (d : Duration) : ofNanos d.nanos = d := by
  simp [ofNanos, d.lt_limit]

theorem le_longest (d : Duration) : d ≤ longest := by
  have h := d.lt_limit
  show d.nanos ≤ longest.nanos
  simp only [longest, limit] at h ⊢
  omega

def ofMillis (n : Nat) : Duration := ofNanos (n * 1000000)

def ofSecs (n : Nat) : Duration := ofNanos (n * nanosPerSecond)

def secs (d : Duration) : Nat := d.nanos / nanosPerSecond

def subsecNanos (d : Duration) : Nat := d.nanos % nanosPerSecond

/-! ## Arithmetic that stops at the longest duration -/

def add (a b : Duration) : Duration := ofNanos (a.nanos + b.nanos)

def times (d : Duration) (k : Nat) : Duration := ofNanos (d.nanos * k)

instance : Add Duration := ⟨add⟩

/-- Half a duration, rounded down. -/
def half (d : Duration) : Duration :=
  ⟨d.nanos / 2, Nat.lt_of_le_of_lt (Nat.div_le_self ..) d.lt_limit⟩

def longer (a b : Duration) : Duration := if a.nanos < b.nanos then b else a

def shorter (a b : Duration) : Duration := if b.nanos < a.nanos then b else a

/-- At least `low`, then at most `high`: where the bounds cross, `high` wins. -/
def clamp (d low high : Duration) : Duration := (d.longer low).shorter high

@[simp] theorem nanos_longer (a b : Duration) : (a.longer b).nanos = max a.nanos b.nanos := by
  unfold longer
  split <;> omega

@[simp] theorem nanos_shorter (a b : Duration) : (a.shorter b).nanos = min a.nanos b.nanos := by
  unfold shorter
  split <;> omega

theorem longer_mono {a a' b b' : Duration} (ha : a ≤ a') (hb : b ≤ b') :
    a.longer b ≤ a'.longer b' := by
  have ha' : a.nanos ≤ a'.nanos := ha
  have hb' : b.nanos ≤ b'.nanos := hb
  show (a.longer b).nanos ≤ (a'.longer b').nanos
  rw [nanos_longer, nanos_longer]
  omega

theorem nanos_add (a b : Duration) :
    (a + b).nanos = min (a.nanos + b.nanos) longest.nanos := nanos_ofNanos _

/-! ## Binary64 seconds -/

/-- A duration in seconds: whole seconds and fraction are rounded each, and then their sum. -/
def asSeconds (d : Duration) : Binary64 :=
  Binary64.ofNat d.secs + Binary64.ofNat d.subsecNanos / 1000000000

/-- The duration nearest to a number of seconds: zero for what is not finite and positive, the
    longest duration for what is past it. -/
def ofSeconds : Binary64 → Duration
  | .finite false units _ => ofNanos (roundHalfEven (units * nanosPerSecond) (2 ^ Binary64.unitBits))
  | _ => zero

/-- A duration times a factor, by way of seconds. -/
def scale (d : Duration) (factor : Binary64) : Duration := ofSeconds (d.asSeconds * factor)

/-! ## Text -/

/-- Drops the zeros that end a list of digits. -/
def trimZeros (digits : List Char) : List Char :=
  (digits.reverse.dropWhile (· = '0')).reverse

/-- `part` as exactly `width` decimal digits. -/
def paddedDigits (width part : Nat) : List Char :=
  let digits := Nat.toDigits 10 part
  List.replicate (width - digits.length) '0' ++ digits

/-- A whole number and a fraction of `width` digits, without the zeros that end it. -/
def decimalText (whole part width : Nat) : String :=
  let fraction := trimZeros (paddedDigits width part)
  toString whole ++ (if fraction.isEmpty then "" else "." ++ String.ofList fraction)

/-- The duration in seconds, milliseconds, microseconds or nanoseconds, whichever is the
    largest unit not longer than it. -/
def text (d : Duration) : String :=
  let n := d.nanos
  if nanosPerSecond ≤ n then decimalText d.secs d.subsecNanos 9 ++ "s"
  else if 1000000 ≤ n then decimalText (n / 1000000) (n % 1000000) 6 ++ "ms"
  else if 1000 ≤ n then decimalText (n / 1000) (n % 1000) 3 ++ "µs"
  else decimalText n 0 0 ++ "ns"

end Duration
end LightCone
