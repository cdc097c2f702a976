import LightCone.Rounding

/-!
Binary64 numbers with exact values.

A finite number is a sign and a whole count of units of `2 ^ -1074`, the smallest positive
binary64 number. Sums and products of such counts are exact integers, so each operation
is the exact result followed by one rounding (`roundUnits`), and the order is the order of
the integers. This file

1. defines the type, whose counts always fit 53 significant bits (`Fits`);
2. rounds an exact quotient of units to a number (`ofRatio`), past the largest one to
   infinity;
3. defines the order and arithmetic, with the usual rules for infinities, signed zeros and
   not-a-number; a product and a sum can be rounded together (`mulAdd`);
4. takes square roots, and lengths of vectors between the longer leg and the sum of both
   (`hypot`);
5. sums polynomials (`polynomial`) and holds numbers within bounds (`clamp`, `held`).
-/
namespace LightCone

-- A power of naturals is the one of the core library, whatever else is in scope.
attribute [local instance (high)] instPowNat

/-- The binary digits below the point of the unit in which magnitudes are counted. -/
@[irreducible] def Binary64.unitBits : Nat := 1074

/-- The number of units at which magnitudes overflow. -/
@[irreducible] def Binary64.overflow : Nat := 2 ^ (2098 : Nat)

/-- A count of units below overflow with at most 53 significant bits. -/
def Binary64.Fits (units : Nat) : Prop :=
  units < Binary64.overflow ∧ 2 ^ (units.log2 - 52) ∣ units

instance (units : Nat) : Decidable (Binary64.Fits units) :=
  inferInstanceAs (Decidable (_ ∧ _))

/-- A binary64 number: not a number, an infinity, or a signed magnitude in units. -/
inductive Binary64 where
  | nan
  | infinity (negative : Bool)
  | finite (negative : Bool) (units : Nat) (fits : Binary64.Fits units)
  deriving DecidableEq

namespace Binary64

/-! ## Rounding to 53 significant bits -/

/-- The count of units with 53 significant bits nearest to `num / den`. -/
def roundUnits (num den : Nat) : Nat :=
  let shift := (num / den).log2 - 52
  roundHalfEven num (den * 2 ^ shift) * 2 ^ shift

theorem div_lt_two_pow_53 (q : Nat) : q / 2 ^ (q.log2 - 52) < 2 ^ (53 : Nat) := by
  rw [Nat.div_lt_iff_lt_mul (Nat.two_pow_pos _), ← Nat.pow_add]
  exact Nat.lt_of_lt_of_le Nat.lt_log2_self (Nat.pow_le_pow_right (by decide) (by omega))

/-- A rounded count has 53 significant bits, also where rounding carries into the next power. -/
theorem pow_dvd_roundUnits (num den : Nat) :
    2 ^ ((roundUnits num den).log2 - 52) ∣ roundUnits num den := by
  simp only [roundUnits]
  generalize hs : (num / den).log2 - 52 = shift
  have hk : roundHalfEven num (den * 2 ^ shift) ≤ 2 ^ 53 := by
    have h := roundHalfEven_le_div_succ num (den * 2 ^ shift)
    rw [← Nat.div_div_eq_div_mul] at h
    have := div_lt_two_pow_53 (num / den)
    rw [hs] at this
    omega
  generalize roundHalfEven num (den * 2 ^ shift) = k at hk
  rcases Nat.lt_or_eq_of_le hk with hk | rfl
  · by_cases hz : k = 0
    · simp [hz]
    · have hlog : (k * 2 ^ shift).log2 < 53 + shift := by
        rw [Nat.log2_lt (Nat.mul_ne_zero hz (Nat.pos_iff_ne_zero.mp (Nat.two_pow_pos _))), Nat.pow_add]
        exact Nat.mul_lt_mul_of_pos_right hk (Nat.two_pow_pos _)
      exact Nat.dvd_trans (Nat.pow_dvd_pow 2 (by omega)) (Nat.dvd_mul_left _ _)
  · rw [← Nat.pow_add, Nat.log2_two_pow]
    exact Nat.pow_dvd_pow 2 (by omega)

/-- The number nearest to `num / den` units with the given sign, infinite past the largest. -/
def ofRatio (negative : Bool) (num den : Nat) : Binary64 :=
  if h : roundUnits num den < overflow then
    .finite negative (roundUnits num den) ⟨h, pow_dvd_roundUnits num den⟩
  else .infinity negative

theorem fits_zero : Fits 0 :=
  ⟨by unfold overflow; omega, Nat.dvd_zero _⟩

def one : Nat := 2 ^ unitBits

theorem ofRatio_not (negative : Bool) (num den : Nat) :
    ofRatio (!negative) num den = (match ofRatio negative num den with
      | .nan => .nan
      | .infinity s => .infinity !s
      | .finite s u f => .finite (!s) u f) := by
  unfold ofRatio
  split <;> rfl

def zero (negative : Bool) : Binary64 := .finite negative 0 fits_zero

def ofNat (n : Nat) : Binary64 := ofRatio false (n * 2 ^ unitBits) 1

/-- The number nearest to `digits · 10 ^ exponent`. -/
def ofDecimal (negative : Bool) (digits : Nat) : Int → Binary64
  | .ofNat e => ofRatio negative (digits * 10 ^ e * 2 ^ unitBits) 1
  | .negSucc e => ofRatio negative (digits * 2 ^ unitBits) (10 ^ (e + 1))

instance (n : Nat) : OfNat Binary64 n := ⟨ofNat n⟩

instance : OfScientific Binary64 :=
  ⟨fun digits small exponent => ofDecimal false digits (if small then -exponent else exponent)⟩

instance : Inhabited Binary64 := ⟨zero false⟩

/-! ## Kinds of numbers -/

def isFinite : Binary64 → Bool
  | .finite .. => true
  | _ => false

def isNaN : Binary64 → Bool
  | .nan => true
  | _ => false

def signed (negative : Bool) (units : Nat) : Int :=
  if negative then -(units : Int) else units

/-- The units of a finite number, its sign aside; zero for all else. -/
def magnitude : Binary64 → Nat
  | .finite _ units _ => units
  | _ => 0

/-- The place of a number in the order, the infinities just past the largest magnitudes. -/
def rank : Binary64 → Option Int
  | .nan => none
  | .infinity negative => some (signed negative overflow)
  | .finite negative units _ => some (signed negative units)

/-- Compares as numbers: the two zeros are alike, and not a number is less than nothing. -/
def lt (a b : Binary64) : Bool :=
  match a.rank, b.rank with
  | some x, some y => x < y
  | _, _ => false

def le (a b : Binary64) : Bool :=
  match a.rank, b.rank with
  | some x, some y => x ≤ y
  | _, _ => false

instance : LT Binary64 := ⟨fun a b => a.lt b = true⟩
instance : LE Binary64 := ⟨fun a b => a.le b = true⟩
instance (a b : Binary64) : Decidable (a < b) := inferInstanceAs (Decidable (_ = true))
instance (a b : Binary64) : Decidable (a ≤ b) := inferInstanceAs (Decidable (_ = true))

/-- The smaller of two numbers; a number is preferred to not a number. -/
def smaller (a b : Binary64) : Binary64 :=
  if b < a || a.isNaN then b else a

/-- Moves a number into `[low, high]`; not a number stays as it is. -/
def clamp (x low high : Binary64) : Binary64 :=
  if x < low then low else if high < x then high else x

/-! ## Arithmetic -/

def neg : Binary64 → Binary64
  | .nan => .nan
  | .infinity negative => .infinity !negative
  | .finite negative units fits => .finite (!negative) units fits

def abs : Binary64 → Binary64
  | .nan => .nan
  | .infinity _ => .infinity false
  | .finite _ units fits => .finite false units fits

def negIf (x : Binary64) (negative : Bool) : Binary64 := if negative then x.neg else x

/-- The exact sum, rounded. A sum of zero is negative only if both terms are. -/
def add : Binary64 → Binary64 → Binary64
  | .nan, _ => .nan
  | _, .nan => .nan
  | .infinity s, .infinity t => if s = t then .infinity s else .nan
  | .infinity s, .finite .. => .infinity s
  | .finite .., .infinity t => .infinity t
  | .finite s u _, .finite t v _ =>
    let sum := signed s u + signed t v
    if sum = 0 then zero (s && t) else ofRatio (sum < 0) sum.natAbs 1

def sub (a b : Binary64) : Binary64 := a.add b.neg

/-- The exact product, rounded. Zero times an infinity is not a number. -/
def mul : Binary64 → Binary64 → Binary64
  | .nan, _ => .nan
  | _, .nan => .nan
  | .infinity s, .infinity t => .infinity (s ^^ t)
  | .infinity s, .finite t v _ => if v = 0 then .nan else .infinity (s ^^ t)
  | .finite s u _, .infinity t => if u = 0 then .nan else .infinity (s ^^ t)
  | .finite s u _, .finite t v _ => ofRatio (s ^^ t) (u * v) (2 ^ unitBits)

/-- The exact quotient, rounded. A zero divisor gives an infinity, or not a number for `0 / 0`. -/
def div : Binary64 → Binary64 → Binary64
  | .nan, _ => .nan
  | _, .nan => .nan
  | .infinity _, .infinity _ => .nan
  | .infinity s, .finite t _ _ => .infinity (s ^^ t)
  | .finite s _ _, .infinity t => zero (s ^^ t)
  | .finite s u _, .finite t v _ =>
    if v = 0 then (if u = 0 then .nan else .infinity (s ^^ t))
    else ofRatio (s ^^ t) (u * 2 ^ unitBits) v

/-- The exact product and sum `a · b + c`, rounded once. A third term that is infinite or not a
    number stands for the sum if the others are finite. -/
def mulAdd : Binary64 → Binary64 → Binary64 → Binary64
  | .finite s u _, .finite t v _, .finite r w _ =>
    let sum := signed (s ^^ t) (u * v) + signed r (w * one)
    if sum = 0 then zero ((s ^^ t) && r) else ofRatio (sum < 0) sum.natAbs one
  | .finite .., .finite .., c => c
  | a, b, c => (a.mul b).add c

instance : Neg Binary64 := ⟨neg⟩
instance : Add Binary64 := ⟨add⟩
instance : Sub Binary64 := ⟨sub⟩
instance : Mul Binary64 := ⟨mul⟩
instance : Div Binary64 := ⟨div⟩

/-! ## Roots and lengths -/

/-- The number nearest to the square root of `n` square units. The root of `4 n` is known to
    the integer below it; where it is not whole, any point up to the next integer rounds
    alike. -/
def ofSquare (n : Nat) : Binary64 :=
  let root := floorSqrt (4 * n)
  ofRatio false (2 * root + if root * root = 4 * n then 0 else 1) 4

/-- The square root, rounded; that of a negative number is not a number. -/
def sqrt : Binary64 → Binary64
  | .nan => .nan
  | .infinity negative => if negative then .nan else .infinity false
  | .finite negative units fits =>
    if units = 0 then .finite negative units fits
    else if negative then .nan
    else ofSquare (units * 2 ^ unitBits)

/-- The longest side of a right triangle with legs `a` and `b`, the longer leg first: the root `h`
    of the sum of squares, less its excess `(h² - a² - b²) / 2h`. The excess is summed from
    products of differences, so that it keeps its digits. -/
def longestSide (a b : Binary64) : Binary64 :=
  let h := (a * a + b * b).sqrt
  let excess :=
    if h ≤ b + b then
      let d := h - b
      a * ((d + d) - a) + (d - ((a - b) + (a - b))) * d
    else
      let d := h - a
      (d + d) * (a - (b + b)) + ((4 * d - b) * b + d * d)
  h - excess / (h + h)

/-- The longest side for legs of any size, the longer one first. Legs too large or too small to
    be squared are scaled, and a leg below the last digit of the other one is just added. -/
def longestSideScaled (a b : Binary64) : Binary64 :=
  if b.magnitude * 2 ^ (54 : Nat) ≤ a.magnitude then a + b
  else if one * 2 ^ (511 : Nat) < a.magnitude then
    longestSide (a / ofNat (2 ^ (600 : Nat))) (b / ofNat (2 ^ (600 : Nat))) * ofNat (2 ^ (600 : Nat))
  else if b.magnitude * 2 ^ (459 : Nat) < one then
    longestSide (a * ofNat (2 ^ (600 : Nat))) (b * ofNat (2 ^ (600 : Nat))) / ofNat (2 ^ (600 : Nat))
  else longestSide a b

/-- The length of the vector `(a, b)`. It is not let out of the range from the longer leg to the sum
    of both, so it is finite wherever that sum is. -/
def hypot : Binary64 → Binary64 → Binary64
  | .infinity _, _ => .infinity false
  | _, .infinity _ => .infinity false
  | .nan, _ => .nan
  | _, .nan => .nan
  | .finite _ u f, .finite _ v g =>
    let a : Binary64 := if u < v then .finite false v g else .finite false u f
    let b : Binary64 := if u < v then .finite false u f else .finite false v g
    let length := longestSideScaled a b
    if length < a then a else length.smaller (a + b)

/-! ## Powers and bounds -/

def square (x : Binary64) : Binary64 := x * x

/-- A polynomial with the given coefficients, that of the highest power first, rounded once
    for each power. -/
def polynomial (x : Binary64) : List Binary64 → Binary64
  | [] => 0
  | c :: rest => rest.foldl (fun sum c => sum.mulAdd x c) c

/-- A finite number moved into `[-limit, limit]`, and zero for all else. -/
def held (x limit : Binary64) : Binary64 :=
  match x with
  | .finite negative units fits =>
    if units ≤ limit.magnitude then .finite negative units fits else limit.negIf negative
  | _ => zero false

/-! ## Laws of signs -/

theorem neg_neg (x : Binary64) : x.neg.neg = x := by
  cases x with
  | nan => rfl
  | infinity s => exact congrArg Binary64.infinity (Bool.not_not s)
  | finite s u f => exact congrArg (Binary64.finite · u f) (Bool.not_not s)

theorem negIf_not (x : Binary64) (negative : Bool) : x.negIf (!negative) = (x.negIf negative).neg := by
  cases negative with
  | false => rfl
  | true => exact (neg_neg x).symm

end Binary64
end LightCone
