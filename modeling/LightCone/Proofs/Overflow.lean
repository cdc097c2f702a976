import LightCone.Proofs.Nearest

/-!
Results past the largest number.

An operation on finite numbers gives an infinity where its exact result is too large to be rounded to
a number. This file

1. finds the least count of units that is rounded so (`roundUnits_lt_overflow_iff`), and with it the
   least value (`overflowPoint`): a result is finite just if it is rounded from below that point
   (`Rounds.isFinite_iff`);
2. gives the largest value that a number has, half a last place below (`HasValue.abs_le_largest`);
3. puts the order of numbers, infinities included, in terms of their places in it (`le_iff_rank`).
-/
namespace LightCone.Binary64

-- A power of naturals is the one of the core library, whatever else is in scope.
attribute [local instance (high)] instPowNat

/-! ## Counts of units -/

theorem overflow_eq : overflow = 2 ^ (1024 + unitBits) := by
  have hbits : 1024 + unitBits = 2098 := by
    unfold unitBits
    rfl
  unfold overflow
  rw [hbits]

/-- The least count of units that is rounded to an infinity: half a last place below overflow. -/
@[irreducible] def overflowUnits : Nat := overflow - 2 ^ (970 + unitBits)

theorem overflowUnits_add : overflowUnits + 2 ^ (970 + unitBits) = overflow := by
  have hle : 2 ^ (970 + unitBits) ≤ overflow := by
    rw [overflow_eq]
    exact Nat.pow_le_pow_right Nat.two_pos (by omega)
  unfold overflowUnits
  exact Nat.sub_add_cancel hle

/-- It is as far from the largest number as from overflow, whose count is the even one. -/
theorem roundUnits_overflowUnits : roundUnits overflowUnits 1 = overflow := by
  unfold overflowUnits overflow unitBits
  decide +kernel

section Units

variable {num den : Nat}

theorem roundUnits_lt_overflow_iff (hden : 0 < den) :
    roundUnits num den < overflow ↔ num < overflowUnits * den := by
  refine ⟨?_, ?_⟩
  · intro hless
    by_contra hmore
    have hle : overflowUnits * den ≤ num * 1 := by omega
    have hround := roundUnits_le_of_le Nat.one_pos hden hle
    rw [roundUnits_overflowUnits] at hround
    omega
  · intro hless
    have hpoint := overflowUnits_add
    have hlost : lostBits num den ≤ 971 + unitBits := by
      have hfloor : num / den < 2 ^ (1024 + unitBits) := by
        rw [← overflow_eq]
        exact ((Nat.div_lt_iff_lt_mul hden).mpr hless).trans_le (Nat.le.intro hpoint)
      unfold lostBits
      by_cases hzero : num / den = 0
      · rw [hzero, Nat.log2_zero]
        omega
      · have hlog := (Nat.log2_lt hzero).mpr hfloor
        omega
    rcases Nat.lt_or_eq_of_le hlost with hfewer | hmost
    · calc roundUnits num den ≤ 2 ^ (53 + lostBits num den) := roundUnits_le_pow num den
        _ < 2 ^ (1024 + unitBits) := Nat.pow_lt_pow_right Nat.one_lt_two (by omega)
        _ = overflow := overflow_eq.symm
    · -- Here `2 ^ 53` last places make up overflow, and as many are not rounded to from below the point.
      have hplaces : overflow = 2 ^ 53 * 2 ^ (971 + unitBits) := by
        rw [overflow_eq, ← Nat.pow_add]
        exact congrArg (2 ^ ·) (by omega)
      have hhalf : 2 ^ (971 + unitBits) = 2 * 2 ^ (970 + unitBits) := by
        rw [← Nat.pow_succ']
        exact congrArg (2 ^ ·) (by omega)
      obtain ⟨-, hupper, -⟩ := roundHalfEven_spec num (Nat.mul_pos hden (Nat.two_pow_pos _))
      rw [roundUnits_eq, hmost, hplaces]
      refine Nat.mul_lt_mul_of_pos_right ?_ (Nat.two_pow_pos _)
      rw [hplaces] at hpoint
      generalize roundHalfEven num (den * 2 ^ (971 + unitBits)) = k at hupper
      rw [hhalf] at hpoint hupper
      generalize 2 ^ (970 + unitBits) = half at hpoint hupper
      have hunits : overflowUnits * den = 18014398509481983 * (den * half) := by
        have hfew : overflowUnits = 18014398509481983 * half := by omega
        rw [hfew]
        ring
      have hlast : den * (2 * half) = 2 * (den * half) := by ring
      rw [hunits] at hless
      rw [hlast] at hupper
      generalize den * half = part at hless hupper
      by_contra hmany
      have hmul := Nat.mul_le_mul_right (2 * part) (Nat.not_lt.mp hmany)
      have hsame : 2 * k * (2 * part) = 2 * (k * (2 * part)) := Nat.mul_assoc ..
      omega

/-- A count of 53 bits below overflow is a whole last place below it. -/
theorem Fits.add_le_overflow {u : Nat} (h : Fits u) : u + 2 ^ (971 + unitBits) ≤ overflow := by
  obtain ⟨hless, hdvd⟩ := h
  rw [overflow_eq] at hless ⊢
  rcases Nat.lt_or_ge u (2 ^ (1023 + unitBits)) with hsmall | hlarge
  · have hdouble : 2 ^ (1024 + unitBits) = 2 * 2 ^ (1023 + unitBits) := by
      rw [← Nat.pow_succ']
      exact congrArg (2 ^ ·) (by omega)
    have hplace : 2 ^ (971 + unitBits) ≤ 2 ^ (1023 + unitBits) :=
      Nat.pow_le_pow_right Nat.two_pos (by omega)
    omega
  · have hsome : u ≠ 0 := (Nat.lt_of_lt_of_le (Nat.two_pow_pos _) hlarge).ne'
    have hlog : u.log2 = 1023 + unitBits :=
      (Nat.log2_eq_iff hsome).mpr ⟨hlarge, hless.trans_le (Nat.pow_le_pow_right Nat.two_pos (by omega))⟩
    have hlast : 2 ^ (971 + unitBits) ∣ u := by
      rw [hlog] at hdvd
      exact Nat.dvd_trans (Nat.pow_dvd_pow 2 (by omega)) hdvd
    exact add_le_of_dvd hlast (Nat.pow_dvd_pow 2 (by omega)) hless

end Units

/-! ## Values -/

/-- The least value that is rounded to an infinity. -/
def overflowPoint : ℚ := 2 ^ 1024 - 2 ^ 970

/-- The value of the largest number. -/
def largest : ℚ := 2 ^ 1024 - 2 ^ 971

section Values

variable {x y : Binary64} {p q : ℚ}

theorem two_pow_mul_one (k : Nat) : (2 ^ k * one : ℚ) = (2 ^ (k + unitBits) : Nat) := by
  unfold one
  rw [Nat.pow_add, Nat.cast_mul, Nat.cast_pow, Nat.cast_pow, Nat.cast_two]

theorem overflowPoint_mul_one : overflowPoint * one = overflowUnits := by
  have hpoint : (overflowUnits + (2 ^ (970 + unitBits) : Nat) : ℚ) = (2 ^ (1024 + unitBits) : Nat) := by
    rw [← overflow_eq]
    exact_mod_cast overflowUnits_add
  rw [overflowPoint, sub_mul, two_pow_mul_one, two_pow_mul_one, ← hpoint, add_sub_cancel_right]

theorem nearestUnits_lt_overflow_iff (q : ℚ) :
    nearestUnits |q| < overflow ↔ |q| < overflowPoint := by
  obtain ⟨num, den, hden, hratio⟩ := exists_ratio q
  have hden' : (0 : ℚ) < den := Nat.cast_pos.mpr hden
  have hmin : min (roundUnits num den) overflow < overflow ↔ roundUnits num den < overflow := by
    omega
  rw [nearestUnits_of_ratio hden hratio, hmin, roundUnits_lt_overflow_iff hden,
    ← mul_lt_mul_iff_left₀ one_pos_rat, hratio, overflowPoint_mul_one, div_lt_iff₀ hden']
  norm_cast

/-- A result is finite just if it is rounded from below the point. -/
theorem Rounds.isFinite_iff (h : Rounds x q) : x.isFinite = true ↔ |q| < overflowPoint := by
  have hvalue := h.toRat_eq
  rw [← nearestUnits_lt_overflow_iff]
  cases x with
  | nan => exact absurd h.number Bool.noConfusion
  | infinity s =>
    rw [nearest, toRat, div_left_inj' one_pos_rat.ne', Int.cast_inj] at hvalue
    have habs := congrArg Int.natAbs hvalue
    rw [natAbs_signed, natAbs_signed] at habs
    simp [isFinite, ← habs]
  | finite s u f =>
    rw [nearest, toRat, div_left_inj' one_pos_rat.ne', Int.cast_inj] at hvalue
    have habs := congrArg Int.natAbs hvalue
    rw [natAbs_signed, natAbs_signed] at habs
    simp [isFinite, ← habs, f.1]

theorem Rounds.hasValue_of_lt (h : Rounds x q) (hless : |q| < overflowPoint) :
    HasValue x (nearest q) := h.hasValue (h.isFinite_iff.mpr hless)

/-- A number is what its value is rounded to. -/
theorem HasValue.rounds (h : HasValue x q) : Rounds x q := by
  refine ⟨?_, h.toRat_eq.trans h.nearest_eq.symm⟩
  obtain ⟨s, u, f, rfl, -⟩ := h.eq_finite
  rfl

theorem HasValue.abs_lt_overflowPoint (h : HasValue x q) : |q| < overflowPoint :=
  h.rounds.isFinite_iff.mp h.finite

theorem abs_mul_one_of_signed {negative : Bool} {units : Nat} (h : q * one = signed negative units) :
    |q| * one = units := by
  have habs := congrArg (|·|) h
  simp only [abs_mul, abs_of_pos one_pos_rat] at habs
  rw [habs, ← Int.cast_abs, ← Nat.cast_natAbs, natAbs_signed]

theorem HasValue.abs_le_largest (h : HasValue x q) : |q| ≤ largest := by
  obtain ⟨s, u, f, rfl, hq⟩ := h.eq_finite
  have hunits := abs_mul_one_of_signed hq
  have hle : (u + (2 ^ (971 + unitBits) : Nat) : ℚ) ≤ (2 ^ (1024 + unitBits) : Nat) := by
    rw [← overflow_eq]
    exact_mod_cast f.add_le_overflow
  rw [← mul_le_mul_iff_of_pos_right one_pos_rat, hunits, largest, sub_mul, two_pow_mul_one,
    two_pow_mul_one]
  linarith

/-- A little more than the largest value is still rounded to it. -/
theorem largest_add_lt : largest + 2 ^ 100 < overflowPoint := by
  have hhalf : (2 ^ 971 : ℚ) = 2 ^ 970 * 2 := pow_succ 2 970
  have hless : (2 ^ 100 : ℚ) < 2 ^ 970 := pow_lt_pow_right₀ (by norm_num) (by omega)
  unfold largest overflowPoint
  generalize (2 : ℚ) ^ 1024 = a
  generalize (2 : ℚ) ^ 971 = b at hhalf ⊢
  generalize (2 : ℚ) ^ 970 = c at hhalf hless ⊢
  linarith

end Values

/-! ## The order of numbers -/

section Order

variable {a b c : Binary64}

theorem lt_iff_rank : a < b ↔ ∃ x y, a.rank = some x ∧ b.rank = some y ∧ x < y := by
  show a.lt b = true ↔ _
  unfold lt
  cases a.rank <;> cases b.rank <;> simp

theorem le_iff_rank : a ≤ b ↔ ∃ x y, a.rank = some x ∧ b.rank = some y ∧ x ≤ y := by
  show a.le b = true ↔ _
  unfold le
  cases a.rank <;> cases b.rank <;> simp

protected theorem lt_of_le_of_lt (hab : a ≤ b) (hbc : b < c) : a < c := by
  obtain ⟨x, y, hx, hy, hle⟩ := le_iff_rank.mp hab
  obtain ⟨y', z, hy', hz, hlt⟩ := lt_iff_rank.mp hbc
  have hsame : y = y' := by
    rw [hy] at hy'
    exact Option.some.inj hy'
  exact lt_iff_rank.mpr ⟨x, z, hx, hz, by omega⟩

protected theorem lt_of_lt_of_le (hab : a < b) (hbc : b ≤ c) : a < c := by
  obtain ⟨x, y, hx, hy, hlt⟩ := lt_iff_rank.mp hab
  obtain ⟨y', z, hy', hz, hle⟩ := le_iff_rank.mp hbc
  have hsame : y = y' := by
    rw [hy] at hy'
    exact Option.some.inj hy'
  exact lt_iff_rank.mpr ⟨x, z, hx, hz, by omega⟩

protected theorem le_trans (hab : a ≤ b) (hbc : b ≤ c) : a ≤ c := by
  obtain ⟨x, y, hx, hy, hle⟩ := le_iff_rank.mp hab
  obtain ⟨y', z, hy', hz, hle'⟩ := le_iff_rank.mp hbc
  have hsame : y = y' := by
    rw [hy] at hy'
    exact Option.some.inj hy'
  exact le_iff_rank.mpr ⟨x, z, hx, hz, by omega⟩

protected theorem not_lt_of_le (h : a ≤ b) : ¬ b < a := by
  intro hlt
  obtain ⟨x, y, hx, hy, hless⟩ := lt_iff_rank.mp (Binary64.lt_of_le_of_lt h hlt)
  rw [hx] at hy
  cases hy
  exact lt_irrefl _ hless

theorem exists_rank (h : a.isNaN = false) : ∃ r : Int, a.rank = some r ∧ a.toRat = r / one := by
  cases a with
  | nan => cases h
  | infinity s => exact ⟨_, rfl, rfl⟩
  | finite s u f => exact ⟨_, rfl, rfl⟩

/-- Numbers compare as their values do, infinities included. -/
theorem le_iff_toRat (ha : a.isNaN = false) (hb : b.isNaN = false) : a ≤ b ↔ a.toRat ≤ b.toRat := by
  obtain ⟨x, hx, hx'⟩ := exists_rank ha
  obtain ⟨y, hy, hy'⟩ := exists_rank hb
  rw [hx', hy', div_le_div_iff_of_pos_right one_pos_rat, Int.cast_le]
  show a.le b = true ↔ _
  simp [le, hx, hy]

protected theorem le_of_not_lt (ha : a.isNaN = false) (hb : b.isNaN = false) (h : ¬ b < a) : a ≤ b := by
  obtain ⟨x, hx, -⟩ := exists_rank ha
  obtain ⟨y, hy, -⟩ := exists_rank hb
  refine le_iff_rank.mpr ⟨x, y, hx, hy, ?_⟩
  by_contra hless
  exact h (lt_iff_rank.mpr ⟨y, x, hy, hx, not_le.mp hless⟩)

/-- A larger value is not rounded to a smaller number. -/
theorem Rounds.le {p q : ℚ} (ha : Rounds a p) (hb : Rounds b q) (h : p ≤ q) : a ≤ b := by
  rw [le_iff_toRat ha.number hb.number, ha.toRat_eq, hb.toRat_eq]
  exact nearest_mono h

/-- What lies between two finite numbers is finite. -/
theorem isFinite_of_between (hlow : a.isFinite = true)
    (hhigh : b.isFinite = true) (hnumber : c.isNaN = false) (hle : ¬ c < a) (hge : ¬ b < c) :
    c.isFinite = true := by
  cases c with
  | nan => cases hnumber
  | finite s u f => rfl
  | infinity s =>
    cases a with
    | nan => cases hlow
    | infinity t => cases hlow
    | finite t u f =>
    cases b with
    | nan => cases hhigh
    | infinity r => cases hhigh
    | finite r v g =>
      have hless := f.1
      have hless' := g.1
      cases s with
      | true =>
        refine absurd (lt_iff_rank.mpr ⟨_, _, rfl, rfl, ?_⟩) hle
        cases t <;> simp only [signed, Bool.false_eq_true, if_true, if_false] <;> omega
      | false =>
        refine absurd (lt_iff_rank.mpr ⟨_, _, rfl, rfl, ?_⟩) hge
        cases r <;> simp only [signed, Bool.false_eq_true, if_true, if_false] <;> omega

theorem isFinite_of_mem (hlow : a.isFinite = true) (hhigh : b.isFinite = true) (hle : a ≤ c)
    (hge : c ≤ b) : c.isFinite = true := by
  obtain ⟨x, y, hx, hy, -⟩ := le_iff_rank.mp hle
  have hnumber : c.isNaN = false := by
    cases c with
    | nan => cases hy
    | infinity s => rfl
    | finite s u f => rfl
  exact isFinite_of_between hlow hhigh hnumber (Binary64.not_lt_of_le hle) (Binary64.not_lt_of_le hge)

/-- So is a number that is moved there. -/
theorem exists_hasValue_clamp {p q : ℚ} (hnumber : c.isNaN = false) (hlow : HasValue a p)
    (hhigh : HasValue b q) (hpq : p ≤ q) : ∃ r, HasValue (c.clamp a b) r ∧ p ≤ r ∧ r ≤ q := by
  unfold clamp
  split
  · exact ⟨p, hlow, le_rfl, hpq⟩
  · next hle =>
    split
    · exact ⟨q, hhigh, hpq, le_rfl⟩
    · next hge =>
      have hvalue : HasValue c c.toRat :=
        ⟨isFinite_of_between hlow.finite hhigh.finite hnumber hle hge, rfl⟩
      rw [hvalue.lt_iff hlow, not_lt] at hle
      rw [hhigh.lt_iff hvalue, not_lt] at hge
      exact ⟨_, hvalue, hle, hge⟩

end Order
end LightCone.Binary64
