import LightCone.Binary64.Basic
import Mathlib.Algebra.Order.Field.Rat
import Mathlib.Data.Rat.Lemmas
import Mathlib.Tactic.FieldSimp
import Mathlib.Tactic.Linarith
import Mathlib.Tactic.LinearCombination
import Mathlib.Tactic.Positivity
import Mathlib.Tactic.Ring

/-!
Binary64 arithmetic as the arithmetic of rational numbers, rounded.

The definitions count units and take bits off quotients. Proofs about several operations in a row
need what that comes to: each result is the exact result of the operation, rounded by one function
on rational numbers, which keeps the order and changes a value by little. This file

1. shows that the nearest integer is nearest and keeps the order (`roundHalfEven_spec`,
   `roundHalfEven_le_of_le`), and carries both over to counts of 53 bits
   (`roundUnits_le_of_le`, `abs_roundUnits_sub_le`);
2. gives numbers their values (`HasValue`) and rounds values (`nearest`, `nearest_mono`); the value of a
   sum, difference, product or quotient is the rounded one (`HasValue.add` and the others), which past
   the largest number stands for an infinity (`Rounds`), and numbers compare as their values do;
3. bounds what rounding changes (`abs_nearest_sub_le`), and says which values it keeps
   (`nearest_eq_of_units`) or goes back to (`nearest_add_of_lt_one`).

Where results have to be finite, values are kept below `sight`, far from overflow.
-/
namespace LightCone

-- A power of naturals is the one of the core library, whatever else is in scope.
attribute [local instance (high)] instPowNat

/-! ## The nearest integer -/

section Integers

variable {a b c d : Nat}

/-- No integer is nearer, and at the same distance from two the result is even. -/
theorem roundHalfEven_spec (num : Nat) {den : Nat} (hden : 0 < den) :
    2 * num ≤ (2 * roundHalfEven num den + 1) * den ∧
    2 * roundHalfEven num den * den ≤ 2 * num + den ∧
    (2 * num = (2 * roundHalfEven num den + 1) * den ∨
      2 * roundHalfEven num den * den = 2 * num + den → roundHalfEven num den % 2 = 0) := by
  have hnum := Nat.div_add_mod num den
  have hmod := Nat.mod_lt num hden
  simp only [roundHalfEven]
  generalize num / den = q at hnum
  generalize num % den = r at hnum hmod
  subst hnum
  split
  · refine ⟨by nlinarith, by nlinarith, ?_⟩
    rintro (h | h) <;> nlinarith
  · split
    · refine ⟨by nlinarith, by nlinarith, ?_⟩
      rintro (h | h) <;> nlinarith
    · have hhalf : 2 * r = den := by omega
      subst hhalf
      rcases Nat.mod_two_eq_zero_or_one q with hq | hq
      · rw [hq]
        refine ⟨by nlinarith, by nlinarith, fun _ => by omega⟩
      · rw [hq]
        refine ⟨by nlinarith, by nlinarith, fun _ => by omega⟩

/-- A larger quotient has no smaller nearest integer. -/
theorem roundHalfEven_le_of_le (hb : 0 < b) (hd : 0 < d) (h : a * d ≤ c * b) :
    roundHalfEven a b ≤ roundHalfEven c d := by
  obtain ⟨_, hupper, heven⟩ := roundHalfEven_spec a hb
  obtain ⟨hlower, _, heven'⟩ := roundHalfEven_spec c hd
  by_contra hlt
  generalize roundHalfEven a b = r at *
  generalize roundHalfEven c d = s at *
  -- Both quotients would be the half between `s` and `r = s + 1`, one of which is odd.
  have hchain : 2 * r * b * d ≤ (2 * s + 1) * d * b + b * d := by nlinarith
  have hpos : 0 < b * d := Nat.mul_pos hb hd
  have hr : r = s + 1 := by
    have hle : 2 * r ≤ 2 * s + 2 := by
      by_contra hmore
      nlinarith
    omega
  subst hr
  have htie : 2 * (s + 1) * b = 2 * a + b := by nlinarith
  have htie' : 2 * c = (2 * s + 1) * d := by nlinarith
  have := heven (.inr htie)
  have := heven' (.inl htie')
  omega

end Integers

/-! ## The nearest count of units -/

namespace Binary64

section Units

variable {num den num' den' : Nat}

/-- The number of binary digits that are lost when a quotient is rounded. -/
def lostBits (num den : Nat) : Nat := (num / den).log2 - 52

theorem roundUnits_eq (num den : Nat) : roundUnits num den =
    roundHalfEven num (den * 2 ^ lostBits num den) * 2 ^ lostBits num den := rfl

theorem div_le_div_of_mul_le (hden : 0 < den) (hden' : 0 < den') (h : num * den' ≤ num' * den) :
    num / den ≤ num' / den' := by
  rw [Nat.le_div_iff_mul_le hden']
  have hfloor := Nat.div_mul_le_self num den
  nlinarith

theorem lostBits_le_lostBits (h : num / den ≤ num' / den') : lostBits num den ≤ lostBits num' den' := by
  unfold lostBits
  by_cases hzero : num / den = 0
  · simp [hzero]
  · have hself := Nat.log2_self_le hzero
    have hlog : (num / den).log2 ≤ (num' / den').log2 :=
      (Nat.le_log2 (Nat.ne_of_gt (Nat.lt_of_lt_of_le (Nat.pos_of_ne_zero hzero) h))).mpr
        (Nat.le_trans hself h)
    omega

theorem roundUnits_le_pow (num den : Nat) : roundUnits num den ≤ 2 ^ (53 + lostBits num den) := by
  have hk : roundHalfEven num (den * 2 ^ lostBits num den) ≤ 2 ^ 53 := by
    have h := roundHalfEven_le_div_succ num (den * 2 ^ lostBits num den)
    have := div_lt_two_pow_53 (num / den)
    rw [← Nat.div_div_eq_div_mul] at h
    unfold lostBits at h ⊢
    omega
  rw [roundUnits_eq, Nat.pow_add]
  exact Nat.mul_le_mul_right _ hk

/-- Where digits are lost, the quotient has more than 53. -/
theorem pow_le_div (hlost : 0 < lostBits num den) : 2 ^ (52 + lostBits num den) ≤ num / den := by
  have hlog : (num / den).log2 = 52 + lostBits num den := by
    unfold lostBits at hlost ⊢
    omega
  rw [← hlog]
  refine Nat.log2_self_le fun hzero => ?_
  rw [hzero, Nat.log2_zero] at hlog
  omega

/-- What is left of them begins with a digit that counts. -/
theorem pow_le_roundUnits (hlost : 0 < lostBits num den) :
    2 ^ (52 + lostBits num den) ≤ roundUnits num den := by
  have hself := pow_le_div hlost
  have hk : 2 ^ 52 ≤ roundHalfEven num (den * 2 ^ lostBits num den) := by
    refine Nat.le_trans ?_ (div_le_roundHalfEven _ _)
    rw [← Nat.div_div_eq_div_mul, Nat.le_div_iff_mul_le (Nat.two_pow_pos _), ← Nat.pow_add]
    exact hself
  rw [roundUnits_eq, Nat.pow_add]
  exact Nat.mul_le_mul_right _ hk

theorem roundUnits_le_of_le (hden : 0 < den) (hden' : 0 < den') (h : num * den' ≤ num' * den) :
    roundUnits num den ≤ roundUnits num' den' := by
  have hlost := lostBits_le_lostBits (div_le_div_of_mul_le hden hden' h)
  rcases Nat.lt_or_eq_of_le hlost with hless | hsame
  -- The larger one is past the power of two that the smaller one reaches at most.
  · calc roundUnits num den ≤ 2 ^ (53 + lostBits num den) := roundUnits_le_pow num den
      _ ≤ 2 ^ (52 + lostBits num' den') := Nat.pow_le_pow_right (by omega) (by omega)
      _ ≤ roundUnits num' den' := pow_le_roundUnits (by omega)
  · rw [roundUnits_eq, roundUnits_eq, hsame]
    have hpow : 0 < 2 ^ lostBits num' den' := Nat.two_pow_pos _
    refine Nat.mul_le_mul_right _ (roundHalfEven_le_of_le (Nat.mul_pos hden hpow)
      (Nat.mul_pos hden' hpow) ?_)
    rw [← Nat.mul_assoc, ← Nat.mul_assoc]
    exact Nat.mul_le_mul_right _ h

/-- A quotient is rounded by its value. -/
theorem roundUnits_congr (hden : 0 < den) (hden' : 0 < den') (h : num * den' = num' * den) :
    roundUnits num den = roundUnits num' den' :=
  Nat.le_antisymm (roundUnits_le_of_le hden hden' (Nat.le_of_eq h))
    (roundUnits_le_of_le hden' hden (Nat.le_of_eq h.symm))

theorem add_le_of_dvd {p x y : Nat} (hx : p ∣ x) (hy : p ∣ y) (h : x < y) : x + p ≤ y := by
  have hle : p ≤ y - x := Nat.le_of_dvd (Nat.sub_pos_of_lt h) (Nat.dvd_sub hy hx)
  omega

/-- A count of 53 bits is what every quotient rounds to that is past it by less than half of its
    last place. -/
theorem roundUnits_of_near {u : Nat} (hden : 0 < den) (hu : 2 ^ (u.log2 - 52) ∣ u)
    (hlower : u * den ≤ num) (hupper : 2 * num < (2 * u + 2 ^ (u.log2 - 52)) * den) :
    roundUnits num den = u := by
  have hle : u ≤ num / den := (Nat.le_div_iff_mul_le hden).mpr hlower
  have hpow : 0 < 2 ^ (u.log2 - 52) := Nat.two_pow_pos _
  have hlt : num / den < u + 2 ^ (u.log2 - 52) := by
    rw [Nat.div_lt_iff_lt_mul hden]
    nlinarith
  -- The quotient has as many digits as the count.
  have hlost : lostBits num den = u.log2 - 52 := by
    have hend : u + 2 ^ (u.log2 - 52) ≤ 2 ^ (u.log2 + 1) :=
      add_le_of_dvd hu (Nat.pow_dvd_pow 2 (by omega)) Nat.lt_log2_self
    unfold lostBits
    by_cases hzero : u = 0
    · subst hzero
      have : num / den = 0 := by simpa using hlt
      rw [this]
    · have hlog : (num / den).log2 = u.log2 := by
        rw [Nat.log2_eq_iff (by omega)]
        exact ⟨Nat.le_trans (Nat.log2_self_le hzero) hle, Nat.lt_of_lt_of_le hlt hend⟩
      rw [hlog]
  obtain ⟨k, hk⟩ := hu
  rw [roundUnits_eq, hlost]
  generalize 2 ^ (u.log2 - 52) = place at hk hupper hpow
  subst hk
  have hplace : 0 < den * place := Nat.mul_pos hden hpow
  have hquotient : num / (den * place) = k :=
    Nat.div_eq_of_lt_le (by nlinarith) (by nlinarith)
  have hrest : 2 * (num % (den * place)) < den * place := by
    have hsplit := Nat.div_add_mod num (den * place)
    rw [hquotient] at hsplit
    nlinarith
  simp only [roundHalfEven, hquotient, if_pos hrest]
  exact Nat.mul_comm _ _

/-- Counts of 53 bits are not changed. -/
theorem roundUnits_of_dvd {u : Nat} (hden : 0 < den) (hu : 2 ^ (u.log2 - 52) ∣ u) :
    roundUnits (u * den) den = u := by
  have hpow : 0 < 2 ^ (u.log2 - 52) := Nat.two_pow_pos _
  exact roundUnits_of_near hden hu (Nat.le_refl _) (by nlinarith)

theorem roundUnits_two_pow (k : Nat) : roundUnits (2 ^ k) 1 = 2 ^ k := by
  have hfits : 2 ^ ((2 ^ k : Nat).log2 - 52) ∣ 2 ^ k := by
    rw [Nat.log2_two_pow]
    exact Nat.pow_dvd_pow 2 (Nat.sub_le _ _)
  have hself := roundUnits_of_dvd Nat.one_pos hfits
  rwa [Nat.mul_one] at hself

/-- Rounding changes a quotient by half of its last place at most. -/
theorem abs_roundUnits_sub_le_place (num : Nat) (hden : 0 < den) :
    |(roundUnits num den : ℚ) - num / den| ≤ 2 ^ lostBits num den / 2 := by
  have hpow : 0 < 2 ^ lostBits num den := Nat.two_pow_pos _
  obtain ⟨hlower, hupper, _⟩ := roundHalfEven_spec num (Nat.mul_pos hden hpow)
  rw [roundUnits_eq]
  generalize roundHalfEven num (den * 2 ^ lostBits num den) = k at hlower hupper
  have hden' : (0 : ℚ) < den := by exact_mod_cast hden
  have hlower' : (2 * num : ℚ) ≤ (2 * k + 1) * (den * 2 ^ lostBits num den) := by
    exact_mod_cast hlower
  have hupper' : (2 * k * (den * 2 ^ lostBits num den) : ℚ) ≤ 2 * num + den * 2 ^ lostBits num den := by
    exact_mod_cast hupper
  push_cast
  rw [abs_le, neg_le_sub_iff_le_add, sub_le_iff_le_add, div_le_iff₀ hden']
  refine ⟨by linarith, ?_⟩
  rw [← sub_le_iff_le_add', le_div_iff₀ hden']
  linarith

/-- Where digits are lost, half of the last place is one part in `2 ^ 53` at most. -/
theorem place_le (hden : 0 < den) (hlost : 0 < lostBits num den) :
    (2 ^ lostBits num den / 2 : ℚ) ≤ num / den / 2 ^ 53 := by
  have hmul : 2 ^ (52 + lostBits num den) * den ≤ num :=
    (Nat.le_div_iff_mul_le hden).mp (pow_le_div hlost)
  have hmul' : (2 ^ 52 * 2 ^ lostBits num den * den : ℚ) ≤ num := by
    rw [← pow_add]
    exact_mod_cast hmul
  have hden' : (0 : ℚ) < den := by exact_mod_cast hden
  rw [div_div, le_div_iff₀ (by positivity)]
  linarith

/-- Rounding changes a quotient by one part in `2 ^ 53` and half a unit at most. -/
theorem abs_roundUnits_sub_le (num : Nat) (hden : 0 < den) :
    |(roundUnits num den : ℚ) - num / den| ≤ num / den / 2 ^ 53 + 1 / 2 := by
  refine (abs_roundUnits_sub_le_place num hden).trans ?_
  have hquotient : (0 : ℚ) ≤ num / den / 2 ^ 53 := by positivity
  rcases Nat.eq_zero_or_pos (lostBits num den) with hnone | hlost
  · rw [hnone]
    linarith
  · linarith [place_le hden hlost]

/-- A whole number of units is changed by one part in `2 ^ 53` at most. -/
theorem abs_roundUnits_sub_le_of_whole (n : Nat) : |(roundUnits n 1 : ℚ) - n| ≤ n / 2 ^ 53 := by
  have hplace := abs_roundUnits_sub_le_place n Nat.one_pos
  rcases Nat.eq_zero_or_pos (lostBits n 1) with hnone | hlost
  · have hwhole : roundUnits n 1 = n := by
      rw [roundUnits_eq, hnone]
      simpa using roundHalfEven_mul n Nat.one_pos
    rw [hwhole, sub_self, abs_zero]
    positivity
  · have hle := place_le Nat.one_pos hlost
    simp only [Nat.cast_one, div_one] at hplace hle
    exact hplace.trans hle

end Units

/-! ## Numbers by their values -/

theorem one_pos : 0 < one := Nat.two_pow_pos _

theorem one_pos_rat : (0 : ℚ) < one := Nat.cast_pos.mpr one_pos

theorem two_pow_le_one {k : Nat} (hk : k ≤ 1074) : (2 ^ k : ℚ) ≤ one := by
  have hle : 2 ^ k ≤ one := by
    unfold one unitBits
    generalize 1074 = bits at hk
    exact Nat.pow_le_pow_right Nat.two_pos hk
  exact_mod_cast hle

/-- The value of a number; an infinity is just past the largest ones. -/
def toRat : Binary64 → ℚ
  | nan => 0
  | infinity negative => signed negative overflow / one
  | finite negative units _ => signed negative units / one

/-- A finite number with a value. -/
structure HasValue (x : Binary64) (q : ℚ) : Prop where
  finite : x.isFinite = true
  toRat_eq : x.toRat = q

/-- The count of units that a value which is not negative rounds to, up to overflow. -/
def nearestUnits (q : ℚ) : Nat := min (roundUnits (q * one).num.natAbs (q * one).den) overflow

/-- The value that a value rounds to. -/
def nearest (q : ℚ) : ℚ := signed (q < 0) (nearestUnits |q|) / one

section Values

variable {p q : ℚ} {num den : Nat} {x y : Binary64}

theorem signed_neg (negative : Bool) (u : Nat) : signed (!negative) u = -signed negative u := by
  cases negative <;> simp [signed]

theorem nearestUnits_of_ratio (hden : 0 < den) (h : q * one = num / den) :
    nearestUnits q = min (roundUnits num den) overflow := by
  have hden' : (den : ℚ) ≠ 0 := by exact_mod_cast hden.ne'
  unfold nearestUnits
  rw [h]
  congr 1
  refine roundUnits_congr (Rat.den_pos _) hden ?_
  have hnum : 0 ≤ ((num / den : ℚ)).num := by
    rw [Rat.num_nonneg]
    positivity
  have hself := Rat.num_div_den (num / den : ℚ)
  rw [div_eq_div_iff (by exact_mod_cast (Rat.den_nz _)) hden'] at hself
  have hint : (num / den : ℚ).num * den = num * (num / den : ℚ).den := by exact_mod_cast hself
  zify
  rw [abs_of_nonneg hnum]
  exact hint

theorem nearestUnits_le_of_le (hp : 0 ≤ p) (h : p ≤ q) : nearestUnits p ≤ nearestUnits q := by
  have hle : p * one ≤ q * one := mul_le_mul_of_nonneg_right h one_pos_rat.le
  have hnum : 0 ≤ (p * one).num := Rat.num_nonneg.mpr (mul_nonneg hp one_pos_rat.le)
  have hnum' : 0 ≤ (q * one).num := Rat.num_nonneg.mpr (mul_nonneg (hp.trans h) one_pos_rat.le)
  refine min_le_min_right _ (roundUnits_le_of_le (Rat.den_pos _) (Rat.den_pos _) ?_)
  rw [Rat.le_iff] at hle
  zify
  rw [abs_of_nonneg hnum, abs_of_nonneg hnum']
  exact hle

theorem signed_eq_mul (negative : Bool) (u : Nat) : signed negative u = signed negative 1 * u := by
  cases negative <;> simp [signed]

theorem signed_xor (s t : Bool) : signed (s ^^ t) 1 = signed s 1 * signed t 1 := by
  cases s <;> cases t <;> rfl

theorem signed_zero (negative : Bool) : signed negative 0 = 0 := by
  cases negative <;> rfl

theorem natAbs_signed (negative : Bool) (u : Nat) : (signed negative u).natAbs = u := by
  cases negative <;> simp [signed]

theorem nearestUnits_zero : nearestUnits 0 = 0 := by
  rw [nearestUnits_of_ratio Nat.one_pos (by simp : (0 : ℚ) * one = (0 : Nat) / (1 : Nat))]
  have hzero : roundUnits 0 1 = 0 := by simpa using roundUnits_of_dvd (u := 0) Nat.one_pos (by simp)
  rw [hzero, Nat.zero_min]

theorem nearest_zero : nearest 0 = 0 := by
  simp [nearest, nearestUnits_zero, signed]

theorem nearest_of_nonneg (hq : 0 ≤ q) : nearest q = nearestUnits q / one := by
  simp [nearest, not_lt.mpr hq, abs_of_nonneg hq, signed]

theorem nearest_neg (q : ℚ) : nearest (-q) = -nearest q := by
  have habs : |-q| = |q| := abs_eq_abs.mpr (.inr rfl)
  rcases lt_trichotomy q 0 with hneg | rfl | hpos
  · simp only [nearest, habs, hneg, not_lt.mpr (neg_nonneg.mpr hneg.le), signed]
    simp only [decide_true, decide_false, if_true, Bool.false_eq_true, if_false, Int.cast_neg]
    ring
  · rw [neg_zero, nearest_zero, neg_zero]
  · simp only [nearest, habs, neg_lt_zero.mpr hpos, not_lt.mpr hpos.le, signed]
    simp only [decide_true, decide_false, if_true, Bool.false_eq_true, if_false, Int.cast_neg]
    ring

theorem nearest_nonneg (hq : 0 ≤ q) : 0 ≤ nearest q := by
  rw [nearest_of_nonneg hq]
  exact div_nonneg (Nat.cast_nonneg _) one_pos_rat.le

/-- Larger values are not rounded to smaller ones. -/
theorem nearest_mono (h : p ≤ q) : nearest p ≤ nearest q := by
  have hcase : ∀ {p q : ℚ}, 0 ≤ p → p ≤ q → nearest p ≤ nearest q := by
    intro p q hp hle
    rw [nearest_of_nonneg hp, nearest_of_nonneg (hp.trans hle)]
    exact div_le_div_of_nonneg_right (Nat.cast_le.mpr (nearestUnits_le_of_le hp hle)) one_pos_rat.le
  rcases le_total 0 p with hp | hp
  · exact hcase hp h
  · rcases le_total 0 q with hq | hq
    · have hneg := nearest_nonneg (neg_nonneg.mpr hp)
      rw [nearest_neg] at hneg
      linarith [nearest_nonneg hq]
    · have hflip := hcase (neg_nonneg.mpr hq) (neg_le_neg h)
      rw [nearest_neg, nearest_neg] at hflip
      linarith

theorem abs_mul_one_of_ratio {negative : Bool} (hq : q * one = signed negative 1 * (num / den)) :
    |q| * one = num / den := by
  have hnonneg : (0 : ℚ) ≤ num / den := by positivity
  have h := congrArg (|·|) hq
  simp only [abs_mul, abs_of_pos one_pos_rat, abs_of_nonneg hnonneg] at h
  rw [h]
  cases negative <;> simp [signed]

/-- A number that a value is rounded to; past the largest one it is an infinity. -/
structure Rounds (x : Binary64) (q : ℚ) : Prop where
  number : x.isNaN = false
  toRat_eq : x.toRat = nearest q

theorem Rounds.hasValue (h : Rounds x q) (hfinite : x.isFinite = true) : HasValue x (nearest q) :=
  ⟨hfinite, h.toRat_eq⟩

/-- A quotient of units with a sign is the value that `ofRatio` rounds. -/
theorem rounds_ofRatio {negative : Bool} (hden : 0 < den)
    (hq : q * one = signed negative 1 * (num / den)) : Rounds (ofRatio negative num den) q := by
  have hnonneg : (0 : ℚ) ≤ num / den := by positivity
  have habs := abs_mul_one_of_ratio hq
  have hunits := nearestUnits_of_ratio hden habs
  have hsign : signed negative (nearestUnits |q|) = signed (q < 0) (nearestUnits |q|) := by
    rcases hnonneg.lt_or_eq with hpos | hzero
    · have hsame : decide (q < 0) = negative := by
        cases negative with
        | false =>
          rw [decide_eq_false_iff_not, not_lt]
          refine nonneg_of_mul_nonneg_left ?_ one_pos_rat
          rw [hq]
          simpa [signed] using hnonneg
        | true =>
          rw [decide_eq_true_eq]
          refine neg_of_mul_neg_left ?_ one_pos_rat.le
          rw [hq]
          simpa [signed] using hpos
      rw [hsame]
    · have hzero' : q = 0 := by
        rw [← hzero] at habs
        simpa [one_pos_rat.ne'] using habs
      rw [hzero', abs_zero, nearestUnits_zero, signed_zero, signed_zero]
  have hvalue : nearest q = signed negative (min (roundUnits num den) overflow) / one := by
    rw [← hunits, hsign, nearest]
  unfold ofRatio
  split
  · next hfinite =>
    rw [Nat.min_eq_left hfinite.le] at hvalue
    exact ⟨rfl, hvalue.symm⟩
  · next hinfinite =>
    rw [Nat.min_eq_right (Nat.not_lt.mp hinfinite)] at hvalue
    exact ⟨rfl, hvalue.symm⟩

theorem hasValue_ofRatio {negative : Bool} (hden : 0 < den)
    (hq : q * one = signed negative 1 * (num / den)) (hfinite : roundUnits num den < overflow) :
    HasValue (ofRatio negative num den) (nearest q) := by
  refine (rounds_ofRatio hden hq).hasValue ?_
  unfold ofRatio
  rw [dif_pos hfinite]
  rfl

/-- The numbers in sight: far below overflow, and far above every count that occurs. -/
@[irreducible] def sight : ℚ := 2 ^ 1000

theorem two_pow_le_sight {k : Nat} (hk : k ≤ 1000) : (2 ^ k : ℚ) ≤ sight := by
  unfold sight
  exact pow_le_pow_right₀ (by norm_num) hk

theorem sight_mul_one : sight * one = (2 ^ (1000 + unitBits) : Nat) := by
  unfold sight one
  rw [pow_add, Nat.cast_mul, Nat.cast_pow, Nat.cast_pow, Nat.cast_two]

theorem nearestUnits_lt_overflow (hq : 0 ≤ q) (hsight : q ≤ sight) : nearestUnits q < overflow := by
  have hratio : sight * one = (2 ^ (1000 + unitBits) : Nat) / (1 : Nat) := by
    rw [sight_mul_one, Nat.cast_one, div_one]
  calc nearestUnits q ≤ nearestUnits sight := nearestUnits_le_of_le hq hsight
    _ = min (2 ^ (1000 + unitBits)) overflow := by
      rw [nearestUnits_of_ratio Nat.one_pos hratio, roundUnits_two_pow]
    _ ≤ 2 ^ (1000 + unitBits) := Nat.min_le_left _ _
    _ < overflow := by
      have hbits : 1000 + unitBits < 2098 := by
        unfold unitBits
        omega
      unfold overflow
      generalize 2098 = bits at hbits
      exact Nat.pow_lt_pow_right Nat.one_lt_two hbits

/-- In sight, values are rounded to finite numbers. -/
theorem Rounds.hasValue_of_sight (h : Rounds x q) (hsight : |q| ≤ sight) :
    HasValue x (nearest q) := by
  have hless := nearestUnits_lt_overflow (abs_nonneg q) hsight
  have hvalue := h.toRat_eq
  refine h.hasValue ?_
  cases x with
  | nan => exact absurd h.number Bool.noConfusion
  | finite s u f => rfl
  | infinity s =>
    -- An infinity is at overflow, which the value does not come near.
    rw [nearest, toRat, div_left_inj' one_pos_rat.ne', Int.cast_inj] at hvalue
    have habs := congrArg Int.natAbs hvalue
    rw [natAbs_signed, natAbs_signed] at habs
    omega

/-! ### The values of results -/

namespace HasValue

theorem eq_finite (h : HasValue x q) :
    ∃ negative units fits, x = .finite negative units fits ∧ q * one = signed negative units := by
  obtain ⟨hfinite, rfl⟩ := h
  cases x with
  | nan => cases hfinite
  | infinity s => cases hfinite
  | finite s u f => exact ⟨s, u, f, rfl, div_mul_cancel₀ _ one_pos_rat.ne'⟩

/-- A positive value is a count of units of 53 bits. -/
theorem exists_units (h : HasValue x q) (hq : 0 < q) : ∃ units, Fits units ∧ q * one = units := by
  obtain ⟨s, u, f, -, hu⟩ := h.eq_finite
  have hpos : 0 < q * one := mul_pos hq one_pos_rat
  cases s with
  | false => exact ⟨u, f, by rw [hu]; simp [signed]⟩
  | true =>
    have hneg : (signed true u : ℚ) ≤ 0 := by simp [signed]
    rw [hu] at hpos
    exact absurd hpos (not_lt.mpr hneg)

protected theorem neg (h : HasValue x q) : HasValue x.neg (-q) := by
  obtain ⟨hfinite, rfl⟩ := h
  cases x with
  | nan => cases hfinite
  | infinity s => cases hfinite
  | finite s u f =>
    refine ⟨rfl, ?_⟩
    show (signed (!s) u / one : ℚ) = -(signed s u / one)
    rw [signed_neg, Int.cast_neg]
    ring

/-- A value of 53 bits is not rounded. -/
theorem nearest_eq (h : HasValue x q) : nearest q = q := by
  obtain ⟨s, u, f, rfl, hq⟩ := h.eq_finite
  have hself := roundUnits_of_dvd Nat.one_pos f.2
  rw [Nat.mul_one] at hself
  have hvalue : HasValue (ofRatio s u 1) (nearest q) := by
    refine hasValue_ofRatio Nat.one_pos ?_ (by rw [hself]; exact f.1)
    rw [hq, signed_eq_mul]
    simp
  have hsame : ofRatio s u 1 = .finite s u f := by
    unfold ofRatio
    simp [hself, f.1]
  rw [hsame] at hvalue
  exact hvalue.toRat_eq.symm.trans h.toRat_eq

theorem rounds_add (hx : HasValue x p) (hy : HasValue y q) : Rounds (x + y) (p + q) := by
  obtain ⟨s, u, f, rfl, hp⟩ := hx.eq_finite
  obtain ⟨t, v, g, rfl, hq⟩ := hy.eq_finite
  have hsum : (p + q) * one = (signed s u + signed t v : Int) := by
    rw [add_mul, hp, hq, Int.cast_add]
  show Rounds (if signed s u + signed t v = 0 then zero (s && t)
    else ofRatio (signed s u + signed t v < 0) (signed s u + signed t v).natAbs 1) _
  generalize signed s u + signed t v = sum at hsum
  split
  · next hzero =>
    have hpq : p + q = 0 := by
      rw [hzero, Int.cast_zero] at hsum
      exact (mul_eq_zero.mp hsum).resolve_right one_pos_rat.ne'
    refine ⟨rfl, ?_⟩
    show (signed (s && t) 0 / one : ℚ) = nearest (p + q)
    rw [hpq, nearest_zero, signed_zero, Int.cast_zero, zero_div]
  · refine rounds_ofRatio Nat.one_pos ?_
    rw [hsum, Nat.cast_one, div_one]
    have hself : sum = signed (sum < 0) 1 * sum.natAbs := by
      unfold signed
      split <;> rename_i hsign <;> simp only [decide_eq_true_eq] at hsign <;> omega
    have hcast := congrArg (Int.cast (R := ℚ)) hself
    rwa [Int.cast_mul, Int.cast_natCast] at hcast

theorem rounds_sub (hx : HasValue x p) (hy : HasValue y q) : Rounds (x - y) (p - q) := by
  rw [sub_eq_add_neg]
  exact hx.rounds_add hy.neg

theorem rounds_mul (hx : HasValue x p) (hy : HasValue y q) : Rounds (x * y) (p * q) := by
  obtain ⟨s, u, f, rfl, hp⟩ := hx.eq_finite
  obtain ⟨t, v, g, rfl, hq⟩ := hy.eq_finite
  show Rounds (ofRatio (s ^^ t) (u * v) one) _
  refine rounds_ofRatio one_pos ?_
  rw [signed_eq_mul] at hp hq
  rw [signed_xor]
  have hone := one_pos_rat.ne'
  push_cast at hp hq ⊢
  field_simp
  linear_combination q * one * hp + signed s 1 * u * hq

theorem rounds_div (hx : HasValue x p) (hy : HasValue y q) (hzero : q ≠ 0) :
    Rounds (x / y) (p / q) := by
  obtain ⟨s, u, f, rfl, hp⟩ := hx.eq_finite
  obtain ⟨t, v, g, rfl, hq⟩ := hy.eq_finite
  have hv : v ≠ 0 := by
    rintro rfl
    rw [signed_zero, Int.cast_zero] at hq
    exact hzero ((mul_eq_zero.mp hq).resolve_right one_pos_rat.ne')
  show Rounds (if v = 0 then _ else ofRatio (s ^^ t) (u * one) v) _
  rw [if_neg hv]
  refine rounds_ofRatio (Nat.pos_of_ne_zero hv) ?_
  rw [signed_eq_mul] at hp hq
  rw [signed_xor]
  have hone := one_pos_rat.ne'
  have hv' : (v : ℚ) ≠ 0 := by exact_mod_cast hv
  have hsquare : (signed t 1 : ℚ) * signed t 1 = 1 := by cases t <;> simp [signed]
  push_cast at hp hq ⊢
  rw [div_mul_eq_mul_div, hp, div_eq_iff hzero, (eq_div_iff hone).mpr hq]
  field_simp
  linear_combination (-(signed s 1 : ℚ) * u) * hsquare

protected theorem add (hx : HasValue x p) (hy : HasValue y q) (hsight : |p + q| ≤ sight) :
    HasValue (x + y) (nearest (p + q)) := (hx.rounds_add hy).hasValue_of_sight hsight

protected theorem sub (hx : HasValue x p) (hy : HasValue y q) (hsight : |p - q| ≤ sight) :
    HasValue (x - y) (nearest (p - q)) := (hx.rounds_sub hy).hasValue_of_sight hsight

protected theorem mul (hx : HasValue x p) (hy : HasValue y q) (hsight : |p * q| ≤ sight) :
    HasValue (x * y) (nearest (p * q)) := (hx.rounds_mul hy).hasValue_of_sight hsight

protected theorem div (hx : HasValue x p) (hy : HasValue y q) (hzero : q ≠ 0)
    (hsight : |p / q| ≤ sight) : HasValue (x / y) (nearest (p / q)) :=
  (hx.rounds_div hy hzero).hasValue_of_sight hsight

theorem rank_eq (h : HasValue x q) : ∃ r : Int, x.rank = some r ∧ q * one = r := by
  obtain ⟨s, u, f, rfl, hq⟩ := h.eq_finite
  exact ⟨signed s u, rfl, hq⟩

protected theorem le_iff (hx : HasValue x p) (hy : HasValue y q) : x ≤ y ↔ p ≤ q := by
  obtain ⟨r, hr, hp⟩ := hx.rank_eq
  obtain ⟨t, ht, hq⟩ := hy.rank_eq
  rw [← mul_le_mul_iff_of_pos_right one_pos_rat, hp, hq, Int.cast_le]
  show x.le y = true ↔ _
  simp [le, hr, ht]

protected theorem lt_iff (hx : HasValue x p) (hy : HasValue y q) : x < y ↔ p < q := by
  obtain ⟨r, hr, hp⟩ := hx.rank_eq
  obtain ⟨t, ht, hq⟩ := hy.rank_eq
  rw [← mul_lt_mul_iff_left₀ one_pos_rat, hp, hq, Int.cast_lt]
  show x.lt y = true ↔ _
  simp [lt, hr, ht]

protected theorem clamp {low high : Binary64} {a b : ℚ} (hx : HasValue x q) (hlow : HasValue low a)
    (hhigh : HasValue high b) (hbounds : a ≤ b) : HasValue (x.clamp low high) (max a (min q b)) := by
  unfold Binary64.clamp
  split
  · next h =>
    rw [hx.lt_iff hlow] at h
    rwa [max_eq_left ((min_le_left _ _).trans h.le)]
  · next h =>
    rw [hx.lt_iff hlow, not_lt] at h
    split
    · next h' =>
      rw [hhigh.lt_iff hx] at h'
      rwa [min_eq_right h'.le, max_eq_right hbounds]
    · next h' =>
      rw [hhigh.lt_iff hx, not_lt] at h'
      rwa [min_eq_left h', max_eq_right h]

end HasValue

/-- A whole number is rounded like any value. -/
theorem rounds_ofNat (n : Nat) : Rounds (ofNat n) n := by
  refine rounds_ofRatio Nat.one_pos ?_
  simp [signed, one]

theorem hasValue_ofNat {n : Nat} (h : (n : ℚ) ≤ sight) : HasValue (ofNat n) (nearest n) := by
  have hsight : |(n : ℚ)| ≤ sight := by rwa [abs_of_nonneg (Nat.cast_nonneg n)]
  exact (rounds_ofNat n).hasValue_of_sight hsight

/-- So is a decimal fraction. -/
theorem rounds_decimal (digits places : Nat) :
    Rounds (OfScientific.ofScientific digits true places) (digits / 10 ^ places) := by
  cases places with
  | zero =>
    refine rounds_ofRatio Nat.one_pos ?_
    simp [signed, one]
  | succ k =>
    show Rounds (ofRatio false (digits * 2 ^ unitBits) (10 ^ (k + 1))) _
    refine rounds_ofRatio (Nat.pow_pos (by decide)) ?_
    simp only [signed, one]
    push_cast
    ring

/-! ### What rounding changes -/

theorem nearest_mul_one_of_nonneg (hden : 0 < den) (h : q * one = num / den) (hq : 0 ≤ q)
    (hsight : q ≤ sight) : nearest q * one = roundUnits num den := by
  have hless := nearestUnits_lt_overflow hq hsight
  rw [nearest_of_nonneg hq, div_mul_cancel₀ _ one_pos_rat.ne']
  rw [nearestUnits_of_ratio hden h] at hless ⊢
  rw [Nat.min_eq_left (by omega)]

/-- The change of a value, in units, is that of the quotient which it is. -/
theorem abs_nearest_sub_mul_one (hden : 0 < den) (h : |q| * one = num / den) (hsight : |q| ≤ sight) :
    |nearest q - q| * one = |(roundUnits num den : ℚ) - num / den| := by
  have hflip : |nearest q - q| = |nearest (|q|) - (|q|)| := by
    rcases le_total 0 q with hq | hq
    · rw [abs_of_nonneg hq]
    · rw [abs_of_nonpos hq, nearest_neg]
      exact abs_eq_abs.mpr (.inr (by ring))
  rw [hflip, ← nearest_mul_one_of_nonneg hden h (abs_nonneg q) hsight, ← h, ← sub_mul, abs_mul,
    abs_of_pos one_pos_rat]

theorem exists_ratio (q : ℚ) : ∃ num den : Nat, 0 < den ∧ |q| * one = num / den := by
  refine ⟨(|q| * one).num.natAbs, (|q| * one).den, Rat.den_pos _, ?_⟩
  have hnum : 0 ≤ (|q| * one).num := Rat.num_nonneg.mpr (mul_nonneg (abs_nonneg q) one_pos_rat.le)
  have hself := Rat.num_div_den (|q| * one)
  rw [← Int.natAbs_of_nonneg hnum, Int.cast_natCast] at hself
  exact hself.symm

/-- Rounding changes a value by one part in `2 ^ 53` and half a unit at most. -/
theorem abs_nearest_sub_le (hsight : |q| ≤ sight) :
    |nearest q - q| ≤ |q| / 2 ^ 53 + 1 / 2 / one := by
  obtain ⟨num, den, hden, h⟩ := exists_ratio q
  have hle := abs_roundUnits_sub_le num hden
  rw [← abs_nearest_sub_mul_one hden h hsight, ← h] at hle
  rw [← mul_le_mul_iff_of_pos_right one_pos_rat, add_mul, div_mul_cancel₀ _ one_pos_rat.ne',
    div_mul_eq_mul_div]
  exact hle

theorem half_unit_le : 1 / 2 / (one : ℚ) ≤ 1 / 2 / 2 ^ 200 :=
  div_le_div_of_nonneg_left (by norm_num) (by positivity) (two_pow_le_one (by omega))

/-- A value that is a whole number of units is changed by one part in `2 ^ 53` at most. -/
theorem abs_nearest_sub_le_of_whole {n : Int} (h : q * one = n) (hsight : |q| ≤ sight) :
    |nearest q - q| ≤ |q| / 2 ^ 53 := by
  have habs : |q| * one = (n.natAbs : ℚ) / (1 : Nat) := by
    rw [Nat.cast_one, div_one, Nat.cast_natAbs, Int.cast_abs, ← h, abs_mul, abs_of_pos one_pos_rat]
  have hle := abs_roundUnits_sub_le_of_whole n.natAbs
  have hchange := abs_nearest_sub_mul_one Nat.one_pos habs hsight
  rw [Nat.cast_one, div_one] at hchange habs
  rw [← hchange, ← habs] at hle
  rw [← mul_le_mul_iff_of_pos_right one_pos_rat, div_mul_eq_mul_div]
  exact hle

/-- A count is changed by one part in `2 ^ 53` at most. -/
theorem abs_nearest_natCast_sub_le {n : Nat} (hsight : (n : ℚ) ≤ sight) :
    |nearest n - (n : ℚ)| ≤ n / 2 ^ 53 := by
  have hself : |(n : ℚ)| = n := abs_of_nonneg (Nat.cast_nonneg n)
  have hwhole : (n : ℚ) * one = (n * one : Int) := by norm_cast
  have hround := abs_nearest_sub_le_of_whole hwhole (by rwa [hself])
  rwa [hself] at hround

theorem HasValue.whole (h : HasValue x q) : ∃ n : Int, q * one = n := by
  obtain ⟨s, u, f, -, hq⟩ := h.eq_finite
  exact ⟨signed s u, hq⟩

/-- So are the sum and the difference of two values that numbers have. -/
theorem abs_nearest_add_sub_le (hx : HasValue x p) (hy : HasValue y q) (hsight : |p + q| ≤ sight) :
    |nearest (p + q) - (p + q)| ≤ |p + q| / 2 ^ 53 := by
  obtain ⟨m, hp⟩ := hx.whole
  obtain ⟨n, hq⟩ := hy.whole
  exact abs_nearest_sub_le_of_whole (n := m + n) (by rw [add_mul, hp, hq, Int.cast_add]) hsight

theorem abs_nearest_sub_sub_le (hx : HasValue x p) (hy : HasValue y q) (hsight : |p - q| ≤ sight) :
    |nearest (p - q) - (p - q)| ≤ |p - q| / 2 ^ 53 := by
  obtain ⟨m, hp⟩ := hx.whole
  obtain ⟨n, hq⟩ := hy.whole
  exact abs_nearest_sub_le_of_whole (n := m - n) (by rw [sub_mul, hp, hq, Int.cast_sub]) hsight

/-- And so is a value that is not too small for 53 bits. -/
theorem abs_nearest_sub_le_of_large (hlarge : 2 ^ 52 ≤ |q| * one) (hsight : |q| ≤ sight) :
    |nearest q - q| ≤ |q| / 2 ^ 52 := by
  have htail : 1 / 2 / (one : ℚ) ≤ |q| / 2 ^ 53 := by
    rw [div_le_iff₀ one_pos_rat, div_mul_eq_mul_div]
    linarith
  linarith [abs_nearest_sub_le hsight]

/-- Below a power of two, a value is changed by one part in `2 ^ 54` of that power at most. -/
theorem abs_nearest_sub_le_of_lt {k : Nat} (hk : k ≤ 1000) (h : |q| < 2 ^ k) :
    |nearest q - q| ≤ 2 ^ k / 2 ^ 54 := by
  obtain ⟨num, den, hden, hratio⟩ := exists_ratio q
  have hless : num / den < 2 ^ (k + unitBits) := by
    rw [Nat.div_lt_iff_lt_mul hden, Nat.pow_add]
    have hmul := mul_lt_mul_of_pos_right h one_pos_rat
    rw [hratio, div_lt_iff₀ (Nat.cast_pos.mpr hden)] at hmul
    exact_mod_cast hmul
  have hlost : lostBits num den + 53 ≤ k + unitBits := by
    have hlog : num / den = 0 ∨ (num / den).log2 < k + unitBits := by
      by_cases hzero : num / den = 0
      · exact .inl hzero
      · exact .inr ((Nat.log2_lt hzero).mpr hless)
    have hbits : 53 ≤ unitBits := by
      unfold unitBits
      omega
    unfold lostBits
    rcases hlog with hzero | hlog
    · rw [hzero, Nat.log2_zero]
      omega
    · omega
  have hplace : (2 ^ lostBits num den * 2 ^ 53 : ℚ) ≤ 2 ^ k * one := by
    have hpow : 2 ^ (lostBits num den + 53) ≤ 2 ^ (k + unitBits) :=
      Nat.pow_le_pow_right Nat.two_pos hlost
    rw [Nat.pow_add, Nat.pow_add] at hpow
    exact_mod_cast hpow
  have hchange := abs_nearest_sub_mul_one hden hratio (h.le.trans (two_pow_le_sight hk))
  have hround := abs_roundUnits_sub_le_place num hden
  rw [← hchange] at hround
  rw [← mul_le_mul_iff_of_pos_right one_pos_rat]
  linarith

/-- A decimal fraction of one, give or take the rounding. -/
theorem exists_hasValue_decimal (digits places : Nat) (h : digits < 10 ^ places) :
    ∃ p : ℚ, HasValue (OfScientific.ofScientific digits true places) p ∧ 0 ≤ p ∧
      |p - digits / 10 ^ places| ≤ 1 / 2 ^ 54 := by
  have hnonneg : (0 : ℚ) ≤ digits / 10 ^ places := by positivity
  have hless : |(digits / 10 ^ places : ℚ)| < 2 ^ 0 := by
    rw [abs_of_nonneg hnonneg, pow_zero, div_lt_one (by positivity)]
    exact_mod_cast h
  have hclose := abs_nearest_sub_le_of_lt (by omega) hless
  rw [pow_zero] at hclose
  exact ⟨_, (rounds_decimal digits places).hasValue_of_sight
    (hless.le.trans (two_pow_le_sight (by omega))), nearest_nonneg hnonneg, hclose⟩

/-! ### Values that are not rounded -/

theorem pow_dvd_of_lt {n k : Nat} (hn : n < 2 ^ 53) : 2 ^ ((n * 2 ^ k).log2 - 52) ∣ n * 2 ^ k := by
  by_cases hzero : n = 0
  · simp [hzero]
  · have hlog : (n * 2 ^ k).log2 < 53 + k := by
      rw [Nat.log2_lt (Nat.mul_ne_zero hzero (Nat.two_pow_pos k).ne'), Nat.pow_add]
      exact Nat.mul_lt_mul_of_pos_right hn (Nat.two_pow_pos k)
    exact Nat.dvd_trans (Nat.pow_dvd_pow 2 (by omega)) (Nat.dvd_mul_left _ _)

/-- Fewer than `2 ^ 53` units of some place are a value of 53 bits. -/
theorem nearest_eq_of_units {n k : Nat} (hn : n < 2 ^ 53) (h : q * one = (n * 2 ^ k : Nat))
    (hsight : q ≤ sight) : nearest q = q := by
  have hq : 0 ≤ q := nonneg_of_mul_nonneg_left (h ▸ Nat.cast_nonneg _) one_pos_rat
  have hself := roundUnits_of_dvd Nat.one_pos (pow_dvd_of_lt (k := k) hn)
  rw [Nat.mul_one] at hself
  have hratio : q * one = (n * 2 ^ k : Nat) / (1 : Nat) := by rw [h, Nat.cast_one, div_one]
  have hround := nearest_mul_one_of_nonneg Nat.one_pos hratio hq hsight
  rw [hself, ← h] at hround
  exact mul_right_cancel₀ one_pos_rat.ne' hround

theorem nearest_natCast {n : Nat} (hn : n < 2 ^ 53) : nearest n = n := by
  refine nearest_eq_of_units (k := unitBits) hn ?_ ?_
  · rw [Nat.cast_mul]
    rfl
  · calc (n : ℚ) ≤ (2 ^ 53 : Nat) := Nat.cast_le.mpr hn.le
      _ = 2 ^ 53 := by rw [Nat.cast_pow, Nat.cast_two]
      _ ≤ sight := two_pow_le_sight (by omega)

/-- A whole number of up to 53 bits is its own value. -/
theorem hasValue_natCast {n : Nat} (hn : n < 2 ^ 53) : HasValue (ofNat n) n := by
  have hsight : (n : ℚ) ≤ sight := by
    calc (n : ℚ) ≤ (2 ^ 53 : Nat) := Nat.cast_le.mpr hn.le
      _ = 2 ^ 53 := by rw [Nat.cast_pow, Nat.cast_two]
      _ ≤ sight := two_pow_le_sight (by omega)
  have hvalue := hasValue_ofNat hsight
  rwa [nearest_natCast hn] at hvalue

theorem hasValue_zero : HasValue 0 0 := by
  have hvalue := hasValue_natCast (n := 0) (by decide)
  rwa [Nat.cast_zero] at hvalue

theorem hasValue_signedZero (negative : Bool) : HasValue (zero negative) 0 := by
  refine ⟨rfl, ?_⟩
  show (signed negative 0 / one : ℚ) = 0
  rw [signed_zero, Int.cast_zero, zero_div]

theorem hasValue_one : HasValue 1 1 := by
  have hvalue := hasValue_natCast (n := 1) (by decide)
  rwa [Nat.cast_one] at hvalue

theorem hasValue_two : HasValue 2 2 := by
  have hvalue := hasValue_natCast (n := 2) (by decide)
  rwa [Nat.cast_two] at hvalue

theorem nearest_two_pow {k : Nat} (hk : k ≤ 1000) : nearest (2 ^ k) = 2 ^ k := by
  refine nearest_eq_of_units (n := 1) (k := k + unitBits) (by omega) ?_ (two_pow_le_sight hk)
  unfold one
  rw [Nat.one_mul, pow_add, Nat.cast_mul, Nat.cast_pow, Nat.cast_pow, Nat.cast_two]

theorem hasValue_two_pow {k : Nat} (hk : k ≤ 1000) : HasValue (ofNat (2 ^ k)) (2 ^ k) := by
  have hcast : ((2 ^ k : Nat) : ℚ) = 2 ^ k := by rw [Nat.cast_pow, Nat.cast_two]
  have hvalue := hasValue_ofNat (n := 2 ^ k) (by
    rw [hcast]
    exact two_pow_le_sight hk)
  rwa [hcast, nearest_two_pow hk] at hvalue

/-- Half of what a whole number of units is rounded to is not rounded past that number. -/
theorem nearest_half_nearest_le {m : Nat} (h : q * one = m) (hsight : q ≤ sight / 2) :
    nearest (nearest q / 2) ≤ q := by
  rcases Nat.eq_zero_or_pos m with rfl | hm
  · have hq : q = 0 := by
      rw [Nat.cast_zero] at h
      exact (mul_eq_zero.mp h).resolve_right one_pos_rat.ne'
    rw [hq, nearest_zero, zero_div, nearest_zero]
  -- It is rounded to twice the power of two below it at most.
  obtain ⟨below, hbelow⟩ : ∃ below : ℚ, below * one = (2 ^ m.log2 : Nat) :=
    ⟨(2 ^ m.log2 : Nat) / one, div_mul_cancel₀ _ one_pos_rat.ne'⟩
  have hlower : below ≤ q := by
    rw [← mul_le_mul_iff_of_pos_right one_pos_rat, hbelow, h]
    exact Nat.cast_le.mpr (Nat.log2_self_le hm.ne')
  have hupper : q ≤ 2 * below := by
    rw [← mul_le_mul_iff_of_pos_right one_pos_rat, mul_assoc, hbelow, h, ← Nat.cast_two,
      ← Nat.cast_mul, Nat.mul_comm, ← Nat.pow_succ]
    exact Nat.cast_le.mpr Nat.lt_log2_self.le
  have hself : nearest below = below :=
    nearest_eq_of_units (n := 1) (by omega) (by rw [hbelow, Nat.one_mul]) (by linarith)
  have htwice : nearest (2 * below) = 2 * below := by
    refine nearest_eq_of_units (n := 2) (k := m.log2) (by omega) ?_ (by linarith)
    rw [mul_assoc, hbelow, Nat.cast_mul, Nat.cast_two]
  have hround : nearest q ≤ 2 * below := htwice ▸ nearest_mono hupper
  calc nearest (nearest q / 2) ≤ nearest below := nearest_mono (by linarith)
    _ = below := hself
    _ ≤ q := hlower

/-- A count of units past `2 ^ (53 + k)` has `2 ^ (k + 1)` for its last place at least. -/
theorem mul_one_le_place {u k : Nat} (h : 2 ^ (53 + k) * one ≤ u) :
    2 ^ (k + 1) * one ≤ 2 ^ (u.log2 - 52) := by
  have hpow : 2 ^ (53 + k + unitBits) ≤ u := by
    rw [Nat.pow_add]
    exact h
  have hsome : u ≠ 0 := (Nat.lt_of_lt_of_le (Nat.two_pow_pos _) hpow).ne'
  have hlog := (Nat.le_log2 hsome).mpr hpow
  calc 2 ^ (k + 1) * one = 2 ^ (k + 1 + unitBits) := (Nat.pow_add ..).symm
    _ ≤ 2 ^ (u.log2 - 52) := Nat.pow_le_pow_right (by omega) (by omega)

/-- From `2 ^ (53 + k)` on, less than `2 ^ k` more is rounded away. -/
theorem nearest_add_of_lt_two_pow {k : Nat} (hx : HasValue x p) (hp : 2 ^ (53 + k) ≤ p) (hq : 0 ≤ q)
    (hlt : q < 2 ^ k) (hsight : p + q ≤ sight) : nearest (p + q) = p := by
  have hpos : 0 < p := lt_of_lt_of_le (by positivity) hp
  obtain ⟨u, hfits, hu⟩ := hx.exists_units hpos
  obtain ⟨num, den, hden, hratio⟩ := exists_ratio (p + q)
  have hsum : 0 ≤ p + q := by linarith
  rw [abs_of_nonneg hsum] at hratio
  have hden' : (0 : ℚ) < den := Nat.cast_pos.mpr hden
  have hnum : (num : ℚ) = (u + q * one) * den := by
    rw [eq_div_iff hden'.ne'] at hratio
    rw [← hratio, ← hu]
    ring
  have hplace : (2 ^ (k + 1) * one : ℚ) ≤ (2 ^ (u.log2 - 52) : Nat) := by
    have hmul : (2 ^ (53 + k) : ℚ) * one ≤ u := hu ▸ mul_le_mul_of_nonneg_right hp one_pos_rat.le
    exact_mod_cast mul_one_le_place (by exact_mod_cast hmul)
  have hlower : u * den ≤ num := by
    have hle : (u * den : ℚ) ≤ num := by
      rw [hnum]
      have hmore : 0 ≤ q * one * den := by positivity
      linarith
    exact_mod_cast hle
  have hupper : 2 * num < (2 * u + 2 ^ (u.log2 - 52)) * den := by
    have hless : q * one < (2 ^ (u.log2 - 52) : Nat) / 2 := by
      refine (mul_lt_mul_of_pos_right hlt one_pos_rat).trans_le ?_
      rw [pow_succ] at hplace
      linarith
    have hmul := mul_lt_mul_of_pos_right hless hden'
    have hlt' : (2 * num : ℚ) < (2 * u + (2 ^ (u.log2 - 52) : Nat)) * den := by
      rw [hnum]
      linarith
    exact_mod_cast hlt'
  have hround := nearest_mul_one_of_nonneg hden hratio hsum hsight
  rw [roundUnits_of_near hden hfits.2 hlower hupper, ← hu] at hround
  exact mul_right_cancel₀ one_pos_rat.ne' hround

theorem nearest_add_of_lt_one (hx : HasValue x p) (hp : 2 ^ 53 ≤ p) (hq : 0 ≤ q) (hlt : q < 1)
    (hsight : p + q ≤ sight) : nearest (p + q) = p :=
  nearest_add_of_lt_two_pow (k := 0) hx hp hq (by simpa using hlt) hsight

end Values
end Binary64
end LightCone
