import LightCone.Proofs.Verdicts

/-!
Which differences score one.

A confidence score is one less a rounded quotient, and rounded again. This file

1. gives the quotient its value (`hasValue_quotient`), and shows that what is taken off one is lost
   in rounding just up to half of the gap below one (`one_le_nearest_one_sub`);
2. says which differences score one against a bound (`confidenceScore_eq_one_iff`): where the bound is
   below `2 ^ 54` nanoseconds none but zero does, and from there on one nanosecond does too;
3. puts this together with the order and the range of scores (`confidenceScore_law`).
-/
namespace LightCone

open Binary64 (HasValue nearest one hasValue_zero hasValue_one)

/-! ## Close to one -/

namespace Binary64

variable {x y : Binary64} {q r : ℚ}

/-- A value other than zero belongs to one number. -/
theorem HasValue.unique (hx : HasValue x q) (hy : HasValue y q) (hq : q ≠ 0) : x = y := by
  obtain ⟨s, u, f, rfl, hs⟩ := hx.eq_finite
  obtain ⟨t, v, g, rfl, ht⟩ := hy.eq_finite
  have hsame : signed s u = signed t v := by
    rw [hs] at ht
    exact_mod_cast ht
  have hne : signed s u ≠ 0 := by
    intro hzero
    rw [hzero, Int.cast_zero] at hs
    exact hq ((mul_eq_zero.mp hs).resolve_right one_pos_rat.ne')
  cases s <;> cases t <;> simp only [signed, Bool.false_eq_true, if_true, if_false] at hsame hne
  all_goals first
    | (obtain rfl : u = v := by omega
       rfl)
    | omega

/-- Half of the gap between one and the next number below it. -/
def halfGap : Binary64 := 1 / 18014398509481984

theorem hasValue_halfGap : HasValue halfGap (1 / 2 ^ 54) := by
  have hliteral : 2 ^ 54 = 18014398509481984 := by norm_num
  have hpower := hasValue_two_pow (k := 54) (by omega)
  rw [hliteral] at hpower
  have hquotient := hasValue_one.div hpower (by positivity) (Duration.le_sight (by norm_num))
  have hunits : (1 / 2 ^ 54 : ℚ) * one = (1 * 2 ^ (unitBits - 54) : Nat) := by
    have hsplit : one = 2 ^ 54 * 2 ^ (unitBits - 54) := by
      rw [one, ← Nat.pow_add]
      congr 1
      unfold unitBits
      omega
    rw [hsplit, Nat.one_mul]
    push_cast
    ring
  rw [nearest_eq_of_units (by norm_num) hunits (Duration.le_sight (by norm_num))] at hquotient
  exact hquotient

/-- One less half of that gap is rounded to one. -/
theorem nearest_one_sub_halfGap : nearest (1 - 1 / 2 ^ 54) = 1 := by
  have hsame : (1 - halfGap : Binary64) = 1 := by decide +kernel
  have hdiff := hasValue_one.sub hasValue_halfGap (Duration.le_sight (by norm_num))
  rw [hsame] at hdiff
  rw [← hdiff.2, hasValue_one.2]

/-- What is taken off one is lost in rounding just up to half of that gap. -/
theorem one_le_nearest_one_sub (h₀ : 0 ≤ r) (h₁ : r ≤ 1) : 1 ≤ nearest (1 - r) ↔ r ≤ 1 / 2 ^ 54 := by
  refine ⟨fun h => ?_, fun h => ?_⟩
  · rcases h₀.eq_or_lt with hzero | hpos
    · rw [← hzero]
      positivity
    · have hless : |1 - r| < 2 ^ 0 := by
        rw [pow_zero, abs_lt]
        constructor <;> linarith
      have hclose := (abs_le.mp (abs_nearest_sub_le_of_lt (by omega) hless)).2
      rw [pow_zero] at hclose
      linarith
  · calc 1 = nearest (1 - 1 / 2 ^ 54) := nearest_one_sub_halfGap.symm
      _ ≤ nearest (1 - r) := nearest_mono (by linarith)

end Binary64

/-! ## Quotients of durations -/

variable {difference difference' bound bound' : Duration}

theorem Duration.asRat_large (h : bound.nanos ≠ 0) : 1 / 2 ^ 31 ≤ bound.asRat := by
  have hseconds : 1 / nanosPerSecond ≤ bound.seconds :=
    div_le_div_of_nonneg_right (Nat.one_le_cast.mpr (Nat.pos_of_ne_zero h)) nanosPerSecond_pos.le
  have hclose := (abs_le.mp bound.abs_asRat_sub_le).1
  have hshort : (1 / 2 ^ 30 : ℚ) ≤ 1 / nanosPerSecond := by norm_num [nanosPerSecond]
  linarith

theorem hasValue_quotient (hbound : bound.nanos ≠ 0) :
    HasValue (difference.asSeconds / bound.asSeconds) (nearest (difference.asRat / bound.asRat)) := by
  have hpos := Duration.asRat_pos hbound
  refine difference.hasValue_asSeconds.div bound.hasValue_asSeconds hpos.ne' (Duration.le_sight ?_)
  rw [abs_of_nonneg (div_nonneg difference.asRat_nonneg hpos.le), div_le_iff₀ hpos]
  linarith [difference.asRat_le, Duration.asRat_large hbound]

/-- A longer difference against a shorter bound has no smaller quotient. -/
theorem quotient_mono (hbound : bound.nanos ≠ 0) (hle : difference ≤ difference') (hle' : bound ≤ bound') :
    difference.asSeconds / bound'.asSeconds ≤ difference'.asSeconds / bound.asSeconds := by
  have hnanos : bound.nanos ≤ bound'.nanos := hle'
  have hbound' : bound'.nanos ≠ 0 := by omega
  rw [(hasValue_quotient hbound').le_iff (hasValue_quotient hbound)]
  exact Binary64.nearest_mono (div_le_div₀ difference'.asRat_nonneg (Duration.asRat_mono hle)
    (Duration.asRat_pos hbound) (Duration.asRat_mono hle'))

/-! ## Scores of one -/

theorem scoreOf_le_one (difference bound : Duration) : scoreOf difference bound ≤ 1 := by
  unfold scoreOf
  split
  · split <;> norm_num
  · split
    · norm_num
    · exact max_le zero_le_one (min_le_right _ _)

theorem confidenceScore_mem (difference bound : Duration) :
    0 ≤ confidenceScore difference bound ∧ confidenceScore difference bound ≤ 1 := by
  have hscore := hasValue_confidenceScore difference bound
  rw [hasValue_zero.le_iff hscore, hscore.le_iff hasValue_one]
  exact ⟨scoreOf_nonneg _ _, scoreOf_le_one _ _⟩

theorem confidenceScore_of_le (hbound : bound.nanos ≠ 0) (h : bound ≤ difference) :
    confidenceScore difference bound = 0 := by
  unfold confidenceScore
  rw [if_neg hbound, if_pos h]

theorem confidenceScore_eq_one_iff_scoreOf :
    confidenceScore difference bound = 1 ↔ scoreOf difference bound = 1 := by
  have hscore := hasValue_confidenceScore difference bound
  refine ⟨fun h => ?_, fun h => ?_⟩
  · rw [h] at hscore
    rw [← hscore.2, hasValue_one.2]
  · rw [h] at hscore
    exact hscore.unique hasValue_one one_ne_zero

/-- A difference scores one just if its rounded quotient by the bound is at most half of the gap below
    one. -/
theorem confidenceScore_eq_one_iff (hbound : bound.nanos ≠ 0) :
    confidenceScore difference bound = 1 ↔
      difference.asSeconds / bound.asSeconds ≤ Binary64.halfGap := by
  rw [confidenceScore_eq_one_iff_scoreOf,
    (hasValue_quotient hbound).le_iff Binary64.hasValue_halfGap]
  unfold scoreOf
  rw [if_neg hbound]
  split
  · next h =>
    have hratio : 1 ≤ difference.asRat / bound.asRat :=
      (one_le_div (Duration.asRat_pos hbound)).mpr (Duration.asRat_mono h)
    have hround : 1 ≤ nearest (difference.asRat / bound.asRat) :=
      hasValue_one.nearest_eq.symm.trans_le (Binary64.nearest_mono hratio)
    have hgap : (1 / 2 ^ 54 : ℚ) < 1 := by norm_num
    exact iff_of_false zero_ne_one (by linarith)
  · next h =>
    obtain ⟨hnonneg, hle⟩ := nearest_ratio_mem hbound h
    rw [← Binary64.one_le_nearest_one_sub hnonneg hle]
    generalize nearest (1 - nearest (difference.asRat / bound.asRat)) = score
    refine ⟨fun hone => ?_, fun hone => ?_⟩
    · by_contra hless
      rw [not_le] at hless
      have hmax : max 0 (min score 1) < 1 := max_lt one_pos (min_lt_of_left_lt hless)
      linarith
    · rw [min_eq_right hone, max_eq_right zero_le_one]

/-- The shortest bound against which a nanosecond scores one: `2 ^ 54` nanoseconds, or 208 days. -/
def blurringBound : Duration := .ofNanos 18014398509481984

/-- The nanosecond before that bound makes the difference. -/
theorem blurs_from_blurringBound :
    (Duration.ofNanos 1).asSeconds / blurringBound.asSeconds ≤ Binary64.halfGap ∧
    ¬ (Duration.ofNanos 1).asSeconds / (Duration.ofNanos (blurringBound.nanos - 1)).asSeconds ≤
      Binary64.halfGap := by
  decide +kernel

/-- Below that bound just a difference of zero scores one; from it on, a nanosecond does too. -/
theorem only_zero_scores_one_iff (hbound : bound.nanos ≠ 0) :
    (∀ difference, confidenceScore difference bound = 1 → difference = .zero) ↔
      bound < blurringBound := by
  obtain ⟨hblurs, hclear⟩ := blurs_from_blurringBound
  refine ⟨fun h => ?_, fun h difference hone => ?_⟩
  · by_contra hlong
    have hle : blurringBound ≤ bound := Nat.not_lt.mp hlong
    have hscore : confidenceScore (.ofNanos 1) bound = 1 :=
      (confidenceScore_eq_one_iff hbound).mpr (Binary64.le_trans
        (quotient_mono (by decide) (Nat.le_refl _) hle) hblurs)
    exact absurd (h _ hscore) (by decide)
  · by_contra hne
    have hnanos : difference.nanos ≠ 0 := fun hzero => hne (Duration.ext hzero)
    have hshort : bound ≤ .ofNanos (blurringBound.nanos - 1) := by
      have hless : bound.nanos < blurringBound.nanos := h
      show bound.nanos ≤ (Duration.ofNanos (blurringBound.nanos - 1)).nanos
      rw [Duration.nanos_ofNanos]
      have hlongest : bound.nanos ≤ Duration.longest.nanos := bound.le_longest
      exact Nat.le_min.mpr ⟨by omega, hlongest⟩
    have hlong : .ofNanos 1 ≤ difference := Nat.pos_of_ne_zero hnanos
    exact hclear (Binary64.le_trans (quotient_mono hbound hlong hshort)
      ((confidenceScore_eq_one_iff hbound).mp hone))

/-! ## The law of scores -/

/-- Against every bound but zero, scores are from zero to one, are zero from the bound on, never grow
    with the difference, and are one for no difference. They are one for another difference where what
    it takes off is lost in rounding, and that is possible just for bounds of `2 ^ 54` nanoseconds and
    more. -/
theorem confidenceScore_law (bound : Duration) (hbound : bound ≠ .zero) :
    (∀ difference, 0 ≤ confidenceScore difference bound ∧ confidenceScore difference bound ≤ 1) ∧
    (∀ difference, bound ≤ difference → confidenceScore difference bound = 0) ∧
    (∀ difference difference', difference ≤ difference' →
      confidenceScore difference' bound ≤ confidenceScore difference bound) ∧
    confidenceScore .zero bound = 1 ∧
    (∀ difference, confidenceScore difference bound = 1 ↔
      difference.asSeconds / bound.asSeconds ≤ Binary64.halfGap) ∧
    ((∀ difference, confidenceScore difference bound = 1 → difference = .zero) ↔
      bound < blurringBound) := by
  have hnanos : bound.nanos ≠ 0 := fun hzero => hbound (Duration.ext hzero)
  have hnone : scoreOf .zero bound = 1 := by
    have hbelow : ¬ bound ≤ .zero := Nat.not_le.mpr (Nat.pos_of_ne_zero hnanos)
    unfold scoreOf
    rw [if_neg hnanos, if_neg hbelow, Duration.asRat_eq_zero rfl, zero_div, Binary64.nearest_zero,
      sub_zero, hasValue_one.nearest_eq, min_self, max_eq_right zero_le_one]
  exact ⟨fun difference => confidenceScore_mem difference bound,
    fun difference hpast => confidenceScore_of_le hnanos hpast,
    fun difference difference' hle => confidenceScore_antitone hle,
    confidenceScore_eq_one_iff_scoreOf.mpr hnone,
    fun difference => confidenceScore_eq_one_iff hnanos, only_zero_scores_one_iff hnanos⟩

/-- Against one second, a score of one means that there is no difference at all. -/
theorem confidenceScore_law_one_second : Duration.ofSecs 1 ≠ .zero ∧
    confidenceScore (.ofSecs 1) (.ofSecs 1) = 0 ∧
    ∀ difference, confidenceScore difference (.ofSecs 1) = 1 → difference = .zero := by
  obtain ⟨_, hpast, _, _, _, hone⟩ := confidenceScore_law (.ofSecs 1) (by decide)
  exact ⟨by decide, hpast _ (Nat.le_refl _), hone.mpr (by decide)⟩

/-- Against the blurring bound a nanosecond scores one, and a verdict that asks for full confidence
    accepts it. -/
theorem nanosecond_scores_one : Duration.ofNanos 1 ≠ .zero ∧
    confidenceScore (.ofNanos 1) blurringBound = 1 ∧
    (Verdict.ofDifference { minConfidence := 1 } .zero blurringBound (.ofNanos 1) .epoch).valid =
      true := by
  decide +kernel

end LightCone
