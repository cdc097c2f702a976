import LightCone.Proofs.Instants
import LightCone.Proofs.Overflow
import LightCone.Proofs.Run.TwoNodes
import LightCone.Proofs.Seconds
import LightCone.Service.Delays
import Mathlib.Data.Nat.Find

/-!
Which claimed times a validation accepts.

A verdict compares durations, and scores them in binary64 seconds. This file

1. gives confidence scores their values, and shows that a longer difference has no higher score
   (`confidenceScore_antitone`);
2. concludes that the accepted differences are those up to one of them, between the expected delay
   and the threshold (`Verdict.exists_radius`), and puts this in terms of whole validations
   (`Service.validate_accepts_interval`).
-/
namespace LightCone

open Binary64 (HasValue nearest hasValue_zero hasValue_one)

/-! ## Confidence scores -/

section Scores

variable {difference difference' bound : Duration} {a b : Binary64}

/-- The value of a confidence score. -/
def scoreOf (difference bound : Duration) : ℚ :=
  if bound.nanos = 0 then (if difference.nanos = 0 then 1 else 0)
  else if bound ≤ difference then 0
  else max 0 (min (nearest (1 - nearest (difference.asRat / bound.asRat))) 1)

/-- Below the bound, the seconds of a difference are a share of those of the bound. -/
theorem ratio_mem (hbound : bound.nanos ≠ 0) (h : ¬ bound ≤ difference) :
    0 ≤ difference.asRat / bound.asRat ∧ difference.asRat / bound.asRat ≤ 1 := by
  have hpos := Duration.asRat_pos hbound
  have hle : difference ≤ bound := Nat.le_of_not_le h
  exact ⟨div_nonneg difference.asRat_nonneg hpos.le,
    (div_le_one hpos).mpr (Duration.asRat_mono hle)⟩

theorem nearest_ratio_mem (hbound : bound.nanos ≠ 0) (h : ¬ bound ≤ difference) :
    0 ≤ nearest (difference.asRat / bound.asRat) ∧ nearest (difference.asRat / bound.asRat) ≤ 1 := by
  obtain ⟨hnonneg, hle⟩ := ratio_mem hbound h
  refine ⟨Binary64.nearest_nonneg hnonneg, (Binary64.nearest_mono hle).trans_eq ?_⟩
  exact hasValue_one.nearest_eq

theorem hasValue_confidenceScore (difference bound : Duration) :
    HasValue (confidenceScore difference bound) (scoreOf difference bound) := by
  unfold confidenceScore scoreOf
  split
  · split
    · exact hasValue_one
    · exact hasValue_zero
  · next hbound =>
    split
    · exact hasValue_zero
    · next hbelow =>
      obtain ⟨hnonneg, hle⟩ := ratio_mem hbound hbelow
      obtain ⟨hnonneg', hle'⟩ := nearest_ratio_mem hbound hbelow
      have hratio := difference.hasValue_asSeconds.div bound.hasValue_asSeconds
        (Duration.asRat_pos hbound).ne' (Duration.le_sight (by rw [abs_of_nonneg hnonneg]; linarith))
      have hdiff := hasValue_one.sub hratio
        (Duration.le_sight (by rw [abs_of_nonneg (by linarith)]; linarith))
      exact hdiff.clamp hasValue_zero hasValue_one (by norm_num)

theorem scoreOf_nonneg (difference bound : Duration) : 0 ≤ scoreOf difference bound := by
  unfold scoreOf
  split
  · split <;> norm_num
  · split
    · norm_num
    · exact le_max_left _ _

/-- A longer difference has no higher score. -/
theorem confidenceScore_antitone (h : difference ≤ difference') :
    confidenceScore difference' bound ≤ confidenceScore difference bound := by
  rw [(hasValue_confidenceScore _ _).le_iff (hasValue_confidenceScore _ _)]
  have hnanos : difference.nanos ≤ difference'.nanos := h
  by_cases hzero : bound.nanos = 0
  · unfold scoreOf
    rw [if_pos hzero, if_pos hzero]
    split
    · next hnone => rw [if_pos (by omega)]
    · split <;> norm_num
  · by_cases hpast : bound ≤ difference'
    · have hscore : scoreOf difference' bound = 0 := by
        unfold scoreOf
        rw [if_neg hzero, if_pos hpast]
      rw [hscore]
      exact scoreOf_nonneg _ _
    · have hbelow : ¬ bound ≤ difference := fun hle => hpast (Nat.le_trans hle h)
      have hratio : difference.asRat / bound.asRat ≤ difference'.asRat / bound.asRat :=
        div_le_div_of_nonneg_right (Duration.asRat_mono h) (Duration.asRat_pos hzero).le
      have hrest : nearest (1 - nearest (difference'.asRat / bound.asRat)) ≤
          nearest (1 - nearest (difference.asRat / bound.asRat)) :=
        Binary64.nearest_mono (by linarith [Binary64.nearest_mono hratio])
      unfold scoreOf
      rw [if_neg hzero, if_neg hzero, if_neg hpast, if_neg hbelow]
      exact max_le_max_left 0 (min_le_min_right 1 hrest)

end Scores

/-! ## The smaller of two numbers -/

/-- The smaller of two numbers is never above the second one. -/
theorem Binary64.not_lt_smaller (a b : Binary64) : ¬ b < a.smaller b := by
  unfold smaller
  intro hlt
  split at hlt
  · obtain ⟨x, y, hx, hy, hless⟩ := Binary64.lt_iff_rank.mp hlt
    rw [hx] at hy
    exact absurd (Option.some.inj hy) (by omega)
  · next hnot =>
    simp only [Bool.or_eq_true, decide_eq_true_eq, not_or] at hnot
    exact hnot.1 hlt

/-! ## Verdicts on differences -/

namespace Verdict

variable {s : PropagationSettings} {expected tolerance actual actual' : Duration} {now : Instant}

theorem valid_iff : (ofDifference s expected tolerance actual now).valid = true ↔
    actual ≤ expected + tolerance ∧
    ¬ confidenceScore actual (expected + tolerance) < floor s expected (expected + tolerance) := by
  have hnot : ¬ expected + tolerance < actual ↔ actual ≤ expected + tolerance := Nat.not_lt
  simp only [ofDifference]
  split
  · next h =>
    have hpast : ¬ actual ≤ expected + tolerance := Nat.not_le.mpr h
    simp [hpast]
  · next h =>
    split
    · next hlow => simp [hlow]
    · next hlow => simp [hlow, hnot.mp h]

theorem expected_le (expected tolerance : Duration) : expected ≤ expected + tolerance := by
  have hle := expected.le_longest
  show expected.nanos ≤ (expected + tolerance).nanos
  rw [Duration.nanos_add]
  exact Nat.le_min.mpr ⟨Nat.le_add_right _ _, hle⟩

/-- The expected delay itself is accepted: the floor is no more than its own score, whatever the
    least confidence. -/
theorem valid_expected : (ofDifference s expected tolerance expected now).valid = true :=
  valid_iff.mpr ⟨expected_le expected tolerance, Binary64.not_lt_smaller _ _⟩

/-- With a difference, every smaller one is accepted. -/
theorem valid_of_le (hle : actual' ≤ actual)
    (h : (ofDifference s expected tolerance actual now).valid = true) :
    (ofDifference s expected tolerance actual' now).valid = true := by
  obtain ⟨hbound, hscore⟩ := valid_iff.mp h
  refine valid_iff.mpr ⟨Nat.le_trans hle hbound, fun hlow => hscore ?_⟩
  exact Binary64.lt_of_le_of_lt (confidenceScore_antitone hle) hlow

/-- The accepted differences are those up to one of them, which is not below the expected delay and
    not above the threshold. -/
theorem exists_radius (s : PropagationSettings) (expected tolerance : Duration) (now : Instant) :
    ∃ radius, expected ≤ radius ∧ radius ≤ expected + tolerance ∧
      ∀ actual, (ofDifference s expected tolerance actual now).valid = true ↔ actual ≤ radius := by
  classical
  let accepted (n : Nat) : Prop := (ofDifference s expected tolerance (.ofNanos n) now).valid = true
  have hexpected : accepted expected.nanos := by
    show (ofDifference s expected tolerance (.ofNanos expected.nanos) now).valid = true
    rw [Duration.ofNanos_nanos]
    exact valid_expected
  have hbelow : expected.nanos ≤ (expected + tolerance).nanos := expected_le expected tolerance
  -- The largest accepted one up to the threshold.
  let most := Nat.findGreatest accepted (expected + tolerance).nanos
  have hmost : most ≤ (expected + tolerance).nanos := Nat.findGreatest_le _
  have hself : (Duration.ofNanos most).nanos = most := by
    have hlongest := (expected + tolerance).le_longest
    rw [Duration.nanos_ofNanos]
    exact Nat.min_eq_left (Nat.le_trans hmost hlongest)
  have haccepted : accepted most := Nat.findGreatest_spec hbelow hexpected
  refine ⟨.ofNanos most, ?_, ?_, fun actual => ⟨fun h => ?_, fun h => valid_of_le h haccepted⟩⟩
  · show expected.nanos ≤ (Duration.ofNanos most).nanos
    rw [hself]
    exact Nat.le_findGreatest hbelow hexpected
  · show (Duration.ofNanos most).nanos ≤ _
    rw [hself]
    exact hmost
  · show actual.nanos ≤ (Duration.ofNanos most).nanos
    rw [hself]
    refine Nat.le_findGreatest (valid_iff.mp h).1 ?_
    show (ofDifference s expected tolerance (.ofNanos actual.nanos) now).valid = true
    rwa [Duration.ofNanos_nanos]

end Verdict

/-! ## Whole validations -/

namespace Service

variable {s : Service} {subject : Option Subject} {position : Position} {reference : String}
  {node : Node}

/-- A validation against a node that resolves judges the difference alone. -/
theorem validate_eq (hnode : s.env.answer reference = .ok node)
    (hfinite : (node.position.distance position).isFinite = true) (claimed : Instant) :
    s.validate subject claimed position reference =
      (let verdict := Verdict.ofDifference s.settings.propagation
        (networkDelay (node.position.distance position) s.settings.propagation.networkFactor)
        (s.settings.propagation.tolerance subject) (s.now.apart claimed) s.now
      ({ verdict with subject := subject }, s.countVerdict verdict)) := by
  have hjudge : Verdict.judge s.settings.propagation (node.position.distance position)
      (s.settings.propagation.tolerance subject) s.now claimed = _ := if_pos hfinite
  unfold validate perform verdictJob
  rw [Job.run, hnode]
  simp only [Job.run, hjudge]

/-- Against a node that resolves, and from a place at a finite distance, a validation accepts just the
    times in an interval around now. The time between now and the claimed time is exact and is all that
    counts of the claimed time; the interval holds all times up to the expected delay away and none
    past the threshold. -/
theorem validate_accepts_interval (s : Service) (subject : Option Subject) (position : Position)
    (reference : String) (node : Node) (hnode : s.env.answer reference = .ok node)
    (hfinite : (node.position.distance position).isFinite = true) :
    let expected :=
      networkDelay (node.position.distance position) s.settings.propagation.networkFactor
    let threshold := expected + s.settings.propagation.tolerance subject
    let valid := fun claimed => (s.validate subject claimed position reference).1.valid
    (∀ claimed, (s.now.apart claimed).nanos = (s.now.nanosSince claimed).natAbs ∧
      s.now.apart claimed = claimed.apart s.now ∧
      (s.now.leap = false → claimed.leap = false →
        s.now.nanosSince claimed = s.now.nanos - claimed.nanos)) ∧
    (∀ claimed claimed', s.now.apart claimed = s.now.apart claimed' →
      s.validate subject claimed position reference =
        s.validate subject claimed' position reference) ∧
    (∀ claimed, s.now.apart claimed ≤ expected → valid claimed = true) ∧
    (∀ claimed, threshold < s.now.apart claimed → valid claimed = false) ∧
    (∀ claimed claimed', s.now.apart claimed' ≤ s.now.apart claimed → valid claimed = true →
      valid claimed' = true) ∧
    ∃ radius, expected ≤ radius ∧ radius ≤ threshold ∧
      ∀ claimed, valid claimed = true ↔ s.now.apart claimed ≤ radius := by
  intro expected threshold valid
  obtain ⟨radius, hlow, hhigh, hradius⟩ := Verdict.exists_radius s.settings.propagation expected
    (s.settings.propagation.tolerance subject) s.now
  have hvalid : ∀ claimed, valid claimed = true ↔ s.now.apart claimed ≤ radius := by
    intro claimed
    rw [← hradius (s.now.apart claimed)]
    show (s.validate subject claimed position reference).1.valid = true ↔ _
    rw [validate_eq hnode hfinite]
  refine ⟨fun claimed => ?_, fun claimed claimed' hsame => ?_, fun claimed hnear => ?_,
    fun claimed hfar => ?_, fun claimed claimed' hle h => ?_, radius, hlow, hhigh, hvalid⟩
  · exact ⟨s.now.nanos_apart claimed, s.now.apart_comm claimed,
      s.now.nanosSince_of_not_leap claimed⟩
  · rw [validate_eq hnode hfinite, validate_eq hnode hfinite, hsame]
  · exact (hvalid claimed).mpr (Nat.le_trans hnear hlow)
  · rw [← Bool.not_eq_true, hvalid]
    exact Nat.not_le.mpr (Nat.lt_of_le_of_lt hhigh hfar)
  · exact (hvalid claimed').mpr (Nat.le_trans hle ((hvalid claimed).mp h))

/-- The times that a node accepts of another one high above it. -/
theorem validate_accepts_interval_high :
    (TwoNodes.service 20000000 TwoNodes.high_ok).env.answer "a" = .ok TwoNodes.lower ∧
    ∃ radius, networkDelay (TwoNodes.lower.position.distance
        (TwoNodes.upper 20000000 TwoNodes.high_ok).position) 1.5 ≤ radius ∧
      ∀ claimed, ((TwoNodes.service 20000000 TwoNodes.high_ok).validate (some (.block 7)) claimed
          (TwoNodes.upper 20000000 TwoNodes.high_ok).position "a").1.valid = true ↔
        Instant.epoch.apart claimed ≤ radius := by
  obtain ⟨-, -, -, -, -, radius, hlow, -, hvalid⟩ :=
    validate_accepts_interval (TwoNodes.service 20000000 TwoNodes.high_ok) (some (.block 7))
      (TwoNodes.upper 20000000 TwoNodes.high_ok).position "a" TwoNodes.lower TwoNodes.answer_lower
      TwoNodes.finite_high
  exact ⟨TwoNodes.answer_lower, radius, hlow, hvalid⟩

end Service
end LightCone
