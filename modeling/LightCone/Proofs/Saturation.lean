import LightCone.Consensus.Timing
import LightCone.Proofs.Overflow
import LightCone.Proofs.Roots
import LightCone.Proofs.Run.TwoNodes
import LightCone.Proofs.Seconds
import LightCone.Propagation

/-!
Scaled durations, up to the longest one and past every number.

A duration that is scaled stops at the longest one, as long as the product is a number. A product past the
largest number is an infinity, which is no duration of seconds and counts as none. This file

1. compares the durations of two results, one rounded from a larger value than the other
   (`Duration.ofSeconds_le_iff`), and so of two products (`Duration.ofSeconds_mul_le_iff`);
2. gives distances in light seconds their values, and shows that a moving clock runs slow
   (`exists_hasValue_lorentzFactor`);
3. concludes when a scaled duration, a network delay, a delay seen from a moving frame and a safety
   margin are at least as long as that of the smaller numbers (`scaling_monotone_iff`), and gives numbers
   for which they are not.
-/
namespace LightCone

open Binary64 (HasValue Rounds nearest overflowPoint hasValue_zero hasValue_one)

/-- The product of two numbers is rounded to an infinity. -/
def Binary64.Overflows (x y : Binary64) : Prop := overflowPoint ≤ |x.toRat * y.toRat|

theorem Binary64.isFinite_mul_iff {x y : Binary64} (hx : x.isFinite = true)
    (hy : y.isFinite = true) : (x * y).isFinite = true ↔ ¬ x.Overflows y := by
  have hrounds : Rounds (x * y) (x.toRat * y.toRat) := HasValue.rounds_mul ⟨hx, rfl⟩ ⟨hy, rfl⟩
  rw [hrounds.isFinite_iff, Overflows, not_le]

open Binary64 (Overflows)

/-! ## Durations of results -/

namespace Duration

variable {d d' : Duration} {x y x' y' : Binary64} {p q p' q' : ℚ}

theorem le_zero_iff : d ≤ zero ↔ d = zero := by
  refine ⟨fun h => Duration.ext (Nat.le_zero.mp h), ?_⟩
  rintro rfl
  exact Nat.le_refl _

theorem zero_le (d : Duration) : zero ≤ d := Nat.zero_le _

/-- What is not finite is no duration. -/
theorem ofSeconds_of_not_finite (h : x.isFinite ≠ true) : ofSeconds x = zero := by
  cases x with
  | nan => rfl
  | infinity s => rfl
  | finite s u f => exact absurd rfl h

/-- A result rounded from a larger value is no shorter duration, unless it is not finite. -/
theorem ofSeconds_le_iff (hx : Rounds x p) (hy : Rounds y q) (hp : 0 ≤ p) (h : p ≤ q) :
    ofSeconds x ≤ ofSeconds y ↔ ¬ overflowPoint ≤ q ∨ ofSeconds x = zero := by
  have hfinite := hy.isFinite_iff
  rw [abs_of_nonneg (hp.trans h)] at hfinite
  by_cases hless : q < overflowPoint
  · have hless' : |p| < overflowPoint := by
      rw [abs_of_nonneg hp]
      exact h.trans_lt hless
    have hle := ofSeconds_mono (hx.hasValue_of_lt hless') (hy.hasValue (hfinite.mpr hless))
      (Binary64.nearest_mono h)
    simp [hle, not_le.mpr hless]
  · rw [ofSeconds_of_not_finite (mt hfinite.mp hless), le_zero_iff]
    simp [not_lt.mp hless]

/-- So are products of larger numbers. -/
theorem ofSeconds_mul_le_iff (hx : HasValue x p) (hy : HasValue y q) (hx' : HasValue x' p')
    (hy' : HasValue y' q') (hp : 0 ≤ p) (hq : 0 ≤ q) (hpp : p ≤ p') (hqq : q ≤ q') :
    ofSeconds (x * y) ≤ ofSeconds (x' * y') ↔
      ¬ Overflows x' y' ∨ ofSeconds (x * y) = zero := by
  have hle : p * q ≤ p' * q' := mul_le_mul hpp hqq hq (hp.trans hpp)
  have hnonneg : 0 ≤ p * q := mul_nonneg hp hq
  rw [ofSeconds_le_iff (hx.rounds_mul hy) (hx'.rounds_mul hy') hnonneg hle]
  unfold Overflows
  rw [hx'.toRat_eq, hy'.toRat_eq, abs_of_nonneg (hnonneg.trans hle)]

/-- A longer duration times a larger factor is no shorter, unless the product is past all numbers. -/
theorem scale_le_scale_iff (hd : d ≤ d') (hx : HasValue x p) (hy : HasValue y q) (hp : 0 ≤ p)
    (h : p ≤ q) : d.scale x ≤ d'.scale y ↔ ¬ Overflows d'.asSeconds y ∨ d.scale x = zero :=
  ofSeconds_mul_le_iff d.hasValue_asSeconds hx d'.hasValue_asSeconds hy d.asRat_nonneg hp
    (asRat_mono hd) h

end Duration

/-! ## Light seconds -/

section Light

variable {x y f g : Binary64} {p q a b : ℚ}

theorem hasValue_positivePart (hx : HasValue x p) : HasValue x.positivePart (max 0 p) := by
  unfold Binary64.positivePart
  split
  · next h =>
    have hpos := (hasValue_zero.lt_iff hx).mp h.2
    rwa [max_eq_right hpos.le]
  · next h =>
    have hnot : ¬ 0 < x := fun hpos => h ⟨hx.finite, hpos⟩
    rw [hasValue_zero.lt_iff hx, not_lt] at hnot
    rw [max_eq_left hnot]
    exact hasValue_zero

theorem exists_hasValue_positivePart (x : Binary64) : ∃ p, HasValue x.positivePart p ∧ 0 ≤ p := by
  by_cases hfinite : x.isFinite = true
  · exact ⟨_, hasValue_positivePart ⟨hfinite, rfl⟩, le_max_left _ _⟩
  · refine ⟨0, ?_, le_rfl⟩
    rw [Binary64.positivePart, if_neg fun h => hfinite h.1]
    exact hasValue_zero

theorem hasValue_speedOfLight : HasValue speedOfLight 299792458 := by
  have hvalue := Binary64.hasValue_natCast (n := 299792458) (by decide)
  exact_mod_cast hvalue

/-- Divided by the speed of light, a number stays a number. -/
theorem hasValue_div_speedOfLight (hx : HasValue x p) (hp : 0 ≤ p) :
    HasValue (x / speedOfLight) (nearest (p / 299792458)) := by
  refine (hx.rounds_div hasValue_speedOfLight (by norm_num)).hasValue_of_lt ?_
  have hless := hx.abs_lt_overflowPoint
  rw [abs_of_nonneg hp] at hless
  rw [abs_of_nonneg (by positivity)]
  exact (div_le_self hp (by norm_num)).trans_lt hless

theorem hasValue_lightSeconds (hx : HasValue x p) :
    HasValue (lightSeconds x) (nearest (max 0 p / 299792458)) :=
  hasValue_div_speedOfLight (hasValue_positivePart hx) (le_max_left _ _)

theorem exists_hasValue_lightSeconds (x : Binary64) : ∃ p, HasValue (lightSeconds x) p ∧ 0 ≤ p := by
  obtain ⟨p, hp, hnonneg⟩ := exists_hasValue_positivePart x
  exact ⟨_, hasValue_div_speedOfLight hp hnonneg, Binary64.nearest_nonneg (by positivity)⟩

/-- The delay over a longer distance in a slower network is no shorter, unless it is past all
    numbers. -/
theorem networkDelay_le_iff (hx : HasValue x p) (hy : HasValue y q) (hpq : p ≤ q)
    (hf : HasValue f a) (hg : HasValue g b) (hab : a ≤ b) : networkDelay x f ≤ networkDelay y g ↔
      ¬ Overflows (lightSeconds y) g.positivePart ∨ networkDelay x f = .zero := by
  have hdistance : max 0 p / 299792458 ≤ max 0 q / 299792458 :=
    div_le_div_of_nonneg_right (max_le_max_left 0 hpq) (by norm_num)
  exact Duration.ofSeconds_mul_le_iff (hasValue_lightSeconds hx) (hasValue_positivePart hf)
    (hasValue_lightSeconds hy) (hasValue_positivePart hg)
    (Binary64.nearest_nonneg (div_nonneg (le_max_left _ _) (by norm_num))) (le_max_left _ _)
    (Binary64.nearest_mono hdistance) (max_le_max_left 0 hab)

/-! ## Moving frames -/

theorem nearest_one : nearest 1 = 1 := hasValue_one.nearest_eq

/-- Values from zero to one are rounded to such values. -/
theorem nearest_mem_unit (hnonneg : 0 ≤ p) (hle : p ≤ 1) : 0 ≤ nearest p ∧ nearest p ≤ 1 :=
  ⟨Binary64.nearest_nonneg hnonneg, (Binary64.nearest_mono hle).trans_eq nearest_one⟩

theorem unit_lt_overflowPoint (hnonneg : 0 ≤ p) (hle : p ≤ 1) : |p| < overflowPoint := by
  rw [abs_of_nonneg hnonneg]
  have hone := hasValue_one.abs_lt_overflowPoint
  rw [abs_one] at hone
  exact hle.trans_lt hone

theorem not_isFinite_div_zero (x : Binary64) (hy : HasValue y 0) : (x / y).isFinite ≠ true := by
  obtain ⟨t, v, fits, rfl, hunits⟩ := hy.eq_finite
  have hv : v = 0 := by
    rw [zero_mul] at hunits
    have habs := congrArg Int.natAbs (Int.cast_eq_zero.mp hunits.symm)
    rwa [Binary64.natAbs_signed] at habs
  subst hv
  show (Binary64.div x (.finite t 0 fits)).isFinite ≠ true
  cases x with
  | nan => exact Bool.noConfusion
  | infinity s => exact Bool.noConfusion
  | finite s u fits' =>
    simp only [Binary64.div, if_true]
    split <;> exact Bool.noConfusion

/-- A clock never runs fast for its velocity. -/
theorem exists_hasValue_lorentzFactor (v : Binary64) :
    ∃ p, HasValue (lorentzFactor v) p ∧ 1 ≤ p := by
  unfold lorentzFactor
  split
  case isFalse => exact ⟨1, hasValue_one, le_rfl⟩
  next h =>
  obtain ⟨hfinite, hpos, hslow⟩ := h
  have hv : HasValue v v.toRat := ⟨hfinite, rfl⟩
  rw [hasValue_zero.lt_iff hv] at hpos
  rw [hv.lt_iff hasValue_speedOfLight] at hslow
  have hratio := hasValue_div_speedOfLight hv hpos.le
  obtain ⟨hnonneg, hle⟩ := nearest_mem_unit (p := v.toRat / 299792458) (by positivity)
    ((div_le_one (by norm_num)).mpr hslow.le)
  generalize nearest (v.toRat / 299792458) = r at hratio hnonneg hle
  have hr : 0 ≤ r * r ∧ r * r ≤ 1 := ⟨mul_nonneg hnonneg hnonneg, mul_le_one₀ hle hnonneg hle⟩
  have hsquare := (hratio.rounds_mul hratio).hasValue_of_lt (unit_lt_overflowPoint hr.1 hr.2)
  obtain ⟨hnonneg', hle'⟩ := nearest_mem_unit hr.1 hr.2
  generalize nearest (r * r) = s at hsquare hnonneg' hle'
  have hrest := (hasValue_one.rounds_sub hsquare).hasValue_of_lt
    (unit_lt_overflowPoint (sub_nonneg.mpr hle') (by linarith))
  obtain ⟨hnonneg'', hle''⟩ := nearest_mem_unit (p := 1 - s) (sub_nonneg.mpr hle') (by linarith)
  obtain ⟨root, hroot, hroot₀, hroot₁⟩ := Binary64.exists_hasValue_sqrt hrest hnonneg'' hle''
  simp only
  split
  case isFalse => exact ⟨1, hasValue_one, le_rfl⟩
  next hgamma =>
  rcases hroot₀.lt_or_eq with hsome | hnone
  · refine ⟨_, (hasValue_one.rounds_div hroot hsome.ne').hasValue hgamma, ?_⟩
    calc (1 : ℚ) = nearest 1 := nearest_one.symm
      _ ≤ nearest (1 / root) := Binary64.nearest_mono (by rwa [le_div_iff₀ hsome, one_mul])
  · rw [← hnone] at hroot
    exact absurd hgamma (not_isFinite_div_zero 1 hroot)

/-- Seen from a moving frame a delay is no shorter, unless it is past all numbers. -/
theorem networkDelay_le_relativisticDelay_iff (x v f : Binary64) :
    networkDelay x f ≤ relativisticDelay x v f ↔
      ¬ Overflows (networkSeconds x f) (lorentzFactor v) ∨ networkDelay x f = .zero := by
  obtain ⟨p, hp, hnonneg⟩ := exists_hasValue_lightSeconds x
  obtain ⟨q, hq, hnonneg'⟩ := exists_hasValue_positivePart f
  obtain ⟨gamma, hgamma, hle⟩ := exists_hasValue_lorentzFactor v
  by_cases hfinite : (networkSeconds x f).isFinite = true
  · have hbase : HasValue (networkSeconds x f) _ := (hp.rounds_mul hq).hasValue hfinite
    have hbase₀ := Binary64.nearest_nonneg (mul_nonneg hnonneg hnonneg')
    generalize nearest (p * q) = base at hbase hbase₀
    have hproduct : base ≤ base * gamma := le_mul_of_one_le_right hbase₀ hle
    have hoverflows : Overflows (networkSeconds x f) (lorentzFactor v) ↔
        overflowPoint ≤ base * gamma := by
      unfold Overflows
      rw [hbase.toRat_eq, hgamma.toRat_eq, abs_of_nonneg (hbase₀.trans hproduct)]
    rw [hoverflows]
    by_cases hrest : lorentzFactor v = 1
    · have hsame : relativisticDelay x v f = networkDelay x f := if_pos hrest
      have hone : gamma = 1 := by
        rw [hrest] at hgamma
        exact hgamma.toRat_eq.symm.trans hasValue_one.toRat_eq
      have hless := hbase.abs_lt_overflowPoint
      rw [abs_of_nonneg hbase₀] at hless
      rw [hsame, hone, mul_one]
      exact iff_of_true (Nat.le_refl _) (.inl (not_le.mpr hless))
    · have hslow : relativisticDelay x v f = .ofSeconds (networkSeconds x f * lorentzFactor v) :=
        if_neg hrest
      rw [hslow]
      exact Duration.ofSeconds_le_iff hbase.rounds (hbase.rounds_mul hgamma) hbase₀ hproduct
  · have hnone : networkDelay x f = .zero := Duration.ofSeconds_of_not_finite hfinite
    rw [hnone]
    simp [Duration.zero_le]

end Light

/-! ## Scaling -/

/-- A duration times a larger factor, the delay over a longer distance in a slower network, and a delay
    seen from a moving frame are no shorter just if the product of the larger numbers is still a number,
    or the shorter duration is none anyway. So is the safety margin of a larger delay and a larger
    factor, for settings that pass their check. -/
theorem scaling_monotone_iff (d raw raw' : Duration) (x y v f g : Binary64) (s s' : Settings)
    (validators validators' : Nat) (name name' : String) (now now' : Instant) :
    (0 < f → f ≤ g → f.isFinite = true → g.isFinite = true →
      (d.scale f ≤ d.scale g ↔ ¬ Overflows d.asSeconds g ∨ d.scale f = .zero)) ∧
    (0 ≤ x → x ≤ y → x.isFinite = true → y.isFinite = true →
      1 ≤ f → f ≤ g → f.isFinite = true → g.isFinite = true →
      (networkDelay x f ≤ networkDelay y g ↔
        ¬ Overflows (lightSeconds y) g ∨ networkDelay x f = .zero)) ∧
    (networkDelay x f ≤ relativisticDelay x v f ↔
      ¬ Overflows (networkSeconds x f) (lorentzFactor v) ∨ networkDelay x f = .zero) ∧
    (s.check = .ok () → s'.check = .ok () → raw ≤ raw' →
      s.consensus.minPropagationDelay ≤ s'.consensus.minPropagationDelay →
      s.consensus.safetyFactor ≤ s'.consensus.safetyFactor →
      ((ConsensusTiming.derive raw validators name now s.consensus).margin ≤
        (ConsensusTiming.derive raw' validators' name' now' s'.consensus).margin ↔
        ¬ Overflows (raw'.longer s'.consensus.minPropagationDelay).asSeconds
          s'.consensus.safetyFactor ∨
        (ConsensusTiming.derive raw validators name now s.consensus).margin = .zero)) := by
  refine ⟨?_, ?_, networkDelay_le_relativisticDelay_iff x v f, ?_⟩
  · intro hpos hfg hf hg
    have hf' : HasValue f f.toRat := ⟨hf, rfl⟩
    have hg' : HasValue g g.toRat := ⟨hg, rfl⟩
    rw [hasValue_zero.lt_iff hf'] at hpos
    rw [hf'.le_iff hg'] at hfg
    exact Duration.scale_le_scale_iff (Nat.le_refl _) hf' hg' hpos.le hfg
  · intro hnonneg hxy hx hy hone hfg hf hg
    have hf' : HasValue f f.toRat := ⟨hf, rfl⟩
    have hg' : HasValue g g.toRat := ⟨hg, rfl⟩
    have hx' : HasValue x x.toRat := ⟨hx, rfl⟩
    have hy' : HasValue y y.toRat := ⟨hy, rfl⟩
    rw [hx'.le_iff hy'] at hxy
    rw [hf'.le_iff hg'] at hfg
    rw [hasValue_one.le_iff hf'] at hone
    have hpos : 0 < g := (hasValue_zero.lt_iff hg').mpr (by linarith)
    have hself : g.positivePart = g := if_pos ⟨hg, hpos⟩
    have hdelays := networkDelay_le_iff hx' hy' hxy hf' hg' hfg
    rwa [hself] at hdelays
  · intro hs hs' hraw hleast hfactor
    obtain ⟨hfinite, hpos⟩ := (Settings.check_eq_ok_iff.mp hs).safetyFactor
    obtain ⟨hfinite', -⟩ := (Settings.check_eq_ok_iff.mp hs').safetyFactor
    have hf : HasValue s.consensus.safetyFactor s.consensus.safetyFactor.toRat := ⟨hfinite, rfl⟩
    have hg : HasValue s'.consensus.safetyFactor s'.consensus.safetyFactor.toRat := ⟨hfinite', rfl⟩
    rw [hf.le_iff hg] at hfactor
    rw [hasValue_zero.lt_iff hf] at hpos
    exact Duration.scale_le_scale_iff (Duration.longer_mono hraw hleast) hf hg hpos.le hfactor

/-! ### Products about the largest number -/

/-- Settings that pass their check, with a factor for which a margin of two seconds is past all
    numbers. -/
def steep : Settings := { consensus := { safetyFactor := 1e308 } }

theorem check_steep : steep.check = .ok () :=
  Settings.check_eq_ok_iff.mpr (by constructor <;> decide +kernel)

/-- Products that are still numbers stop at the longest duration. -/
theorem scaling_monotone_below_overflow :
    (Duration.ofSecs 2).scale 1 ≤ (Duration.ofSecs 2).scale 1e307 ∧
    networkDelay 1 1 ≤ networkDelay 299792458 1e307 ∧
    networkDelay 1 1 ≤ relativisticDelay 1 269813212 1 ∧
    (ConsensusTiming.derive (.ofSecs 1) 2 "" .epoch (Settings.consensus {})).margin ≤
      (ConsensusTiming.derive (.ofSecs 1) 2 "" .epoch steep.consensus).margin := by
  obtain ⟨hscale, hnetwork, hmoving, hmargin⟩ := scaling_monotone_iff (.ofSecs 2) (.ofSecs 1)
    (.ofSecs 1) 1 299792458 269813212 1 1e307 {} steep 2 2 "" "" .epoch .epoch
  have hsmall : (1 : Binary64).isFinite = true := by decide +kernel
  have hlarge : (1e307 : Binary64).isFinite = true := by decide +kernel
  have hle : (1 : Binary64) ≤ 1e307 := by decide +kernel
  refine ⟨?_, ?_, ?_, ?_⟩
  · refine (hscale (by decide +kernel) hle hsmall hlarge).mpr (.inl ?_)
    exact (Binary64.isFinite_mul_iff (by decide +kernel) hlarge).mp (by decide +kernel)
  · refine (hnetwork (by decide +kernel) (by decide +kernel) hsmall (by decide +kernel)
      (by decide +kernel) hle hsmall hlarge).mpr (.inl ?_)
    exact (Binary64.isFinite_mul_iff (by decide +kernel) hlarge).mp (by decide +kernel)
  · refine hmoving.mpr (.inl ?_)
    exact (Binary64.isFinite_mul_iff (by decide +kernel) (by decide +kernel)).mp (by decide +kernel)
  · refine (hmargin TwoNodes.check_defaults check_steep (Nat.le_refl _) (Nat.le_refl _)
      (by decide +kernel)).mpr (.inl ?_)
    exact (Binary64.isFinite_mul_iff (by decide +kernel) (by decide +kernel)).mp (by decide +kernel)

/-- Products past all numbers leave nothing, also of what smaller numbers make the longest duration: two
    seconds times `1e308`, a network delay over `1e300` meters, the same seen from a moving frame, and the
    margin of two seconds, where that of one second is the longest one. -/
theorem scaling_collapses :
    ¬ (Duration.ofSecs 2).scale 1e307 ≤ (Duration.ofSecs 2).scale 1e308 ∧
    ¬ networkDelay 1e300 1 ≤ networkDelay 1e300 1e100 ∧
    ¬ networkDelay 299792458 1e308 ≤ relativisticDelay 299792458 269813212 1e308 ∧
    steep.check = .ok () ∧
    ¬ (ConsensusTiming.derive (.ofSecs 1) 2 "" .epoch steep.consensus).margin ≤
      (ConsensusTiming.derive (.ofSecs 2) 2 "" .epoch steep.consensus).margin :=
  ⟨by decide +kernel, by decide +kernel, by decide +kernel, check_steep, by decide +kernel⟩

end LightCone
