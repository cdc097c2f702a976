import LightCone.Proofs.Run.Confidences
import LightCone.Proofs.Run.TwoNodes
import LightCone.Proofs.Seconds
import LightCone.Proofs.Sums
import Mathlib.Algebra.Order.Ring.Pow

/-!
The global offset and the order of the offsets.

The offsets are weighted by confidence, added up in the order in which they come, and divided by the sum
of the weights. Each addition is rounded, so the order may show in the result. This file

1. compares rounded quotients of sums that are close, down to nanoseconds (`nanos_le_of_quotient_le`);
2. reads the global offset as the quotient of two sums over the offsets above a confidence
   (`globalOffset_eq`), and compares such quotients for two orders (`weightedMean_le_of_perm`,
   `weightedMean_eq_of_short`);
3. concludes how far apart the global offsets of two orders are, for all offsets and for those a service
   knows after any run (`globalOffset_nearly_same`), and shows that they may be a nanosecond apart
   (`globalOffset_depends_on_order`).
-/
namespace LightCone

open Binary64 (HasValue InUnit UpTo nearest sight addUp total hasValue_zero)

/-! ## Means -/

section Means

variable {n : Nat}

/-- Quotients of sums that are close are close. -/
theorem quotient_le {s s' w w' : ℚ} (hs : 0 ≤ s) (hw : 0 < w) (hw' : 0 < w')
    (hsums : (1 - 1 / 2 ^ 53) ^ n * s' ≤ (1 + 1 / 2 ^ 53) ^ n * s)
    (hweights : (1 - 1 / 2 ^ 53) ^ n * w ≤ (1 + 1 / 2 ^ 53) ^ n * w') :
    s' / w' ≤ (1 + 9 / 2 / 2 ^ 53) ^ n * (s / w) := by
  have hless : (0 : ℚ) < (1 - 1 / 2 ^ 53) ^ n := pow_pos (by norm_num) n
  have hmore : (0 : ℚ) < (1 + 1 / 2 ^ 53) ^ n := pow_pos (by norm_num) n
  have hgrowth : ((1 + 1 / 2 ^ 53) ^ n * (1 + 1 / 2 ^ 53) ^ n : ℚ) ≤
      (1 - 1 / 2 ^ 53) ^ n * (1 - 1 / 2 ^ 53) ^ n * (1 + 9 / 2 / 2 ^ 53) ^ n := by
    rw [← mul_pow, ← mul_pow, ← mul_pow]
    exact pow_le_pow_left₀ (by norm_num) (by norm_num) n
  generalize ((1 - 1 / 2 ^ 53) ^ n : ℚ) = low at *
  generalize ((1 + 1 / 2 ^ 53) ^ n : ℚ) = high at *
  generalize ((1 + 9 / 2 / 2 ^ 53) ^ n : ℚ) = growth at *
  rw [div_le_iff₀ hw', mul_assoc, div_mul_eq_mul_div, ← mul_div_assoc, le_div_iff₀ hw]
  refine le_of_mul_le_mul_left ?_ (mul_pos hless hless)
  calc low * low * (s' * w) = low * s' * (low * w) := by ring
    _ ≤ high * s * (high * w') := mul_le_mul hsums hweights (by positivity) (by positivity)
    _ = high * high * (s * w') := by ring
    _ ≤ low * low * growth * (s * w') := mul_le_mul_of_nonneg_right hgrowth (by positivity)
    _ = low * low * (growth * (s * w')) := by ring

/-- What is left of the larger factor for a rounded quotient. -/
theorem growth_le (hn : 0 < n) :
    ((1 + 9 / 2 / 2 ^ 53) ^ n * (1 + 5 / 2 / 2 ^ 53) * (1 + 1 / 2 / 2 ^ 53) : ℚ) ≤
      (1 + 1 / 2 ^ 50) ^ n := by
  have hgrowth : (0 : ℚ) ≤ (1 + 9 / 2 / 2 ^ 53) ^ n := by positivity
  calc ((1 + 9 / 2 / 2 ^ 53) ^ n * (1 + 5 / 2 / 2 ^ 53) * (1 + 1 / 2 / 2 ^ 53) : ℚ)
      ≤ (1 + 9 / 2 / 2 ^ 53) ^ n * (1 + 13 / 4 / 2 ^ 53) := by
        rw [mul_assoc]
        exact mul_le_mul_of_nonneg_left (by norm_num) hgrowth
    _ ≤ (1 + 9 / 2 / 2 ^ 53) ^ n * (1 + 13 / 4 / 2 ^ 53) ^ n :=
        mul_le_mul_of_nonneg_left (le_self_pow₀ (by norm_num) hn.ne') hgrowth
    _ = ((1 + 9 / 2 / 2 ^ 53) * (1 + 13 / 4 / 2 ^ 53)) ^ n := (mul_pow _ _ _).symm
    _ ≤ (1 + 1 / 2 ^ 50) ^ n := pow_le_pow_left₀ (by norm_num) (by norm_num) n

/-- The nanoseconds of a number of seconds are within half a one of them, up to the longest duration. -/
theorem nanos_near {x : Binary64} {q : ℚ} (hx : HasValue x q) (hq : 0 ≤ q) :
    ((Duration.ofSeconds x).nanos : ℚ) ≤ q * nanosPerSecond + 1 / 2 ∧
      (q * nanosPerSecond ≤ (Duration.ofSeconds x).nanos + 1 / 2 ∨
        Duration.ofSeconds x = .longest) := by
  rcases le_or_gt (q * nanosPerSecond) Duration.longest.nanos with hle | hlt
  · have hclose := Duration.abs_nanos_ofSeconds_sub_le hx
      (mul_nonneg hq Duration.nanosPerSecond_pos.le) hle
    rw [sub_self, abs_zero, zero_add] at hclose
    obtain ⟨hlower, hupper⟩ := abs_le.mp hclose
    exact ⟨by linarith, .inl (by linarith)⟩
  · have hmost : (Duration.ofSeconds x).nanos ≤ Duration.longest.nanos := Duration.le_longest _
    have hleast := Duration.le_nanos_ofSeconds hx le_rfl hlt.le
    have hmost' : ((Duration.ofSeconds x).nanos : ℚ) ≤ Duration.longest.nanos := by
      exact_mod_cast hmost
    exact ⟨by linarith, .inr (Duration.ext (Nat.le_antisymm hmost hleast))⟩

/-- Rounding two quotients makes the larger one larger by some more parts, and by what is lost below all
    units. -/
theorem nearest_le_of_quotient_le {t t' growth : ℚ} (ht : 0 ≤ t) (ht' : 0 ≤ t') (hsight : t ≤ sight)
    (hsight' : t' ≤ sight) (hgrowth : 0 ≤ growth) (h : t' ≤ growth * t) :
    nearest t' ≤ growth * (1 + 5 / 2 / 2 ^ 53) * (nearest t + 1 / 2 / 2 ^ 200) + 1 / 2 / 2 ^ 200 := by
  have hunit := Binary64.half_unit_le
  have hround := Binary64.abs_nearest_sub_le (q := t) (by rwa [abs_of_nonneg ht])
  have hround' := Binary64.abs_nearest_sub_le (q := t') (by rwa [abs_of_nonneg ht'])
  rw [abs_of_nonneg ht] at hround
  rw [abs_of_nonneg ht'] at hround'
  have hlower : (1 - 1 / 2 ^ 53) * t ≤ nearest t + 1 / 2 / 2 ^ 200 := by
    linarith [(abs_le.mp hround).1]
  have hupper : nearest t' ≤ (1 + 1 / 2 ^ 53) * t' + 1 / 2 / 2 ^ 200 := by
    linarith [(abs_le.mp hround').2]
  have hfactors : (1 + 1 / 2 ^ 53 : ℚ) ≤ (1 + 5 / 2 / 2 ^ 53) * (1 - 1 / 2 ^ 53) := by norm_num
  refine hupper.trans (add_le_add_left ?_ _)
  calc (1 + 1 / 2 ^ 53) * t' ≤ (1 + 1 / 2 ^ 53) * (growth * t) :=
        mul_le_mul_of_nonneg_left h (by norm_num)
    _ = growth * ((1 + 1 / 2 ^ 53) * t) := by ring
    _ ≤ growth * ((1 + 5 / 2 / 2 ^ 53) * (1 - 1 / 2 ^ 53) * t) :=
        mul_le_mul_of_nonneg_left (mul_le_mul_of_nonneg_right hfactors ht) hgrowth
    _ = growth * (1 + 5 / 2 / 2 ^ 53) * ((1 - 1 / 2 ^ 53) * t) := by ring
    _ ≤ growth * (1 + 5 / 2 / 2 ^ 53) * (nearest t + 1 / 2 / 2 ^ 200) :=
        mul_le_mul_of_nonneg_left hlower (by positivity)

/-- Half a nanosecond for each rounding, and what is lost below all units, leave room for one nanosecond
    more and a factor that is next to nothing. -/
theorem grown_nanos_le {wide seconds seconds' nanos nanos' : ℚ} (hwide : 1 ≤ wide) (hnonneg : 0 ≤ nanos)
    (hseconds : seconds' ≤ wide * (seconds + 1 / 2 / 2 ^ 200) + 1 / 2 / 2 ^ 200)
    (hnanos : seconds * nanosPerSecond ≤ nanos + 1 / 2)
    (hnanos' : nanos' ≤ seconds' * nanosPerSecond + 1 / 2) :
    nanos' ≤ wide * (1 + 1 / 2 / 2 ^ 53) * (nanos + 1) := by
  have hunit : (nanosPerSecond : ℚ) = 1000000000 := by norm_num [nanosPerSecond]
  rw [hunit] at hnanos hnanos'
  have hgrown : wide * (seconds + 1 / 2 / 2 ^ 200) * 1000000000 ≤
      wide * (nanos + 1 / 2 + 1 / 2 ^ 100) := by
    rw [mul_assoc]
    exact mul_le_mul_of_nonneg_left (by linarith) (by linarith)
  have hrest : (1 / 2 + 1 / 2 ^ 100 : ℚ) ≤ 1 / 2 - 1 / 2 ^ 100 + 1 / 2 / 2 ^ 53 := by norm_num
  calc nanos' ≤ wide * (nanos + 1 / 2 + 1 / 2 ^ 100) + (1 / 2 + 1 / 2 ^ 100) := by linarith
    _ ≤ wide * (nanos + 1 / 2 + 1 / 2 ^ 100) + wide * (1 / 2 - 1 / 2 ^ 100 + 1 / 2 / 2 ^ 53) :=
      add_le_add_right (hrest.trans (le_mul_of_one_le_left (by norm_num) hwide)) _
    _ ≤ wide * (1 + 1 / 2 / 2 ^ 53) * (nanos + 1) := by
      rw [← mul_add, mul_assoc]
      exact mul_le_mul_of_nonneg_left (by linarith) (by linarith)

/-- Rounding two quotients, to numbers and to nanoseconds, sets them apart by one more nanosecond. -/
theorem nanos_le_of_quotient_le {x x' : Binary64} {t t' : ℚ} (hn : 0 < n) (ht : 0 ≤ t) (ht' : 0 ≤ t')
    (hsight : t ≤ sight) (hsight' : t' ≤ sight) (hx : HasValue x (nearest t))
    (hx' : HasValue x' (nearest t')) (h : t' ≤ (1 + 9 / 2 / 2 ^ 53) ^ n * t) :
    ((Duration.ofSeconds x').nanos : ℚ) ≤
      (1 + 1 / 2 ^ 50) ^ n * ((Duration.ofSeconds x).nanos + 1) := by
  have hnonneg : (0 : ℚ) ≤ (Duration.ofSeconds x).nanos := Nat.cast_nonneg _
  obtain ⟨hnanos', -⟩ := nanos_near hx' (Binary64.nearest_nonneg ht')
  obtain ⟨-, hnanos | hlongest⟩ := nanos_near hx (Binary64.nearest_nonneg ht)
  · have hgrowth : (1 : ℚ) ≤ (1 + 9 / 2 / 2 ^ 53) ^ n := one_le_pow₀ (by norm_num)
    have hround := nearest_le_of_quotient_le ht ht' hsight hsight' (by linarith) h
    exact (grown_nanos_le (by linarith) hnonneg hround hnanos hnanos').trans
      (mul_le_mul_of_nonneg_right (growth_le hn) (by linarith))
  · have hmost : (Duration.ofSeconds x').nanos ≤ (Duration.ofSeconds x).nanos := by
      rw [hlongest]
      exact Duration.le_longest _
    have hmost' : ((Duration.ofSeconds x').nanos : ℚ) ≤ (Duration.ofSeconds x).nanos + 1 := by
      exact_mod_cast hmost.trans (Nat.le_succ _)
    exact hmost'.trans (le_mul_of_one_le_left (by linarith) (one_le_pow₀ (by norm_num)))

end Means

/-! ## Weighted offsets -/

/-- An offset in seconds, times its confidence. -/
def weighted (o : Duration × Binary64) : Binary64 := o.1.asSeconds * o.2

/-- The offsets above a least confidence. -/
def confident (offsets : List (Duration × Binary64)) (least : Binary64) : List (Duration × Binary64) :=
  offsets.filter fun o => decide (least < o.2)

/-- The mean of offsets, weighted by confidence. -/
def weightedMean (offsets : List (Duration × Binary64)) : Duration :=
  if addUp (offsets.map Prod.snd) ≤ 0 then .zero
  else .ofSeconds (addUp (offsets.map weighted) / addUp (offsets.map Prod.snd))

theorem globalOffset_eq (offsets : List (Duration × Binary64)) (least : Binary64) :
    globalOffset offsets least = weightedMean (confident offsets least) := by
  have hsum (l : List (Duration × Binary64)) :
      l.foldl (fun s o => WeightedSum.mk (s.sum + o.1.asSeconds * o.2) (s.weight + o.2)) ⟨0, 0⟩ =
        ⟨addUp (l.map weighted), addUp (l.map Prod.snd)⟩ := by
    induction l using List.reverseRecOn with
    | nil => rfl
    | append_singleton l o ih =>
      simp only [List.foldl_append, ih, List.map_append, List.map_cons, List.map_nil,
        Binary64.addUp_append]
      rfl
  unfold globalOffset
  rw [hsum]
  rfl

section Offsets

variable {o : Duration × Binary64} {l l' : List (Duration × Binary64)}

/-- An offset that counts has a positive weight, at most one. -/
def Counts (o : Duration × Binary64) : Prop := UpTo (2 ^ 0) o.2 ∧ 0 < o.2.toRat

theorem counts_of_confident {least : Binary64} (hleast : InUnit least) (ho : InUnit o.2)
    (h : least < o.2) : Counts o := by
  have hzero := (hasValue_zero.le_iff hleast.upTo.hasValue).mp hleast.1
  have hless := (hleast.upTo.hasValue.lt_iff ho.upTo.hasValue).mp h
  exact ⟨ho.upTo, by linarith⟩

theorem hasValue_weighted (h : Counts o) : HasValue (weighted o) (nearest (o.1.asRat * o.2.toRat)) := by
  refine o.1.hasValue_asSeconds.mul h.1.hasValue (Duration.le_sight ?_)
  rw [abs_of_nonneg (mul_nonneg o.1.asRat_nonneg h.1.nonneg)]
  nlinarith [o.1.asRat_le, o.1.asRat_nonneg, h.1.le, h.1.nonneg]

theorem upTo_weighted (h : Counts o) : UpTo (2 ^ 64) (weighted o) := by
  have hle : o.1.asRat * o.2.toRat ≤ 2 ^ 64 := by
    nlinarith [o.1.asRat_le, o.1.asRat_nonneg, h.1.le, h.1.nonneg]
  refine (hasValue_weighted h).upTo
    (Binary64.nearest_nonneg (mul_nonneg o.1.asRat_nonneg h.1.nonneg)) ?_
  calc nearest (o.1.asRat * o.2.toRat) ≤ nearest (2 ^ 64) := Binary64.nearest_mono hle
    _ = 2 ^ 64 := Binary64.nearest_two_pow (by omega)

/-- A positive weight is at least one unit, so rounding at most doubles what it is multiplied with. -/
theorem weighted_le (h : Counts o) : (weighted o).toRat ≤ o.2.toRat * 2 ^ 65 := by
  obtain ⟨hweight, hpos⟩ := h
  have hproduct : 0 ≤ o.1.asRat * o.2.toRat := mul_nonneg o.1.asRat_nonneg hweight.nonneg
  have hle : o.1.asRat * o.2.toRat ≤ 2 ^ 64 * o.2.toRat :=
    mul_le_mul_of_nonneg_right o.1.asRat_le hpos.le
  have hsight : |o.1.asRat * o.2.toRat| ≤ sight := by
    rw [abs_of_nonneg hproduct]
    exact Duration.le_sight (by linarith [hweight.le])
  have hround := (abs_le.mp (Binary64.abs_nearest_sub_le hsight)).2
  rw [abs_of_nonneg hproduct] at hround
  have hunit : 1 / 2 / (Binary64.one : ℚ) ≤ o.2.toRat / 2 := by
    obtain ⟨units, _, hunits⟩ := hweight.hasValue.exists_units hpos
    have hsome : (1 : ℚ) ≤ units := by
      have hunits' : (0 : ℚ) < units := hunits ▸ mul_pos hpos Binary64.one_pos_rat
      exact_mod_cast hunits'
    rw [div_le_iff₀ Binary64.one_pos_rat, div_mul_eq_mul_div, hunits]
    linarith
  rw [(hasValue_weighted ⟨hweight, hpos⟩).toRat_eq]
  linarith

/-! ## Means in two orders -/

theorem upTo_weights (h : ∀ o ∈ l, Counts o) : ∀ x ∈ l.map Prod.snd, UpTo (2 ^ 0) x :=
  List.forall_mem_map.mpr fun o ho => (h o ho).1

theorem upTo_weighteds (h : ∀ o ∈ l, Counts o) : ∀ x ∈ l.map weighted, UpTo (2 ^ 64) x :=
  List.forall_mem_map.mpr fun o ho => upTo_weighted (h o ho)

/-- The weights of some offsets add up to something. -/
theorem exists_weight (h : ∀ o ∈ l, Counts o) (hsome : l ≠ []) :
    UpTo (2 ^ 54) (addUp (l.map Prod.snd)) ∧ 0 < (addUp (l.map Prod.snd)).toRat := by
  refine ⟨Binary64.upTo_addUp (by omega) (upTo_weights h), ?_⟩
  have hpos : 0 < total (l.map Prod.snd) := by
    unfold total
    rw [List.map_map]
    exact List.sum_pos _ (List.forall_mem_map.mpr fun o ho => (h o ho).2) (by simpa using hsome)
  exact lt_of_lt_of_le (mul_pos (pow_pos (by norm_num) _) hpos)
    (Binary64.addUp_near (by omega) (upTo_weights h)).1

/-- Their mean is the rounded quotient of the two sums. -/
theorem exists_mean (h : ∀ o ∈ l, Counts o) (hsome : l ≠ []) :
    UpTo (2 ^ 118) (addUp (l.map weighted)) ∧
    (addUp (l.map weighted)).toRat / (addUp (l.map Prod.snd)).toRat ≤ sight ∧
    HasValue (addUp (l.map weighted) / addUp (l.map Prod.snd))
      (nearest ((addUp (l.map weighted)).toRat / (addUp (l.map Prod.snd)).toRat)) ∧
    weightedMean l = .ofSeconds (addUp (l.map weighted) / addUp (l.map Prod.snd)) := by
  obtain ⟨hweight, hpos⟩ := exists_weight h hsome
  have hsum : UpTo (2 ^ 118) (addUp (l.map weighted)) :=
    Binary64.upTo_addUp (by omega) (upTo_weighteds h)
  have hratio := Binary64.addUp_le_mul_two_pow (by omega) (by omega)
    (fun o ho => upTo_weighted (h o ho)) (fun o ho => (h o ho).1) (fun o ho => weighted_le (h o ho))
  have hsight : (addUp (l.map weighted)).toRat / (addUp (l.map Prod.snd)).toRat ≤ sight := by
    refine (div_le_of_le_mul₀ hpos.le (by positivity) ?_).trans
      (Binary64.two_pow_le_sight (k := 65) (by omega))
    rwa [mul_comm]
  refine ⟨hsum, hsight, hsum.hasValue.div hweight.hasValue hpos.ne' ?_, if_neg ?_⟩
  · rwa [abs_of_nonneg (div_nonneg hsum.nonneg hpos.le)]
  · rw [hweight.hasValue.le_iff hasValue_zero, not_le]
    exact hpos

/-- In two orders, offsets have means that are close. -/
theorem weightedMean_le_of_perm (h : ∀ o ∈ l, Counts o) (hperm : l.Perm l') :
    ((weightedMean l).nanos : ℚ) ≤ (1 + 1 / 2 ^ 50) ^ l.length * ((weightedMean l').nanos + 1) := by
  rcases eq_or_ne l [] with rfl | hsome
  · rw [List.nil_perm.mp hperm]
    simp
  · have h' : ∀ o ∈ l', Counts o := fun o ho => h o (hperm.mem_iff.mpr ho)
    have hsome' : l' ≠ [] := fun hnil => hsome (List.perm_nil.mp (hnil ▸ hperm))
    obtain ⟨-, hpos⟩ := exists_weight h hsome
    obtain ⟨-, hpos'⟩ := exists_weight h' hsome'
    obtain ⟨hsum, hsight, hvalue, hmean⟩ := exists_mean h hsome
    obtain ⟨hsum', hsight', hvalue', hmean'⟩ := exists_mean h' hsome'
    have hsums := Binary64.addUp_le_of_perm (by omega) (upTo_weighteds h) (hperm.map weighted)
    have hweights := Binary64.addUp_le_of_perm (by omega) (upTo_weights h')
      (hperm.symm.map Prod.snd)
    rw [List.length_map] at hsums hweights
    rw [← hperm.length_eq] at hweights
    rw [hmean, hmean']
    exact nanos_le_of_quotient_le (List.length_pos_iff.mpr hsome)
      (div_nonneg hsum'.nonneg hpos'.le) (div_nonneg hsum.nonneg hpos.le) hsight' hsight hvalue'
      hvalue (quotient_le hsum'.nonneg hpos' hpos hsums hweights)

/-- Two offsets have the same mean in both orders. -/
theorem weightedMean_eq_of_short (h : ∀ o ∈ l, Counts o) (hperm : l.Perm l') (hshort : l.length ≤ 2) :
    weightedMean l = weightedMean l' := by
  rcases eq_or_ne l [] with rfl | hsome
  · rw [List.nil_perm.mp hperm]
  · have h' : ∀ o ∈ l', Counts o := fun o ho => h o (hperm.mem_iff.mpr ho)
    have hsome' : l' ≠ [] := fun hnil => hsome (List.perm_nil.mp (hnil ▸ hperm))
    have hshort' : l'.length ≤ 2 := hperm.length_eq ▸ hshort
    obtain ⟨-, -, hvalue, hmean⟩ := exists_mean h hsome
    obtain ⟨-, -, hvalue', hmean'⟩ := exists_mean h' hsome'
    have hsums : (addUp (l.map weighted)).toRat = (addUp (l'.map weighted)).toRat := by
      rw [Binary64.addUp_of_short (by omega) (upTo_weighteds h) (by simpa using hshort),
        Binary64.addUp_of_short (by omega) (upTo_weighteds h') (by simpa using hshort'),
        Binary64.total_perm (hperm.map weighted)]
    have hweights : (addUp (l.map Prod.snd)).toRat = (addUp (l'.map Prod.snd)).toRat := by
      rw [Binary64.addUp_of_short (by omega) (upTo_weights h) (by simpa using hshort),
        Binary64.addUp_of_short (by omega) (upTo_weights h') (by simpa using hshort'),
        Binary64.total_perm (hperm.map Prod.snd)]
    rw [hsums, hweights] at hvalue
    rw [hmean, hmean']
    exact Duration.ext (Nat.le_antisymm (Duration.ofSeconds_mono hvalue hvalue' le_rfl)
      (Duration.ofSeconds_mono hvalue' hvalue le_rfl))

end Offsets

/-! ## Global offsets in two orders -/

/-- How little longer one mean of `n` offsets is than another: a nanosecond, and one part in `2 ^ 50` for
    each offset. As long as all these parts are less than a nanosecond, it is a nanosecond only, and if
    no sum has more than two terms, it is nothing. -/
structure HardlyLonger (n : Nat) (d d' : Duration) : Prop where
  growth : (d.nanos : ℚ) ≤ (1 + 1 / 2 ^ 50) ^ n * (d'.nanos + 1)
  nanosecond : n * (d'.nanos + 2) < 2 ^ 50 → d.nanos ≤ d'.nanos + 1
  short : n ≤ 2 → d = d'

/-- Each is hardly longer than the other. -/
def NearlySame (n : Nat) (d d' : Duration) : Prop := HardlyLonger n d d' ∧ HardlyLonger n d' d

/-- Growing by small parts takes no whole nanosecond more, as long as the parts do not add up to one. -/
theorem le_succ_of_growth {n a b : Nat} (h : (a : ℚ) ≤ (1 + 1 / 2 ^ 50) ^ n * (b + 1))
    (hsmall : n * (b + 2) < 2 ^ 50) : a ≤ b + 1 := by
  have hparts : (n : ℚ) * (b + 2) < 2 ^ 50 := by exact_mod_cast hsmall
  have hfew : (n : ℚ) ≤ n * (b + 2) :=
    le_mul_of_one_le_right (Nat.cast_nonneg n) (by linarith [(Nat.cast_nonneg b : (0 : ℚ) ≤ b)])
  have hleft : (0 : ℚ) < 1 - n / 2 ^ 50 := by
    rw [sub_pos, div_lt_one (by norm_num)]
    linarith
  -- Bernoulli's inequality, for what is left after as many such parts are taken away.
  have hshrink : (1 - n / 2 ^ 50 : ℚ) ≤ (1 - 1 / 2 ^ 50) ^ n := by
    have hbernoulli := one_add_mul_le_pow (a := (-(1 / 2 ^ 50) : ℚ)) (by norm_num) n
    linarith
  have hcancel : (1 + 1 / 2 ^ 50 : ℚ) ^ n * (1 - n / 2 ^ 50) ≤ 1 :=
    calc (1 + 1 / 2 ^ 50 : ℚ) ^ n * (1 - n / 2 ^ 50)
        ≤ (1 + 1 / 2 ^ 50) ^ n * (1 - 1 / 2 ^ 50) ^ n :=
          mul_le_mul_of_nonneg_left hshrink (by positivity)
      _ = ((1 + 1 / 2 ^ 50) * (1 - 1 / 2 ^ 50)) ^ n := (mul_pow _ _ _).symm
      _ ≤ 1 := pow_le_one₀ (by norm_num) (by norm_num)
  have hless : (a : ℚ) * (1 - n / 2 ^ 50) < (b + 2 : Nat) * (1 - n / 2 ^ 50) :=
    calc (a : ℚ) * (1 - n / 2 ^ 50) ≤ (1 + 1 / 2 ^ 50) ^ n * (b + 1) * (1 - n / 2 ^ 50) :=
          mul_le_mul_of_nonneg_right h hleft.le
      _ = (1 + 1 / 2 ^ 50) ^ n * (1 - n / 2 ^ 50) * (b + 1) := by ring
      _ ≤ b + 1 := mul_le_of_le_one_left (by positivity) hcancel
      _ < (b + 2 : Nat) * (1 - n / 2 ^ 50) := by
        push_cast
        linarith
  exact Nat.lt_succ_iff.mp (by exact_mod_cast lt_of_mul_lt_mul_right hless hleft.le)

section Orders

variable {l l' : List (Duration × Binary64)} {least : Binary64}

/-- In another order the global offset is hardly longer. -/
theorem hardlyLonger_of_perm (hperm : l.Perm l') (hleast : InUnit least)
    (hsure : ∀ o ∈ l, InUnit o.2) :
    HardlyLonger (confident l least).length (globalOffset l least) (globalOffset l' least) := by
  have hcounts : ∀ o ∈ confident l least, Counts o := by
    intro o ho
    obtain ⟨hmem, habove⟩ := List.mem_filter.mp ho
    exact counts_of_confident hleast (hsure o hmem) (of_decide_eq_true habove)
  have hconfident : (confident l least).Perm (confident l' least) := hperm.filter _
  have hgrowth := weightedMean_le_of_perm hcounts hconfident
  rw [globalOffset_eq, globalOffset_eq]
  exact ⟨hgrowth, le_succ_of_growth hgrowth, weightedMean_eq_of_short hcounts hconfident⟩

theorem nearlySame_of_perm (hperm : l.Perm l') (hleast : InUnit least)
    (hsure : ∀ o ∈ l, InUnit o.2) :
    NearlySame (confident l least).length (globalOffset l least) (globalOffset l' least) := by
  have hlength : (confident l least).length = (confident l' least).length :=
    (hperm.filter _).length_eq
  refine ⟨hardlyLonger_of_perm hperm hleast hsure, ?_⟩
  rw [hlength]
  exact hardlyLonger_of_perm hperm.symm hleast fun o ho => hsure o (hperm.mem_iff.mpr ho)

end Orders

namespace Service

/-- What a record adds to the global offset. -/
def share (record : NodeOffset) : Duration × Binary64 := (record.offset, record.confidence)

/-- The confidence that a global offset asks for is from zero to one, in every service. -/
theorem inUnit_globalMinConfidence {settings : Settings} {directory : Directory} {access : Access}
    {now : Instant} {metrics : Option Metrics} {s : Service}
    (hstart : Service.start settings directory access now metrics = .ok s) :
    InUnit s.settings.offsets.globalMinConfidence := by
  rw [eq_of_start hstart]
  exact (Settings.check_eq_ok_iff.mp (check_of_start hstart)).globalMinConfidence

end Service

/-- In whatever order offsets with confidences from zero to one come, their global offsets are nearly the
    same. So are those of the offsets that a service knows after any run, in whatever order its store
    gives them. -/
theorem globalOffset_nearly_same :
    (∀ {l l' : List (Duration × Binary64)} {least : Binary64}, l.Perm l' → InUnit least →
      (∀ o ∈ l, InUnit o.2) →
      NearlySame (confident l least).length (globalOffset l least) (globalOffset l' least)) ∧
    ∀ {clock : Instant → Instant → Prop} {settings : Settings} {directory : Directory}
      {access : Access} {now : Instant} {metrics : Option Metrics} {start s : Service}
      {requests : List Request} {history : List Happening} {answers : List Answer}
      {records : List NodeOffset},
      Service.start settings directory access now metrics = .ok start →
      Service.Run clock start requests history answers s → s.knownOffsets.Perm records →
      NearlySame (confident (s.knownOffsets.map Service.share)
          s.settings.offsets.globalMinConfidence).length
        s.globalOffset (globalOffset (records.map Service.share)
          s.settings.offsets.globalMinConfidence) := by
  refine ⟨nearlySame_of_perm, fun hstart hrun hperm => ?_⟩
  have hleast := Service.inUnit_globalMinConfidence hstart
  rw [← hrun.settings_eq] at hleast
  exact nearlySame_of_perm (hperm.map Service.share) hleast
    (List.forall_mem_map.mpr (hrun.sure_of_known hstart))

/-! ## Three offsets -/

/-- Offsets of 7, 9.5 and 18.5 milliseconds, the first two with two more nanoseconds. -/
def threeOffsets : List (Duration × Binary64) :=
  [(⟨7000002, by decide⟩, 0.9), (⟨9500002, by decide⟩, 0.9), (⟨18500000, by decide⟩, 0.6)]

/-- The same, the first one last. -/
def threeTurned : List (Duration × Binary64) :=
  [(⟨9500002, by decide⟩, 0.9), (⟨18500000, by decide⟩, 0.6), (⟨7000002, by decide⟩, 0.9)]

theorem threeOffsets_perm : threeOffsets.Perm threeTurned :=
  (List.perm_append_singleton _ [_, _]).symm

theorem threeOffsets_sure : InUnit 0.5 ∧ ∀ o ∈ threeOffsets, InUnit o.2 := by
  unfold InUnit
  decide +kernel

theorem nanos_threeOffsets : (globalOffset threeOffsets 0.5).nanos = 10812502 ∧
    (globalOffset threeTurned 0.5).nanos = 10812501 := by decide +kernel

/-- Of these the global offset depends on the order: it is 10.812502 milliseconds in the one and a
    nanosecond less in the other. -/
theorem globalOffset_depends_on_order :
    threeOffsets.Perm threeTurned ∧ InUnit 0.5 ∧ (∀ o ∈ threeOffsets, InUnit o.2) ∧
    (globalOffset threeOffsets 0.5).nanos = 10812502 ∧
    (globalOffset threeTurned 0.5).nanos = 10812501 :=
  ⟨threeOffsets_perm, threeOffsets_sure.1, threeOffsets_sure.2, nanos_threeOffsets⟩

open TwoNodes

/-- In no order of the three offsets is the global offset more than a nanosecond from the one in which
    they stand here, and a service that has measured the offsets of its two nodes has the same global
    offset in both orders. -/
theorem globalOffset_nearly_same_of_three :
    (∀ l, threeOffsets.Perm l →
      (globalOffset l 0.5).nanos ≤ (globalOffset threeOffsets 0.5).nanos + 1 ∧
      (globalOffset threeOffsets 0.5).nanos ≤ (globalOffset l 0.5).nanos + 1) ∧
    ∃ s history answers, Service.Run Service.notEarlier (service 20000000 high_ok)
        [.measureOffset "a" ["b"], .measureOffset "b" ["a"]] history answers s ∧
      s.knownOffsets.length = 2 ∧ ∀ records, s.knownOffsets.Perm records →
        s.globalOffset = globalOffset (records.map Service.share)
          s.settings.offsets.globalMinConfidence := by
  obtain ⟨hlists, hservices⟩ := globalOffset_nearly_same
  refine ⟨fun l hperm => ?_, ?_⟩
  · obtain ⟨hforth, hback⟩ := hlists hperm threeOffsets_sure.1 threeOffsets_sure.2
    have hfew : (confident threeOffsets 0.5).length ≤ 3 := List.length_filter_le _ _
    have hnanos := nanos_threeOffsets.1
    have hmost : (globalOffset l 0.5).nanos ≤ (globalOffset threeOffsets 0.5).nanos + 1 :=
      hback.nanosecond ((Nat.mul_le_mul_right _ hfew).trans_lt (by omega))
    exact ⟨hmost, hforth.nanosecond ((Nat.mul_le_mul_right _ hfew).trans_lt (by omega))⟩
  · have hnone : Service.Run Service.notEarlier (service 20000000 high_ok) [] [] [] _ := .nil
    have hrun := (hnone.snoc (.alone (r := .measureOffset "a" ["b"]) rfl) (le_refl Instant.epoch)).snoc
      (.alone (r := .measureOffset "b" ["a"]) rfl) (le_refl Instant.epoch)
    have htwo : (((service 20000000 high_ok).serve (.measureOffset "a" ["b"])).2.serve
        (.measureOffset "b" ["a"])).2.knownOffsets.length = 2 := by decide +kernel
    refine ⟨_, _, _, hrun, htwo, fun records hperm => ?_⟩
    refine (hservices start_eq hrun hperm).1.short ((List.length_filter_le _ _).trans ?_)
    rw [List.length_map, htwo]

end LightCone
