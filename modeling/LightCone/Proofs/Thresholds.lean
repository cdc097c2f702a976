import LightCone.Proofs.Quorums
import Mathlib.Order.Bounds.Defs

/-!
Thresholds in exact integers.

The thresholds of `n` members come from word arithmetic, in which a doubled number stops at the
largest word. What is proved of every number `n` of members, words among them:

1. `isGreatest_div`: the tolerated liars and the tolerated stops are the most for which `3f + 1`
   and `2c + 1` are no more than `n`;
2. `quorum_exact_iff`: the quorum is two thirds of `n`, rounded down and at least one, just if
   `2n` is at most `2 ^ 64`; from there on it stays the same (`quorum_of_large`);
3. `of_mono`: more members never lower a threshold.

So a quorum of `2 ^ 64 - 1` members is a third of them and not two thirds.
-/
namespace LightCone.FaultTolerance

variable {m n : Nat}

/-- Rounding down finds the greatest number of faults for which `k` times as many members, and one
    more, are there. -/
theorem isGreatest_div {k : Nat} (hk : 0 < k) (hn : 1 ≤ n) :
    IsGreatest {f | k * f + 1 ≤ n} ((n - 1) / k) := by
  refine ⟨?_, ?_⟩
  · have hdiv := Nat.mul_div_le (n - 1) k
    show k * ((n - 1) / k) + 1 ≤ n
    omega
  · intro f hf
    have hf' : k * f + 1 ≤ n := hf
    rw [Nat.le_div_iff_mul_le hk, Nat.mul_comm]
    omega

/-- What the quorum is for every word: the doubled number is held before it is divided. -/
theorem quorum_eq (hn : 1 ≤ n) : (of n).quorum = max 1 (min (2 * n) (wordLimit - 1) / 3) := by
  show min (max (min (n * 2) (wordLimit - 1) / 3) 1) (max n 1) = _
  rw [Nat.mul_comm n 2]
  omega

theorem one_le_quorum (hn : 1 ≤ n) : 1 ≤ (of n).quorum := by
  rw [quorum_eq hn]
  exact Nat.le_max_left ..

/-- Doubling is exact up to half of the words. -/
theorem quorum_of_small (hn : 1 ≤ n) (hsmall : n ≤ wordLimit / 2) :
    (of n).quorum = max 1 (2 * n / 3) := by
  rw [quorum_eq hn]
  simp only [wordLimit] at hsmall ⊢
  -- The last number is doubled to one past the words, which a third of it does not show.
  omega

theorem quorum_of_large (hn : 1 ≤ n) (hlarge : wordLimit / 2 < n) :
    (of n).quorum = (wordLimit - 1) / 3 := by
  rw [quorum_eq hn]
  simp only [wordLimit] at hlarge ⊢
  omega

theorem quorum_exact_iff (hn : 1 ≤ n) :
    (of n).quorum = max 1 (2 * n / 3) ↔ n ≤ wordLimit / 2 := by
  refine ⟨?_, quorum_of_small hn⟩
  intro hexact
  by_contra hlarge
  have hquorum := quorum_of_large hn (Nat.not_le.mp hlarge)
  simp only [wordLimit] at hlarge hquorum
  omega

/-- No threshold falls when members are added. -/
theorem of_mono (h : n ≤ m) : (of n).byzantine ≤ (of m).byzantine ∧ (of n).crash ≤ (of m).crash ∧
    (of n).quorum ≤ (of m).quorum := by
  have hfewer : n - 1 ≤ m - 1 := Nat.sub_le_sub_right h 1
  refine ⟨Nat.div_le_div_right hfewer, Nat.div_le_div_right hfewer, ?_⟩
  have hdoubled : doubledWord n ≤ doubledWord m := by
    unfold doubledWord
    omega
  have hthirds : doubledWord n / 3 ≤ doubledWord m / 3 := Nat.div_le_div_right hdoubled
  show min (max (doubledWord n / 3) 1) (max n 1) ≤ min (max (doubledWord m / 3) 1) (max m 1)
  omega

/-- For every number of members the tolerated faults are the greatest ones that leave enough of them,
    the quorum is one member at least and all of them at most, and no threshold falls in larger sets.
    The quorum is two thirds, rounded down and at least one, up to `2 ^ 63` members and no further:
    past that it is a third of the largest word, however many more members there are. -/
theorem thresholds_exact (hn : 1 ≤ n) :
    IsGreatest {f | 3 * f + 1 ≤ n} (of n).byzantine ∧
    IsGreatest {c | 2 * c + 1 ≤ n} (of n).crash ∧
    1 ≤ (of n).quorum ∧ (of n).quorum ≤ n ∧
    ((of n).quorum = max 1 (2 * n / 3) ↔ n ≤ wordLimit / 2) ∧
    (wordLimit / 2 < n → (of n).quorum = (wordLimit - 1) / 3) ∧
    ∀ m, n ≤ m → (of n).byzantine ≤ (of m).byzantine ∧ (of n).crash ≤ (of m).crash ∧
      (of n).quorum ≤ (of m).quorum :=
  ⟨isGreatest_div (by decide) hn, isGreatest_div (by decide) hn, one_le_quorum hn, quorum_le n hn,
    quorum_exact_iff hn, quorum_of_large hn, fun _ => of_mono⟩

/-- The quorum of the largest word is half of two thirds of it. -/
theorem thresholds_exact_largest : 1 ≤ wordLimit - 1 ∧
    3 * (of (wordLimit - 1)).byzantine + 1 ≤ wordLimit - 1 ∧
    (of (wordLimit - 1)).quorum = 6148914691236517205 ∧
    2 * (wordLimit - 1) / 3 = 12297829382473034410 := by
  have hn : 1 ≤ wordLimit - 1 := by decide
  obtain ⟨hbyzantine, _, _, _, _, hlarge, _⟩ := thresholds_exact hn
  exact ⟨hn, hbyzantine.1, hlarge (by decide), by decide⟩

/-- The first number of members whose quorum is too small. -/
theorem quorum_falls_short :
    ¬ ∀ n, 1 ≤ n → n < wordLimit → (of n).quorum = max 1 (2 * n / 3) := by
  intro hall
  have hfirst := hall 9223372036854775809 (by decide) (by decide)
  exact absurd hfirst (by decide)

end LightCone.FaultTolerance
