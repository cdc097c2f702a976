import Mathlib.Data.Finset.Powerset
import LightCone.Quorum

/-!
Sets of votes, and what two quorums have in common.

A vote set is a set of members. Two sets of `k` members out of `n` share at least `2k - n`
members, and some two share no more, so whether quorums always meet in an honest member is a
matter of the thresholds alone. What is proved:

1. `quorum_overlap_least`: two quorums share at least `2 · quorum - n` members, and this bound is
   attained;
2. `overlap_exceeds_byzantine_iff`: where `2n` fits 64 bits, that bound is above the number of
   tolerated liars only for one member and for multiples of three: rounding `2n / 3` down
   costs one member for any other `n`;
3. `honest_members_are_quorum`: the members that are left when all tolerated liars stay away are a
   quorum for every `n`.
-/
namespace LightCone

open Finset

variable {α : Type*} [DecidableEq α]

/-! ## Overlap of two sets -/

theorem card_add_card_le_overlap {members V W : Finset α} (hV : V ⊆ members) (hW : W ⊆ members) :
    V.card + W.card ≤ members.card + (V ∩ W).card := by
  have hsum := card_union_add_card_inter V W
  have hunion : (V ∪ W).card ≤ members.card := card_le_card (union_subset hV hW)
  omega

/-- Two sets of `k` members that share as few as they can: the second one holds every member
    outside the first before it holds one of the first. -/
theorem exists_least_overlap {members : Finset α} {k : Nat} (hk : k ≤ members.card) :
    ∃ V W, V ⊆ members ∧ W ⊆ members ∧ V.card = k ∧ W.card = k ∧
      (V ∩ W).card = 2 * k - members.card := by
  obtain ⟨V, hV, hVk⟩ := exists_subset_card_eq hk
  have hrest : (members \ V).card = members.card - k := by
    rw [card_sdiff_of_subset hV, hVk]
  rcases Nat.le_total k (members.card - k) with h | h
  · -- the second set fits outside the first
    obtain ⟨W, hW, hWk⟩ := exists_subset_card_eq (s := members \ V) (n := k) (by omega)
    refine ⟨V, W, hV, hW.trans sdiff_subset, hVk, hWk, ?_⟩
    have hdisj : Disjoint V W := disjoint_sdiff.mono_right hW
    rw [disjoint_iff_inter_eq_empty.mp hdisj, card_empty]
    omega
  · obtain ⟨W, hrestW, hW, hWk⟩ :=
      exists_subsuperset_card_eq (s := members \ V) (t := members) sdiff_subset
        (n := k) (by omega) hk
    refine ⟨V, W, hV, hW, hVk, hWk, ?_⟩
    have hcover : V ∪ W = members := by
      apply Subset.antisymm (union_subset hV hW)
      intro x hx
      by_cases hxV : x ∈ V
      · exact mem_union_left _ hxV
      · exact mem_union_right _ (hrestW (mem_sdiff.mpr ⟨hx, hxV⟩))
    have hsum := card_union_add_card_inter V W
    rw [hcover] at hsum
    omega

/-! ## Overlap of two quorums -/

namespace FaultTolerance

theorem quorum_le (n : Nat) (hn : 1 ≤ n) : (of n).quorum ≤ n := by
  show min _ (max n 1) ≤ n
  omega

/-- The least overlap of two quorums is above the tolerated liars only for one member and for
    multiples of three. -/
theorem overlap_exceeds_byzantine_iff {n : Nat} (hn : 1 ≤ n) (hword : 2 * n < wordLimit) :
    (of n).byzantine < 2 * (of n).quorum - n ↔ n = 1 ∨ 3 ∣ n := by
  have hquorum : (of n).quorum = max (2 * n / 3) 1 := by
    show min (max (doubledWord n / 3) 1) (max n 1) = _
    have hdoubled : doubledWord n = 2 * n := by
      unfold doubledWord
      omega
    rw [hdoubled]
    omega
  rw [hquorum]
  show (n - 1) / 3 < _ ↔ _
  -- only for `n = 3k` do both divisions round in favour of the overlap
  obtain ⟨k, rfl | rfl | rfl⟩ : ∃ k, n = 3 * k ∨ n = 3 * k + 1 ∨ n = 3 * k + 2 :=
    ⟨n / 3, by omega⟩
  · have hthirds : 2 * (3 * k) / 3 = 2 * k := by omega
    omega
  · have hthirds : 2 * (3 * k + 1) / 3 = 2 * k := by omega
    omega
  · have hthirds : 2 * (3 * k + 2) / 3 = 2 * k + 1 := by omega
    omega

theorem honest_members_are_quorum (n : Nat) (hn : 1 ≤ n) :
    (of n).hasQuorum (n - (of n).byzantine) = true := by
  have hdoubled : doubledWord n ≤ n * 2 := Nat.min_le_left ..
  simp only [hasQuorum, decide_eq_true_eq]
  show min (max (doubledWord n / 3) 1) (max n 1) ≤ n - (n - 1) / 3
  omega

theorem quorum_overlap_least {members V W : Finset α}
    (hV : V ⊆ members) (hW : W ⊆ members)
    (hqV : (of members.card).hasQuorum V.card = true)
    (hqW : (of members.card).hasQuorum W.card = true) :
    2 * (of members.card).quorum - members.card ≤ (V ∩ W).card := by
  have hshare := card_add_card_le_overlap hV hW
  simp only [hasQuorum, decide_eq_true_eq] at hqV hqW
  omega

/-- Any two quorums share at least `2 · quorum - n` members and some two share no more. So, where
    `2n` fits 64 bits, any two share more members than may lie if and only if there is one member
    or the members are a multiple of three. The honest members alone are always a quorum. -/
theorem quorum_system {members : Finset α} (hmembers : members.Nonempty) :
    (∀ V W, V ⊆ members → W ⊆ members →
      (of members.card).hasQuorum V.card = true → (of members.card).hasQuorum W.card = true →
      2 * (of members.card).quorum - members.card ≤ (V ∩ W).card) ∧
    (∃ V W, V ⊆ members ∧ W ⊆ members ∧
      (of members.card).hasQuorum V.card = true ∧ (of members.card).hasQuorum W.card = true ∧
      (V ∩ W).card = 2 * (of members.card).quorum - members.card) ∧
    (2 * members.card < wordLimit →
      ((∀ V W, V ⊆ members → W ⊆ members →
        (of members.card).hasQuorum V.card = true → (of members.card).hasQuorum W.card = true →
        (of members.card).byzantine < (V ∩ W).card) ↔
      members.card = 1 ∨ 3 ∣ members.card)) ∧
    (of members.card).hasQuorum (members.card - (of members.card).byzantine) = true := by
  have hn : 1 ≤ members.card := hmembers.card_pos
  have hleast : ∃ V W, V ⊆ members ∧ W ⊆ members ∧
      (of members.card).hasQuorum V.card = true ∧ (of members.card).hasQuorum W.card = true ∧
      (V ∩ W).card = 2 * (of members.card).quorum - members.card := by
    obtain ⟨V, W, hV, hW, hVk, hWk, hshare⟩ := exists_least_overlap (quorum_le _ hn)
    exact ⟨V, W, hV, hW, by simp [hasQuorum, hVk], by simp [hasQuorum, hWk], hshare⟩
  refine ⟨fun V W hV hW => quorum_overlap_least hV hW, hleast, fun hword => ?_,
    honest_members_are_quorum _ hn⟩
  rw [← overlap_exceeds_byzantine_iff hn hword]
  refine ⟨?_, ?_⟩
  · intro hall
    obtain ⟨V, W, hV, hW, hqV, hqW, hshare⟩ := hleast
    have := hall V W hV hW hqV hqW
    omega
  · intro hgap V W hV hW hqV hqW
    have := quorum_overlap_least hV hW hqV hqW
    omega

theorem quorum_system_six :
    (range 6).Nonempty ∧ ∀ V W, V ⊆ range 6 → W ⊆ range 6 →
      (of 6).hasQuorum V.card = true → (of 6).hasQuorum W.card = true → 1 < (V ∩ W).card :=
  have hne : (range 6).Nonempty := ⟨0, by decide⟩
  ⟨hne, ((quorum_system hne).2.2.1 (by decide)).mpr (.inr (by decide))⟩

/-- Two members of four are a quorum, so two quorums need not share a member at all. -/
theorem quorums_of_four_apart :
    ¬ ∀ n, 1 ≤ n → ∀ V W : Finset (Fin n),
      (of n).hasQuorum V.card = true → (of n).hasQuorum W.card = true →
      (of n).byzantine < (V ∩ W).card := by
  intro hall
  have := hall 4 (by decide) {0, 1} {2, 3} (by decide) (by decide)
  exact absurd this (by decide)

end FaultTolerance
end LightCone
