import LightCone.Proofs.Run.Trace
import Mathlib.Data.List.Induction

/-!
The latest happening of a kind.

Clearing makes the past count for nothing, so the latest is looked for from the last clearing
on. A history grows at its end, and this file

1. defines the latest happening of a kind in a history (`Latest`), of which there is one at
   most (`Latest.unique`);
2. says what it is after one more happening (`latest_snoc`).
-/
namespace LightCone

/-- An element of a list with one more at its end is that one, or stands before it. -/
theorem snoc_eq_append_cons {α : Type} {l before after : List α} {x y : α}
    (h : l ++ [x] = before ++ y :: after) :
    (before = l ∧ y = x ∧ after = []) ∨ ∃ rest, after = rest ++ [x] ∧ l = before ++ y :: rest := by
  rcases List.eq_nil_or_concat after with rfl | ⟨rest, last, rfl⟩
  · obtain ⟨rfl, rfl⟩ := List.append_singleton_inj.mp h
    exact .inl ⟨rfl, rfl, rfl⟩
  · rw [List.concat_eq_append] at h ⊢
    rw [← List.cons_append, ← List.append_assoc] at h
    obtain ⟨rfl, rfl⟩ := List.append_singleton_inj.mp h
    exact .inr ⟨rest, rfl, rfl⟩

/-- The last happening of a kind, with nothing cleared since. -/
def Latest (kind : Happening → Prop) (history : List Happening) (h : Happening) : Prop :=
  ∃ earlier later, history = earlier ++ h :: later ∧ kind h ∧ .cleared ∉ later ∧
    ∀ g ∈ later, ¬ kind g

variable {kind : Happening → Prop} {history : List Happening} {g h : Happening}

theorem not_latest_nil : ¬ Latest kind [] h := by
  intro hsome
  obtain ⟨earlier, later, hsplit, _⟩ := hsome
  exact absurd hsplit.symm (by simp)

/-- The latest of a kind is the last happening, or it was the latest before, and the last
    happening neither clears nor is of the kind. -/
theorem latest_snoc : Latest kind (history ++ [h]) g ↔
    (g = h ∧ kind h) ∨ (Latest kind history g ∧ h ≠ .cleared ∧ ¬ kind h) := by
  refine ⟨?_, ?_⟩
  · intro hsome
    obtain ⟨earlier, later, hsplit, hkind, hclear, hlast⟩ := hsome
    -- The latest is the last happening itself, or stands in the history before it.
    rcases snoc_eq_append_cons hsplit with ⟨_, rfl, _⟩ | ⟨rest, rfl, rfl⟩
    · exact .inl ⟨rfl, hkind⟩
    · right
      refine ⟨⟨earlier, rest, rfl, hkind, fun hmem => ?_, fun x hx => ?_⟩, ?_, ?_⟩
      · exact hclear (List.mem_append_left _ hmem)
      · exact hlast x (List.mem_append_left _ hx)
      · intro hsame
        subst hsame
        exact hclear (by simp)
      · exact hlast h (by simp)
  · intro hcases
    rcases hcases with ⟨rfl, hkind⟩ | ⟨⟨earlier, later, rfl, hkind, hclear, hlast⟩, hkept, hnot⟩
    · exact ⟨history, [], rfl, hkind, by simp, by simp⟩
    · refine ⟨earlier, later ++ [h], by simp, hkind, ?_, ?_⟩
      · rw [List.mem_append, List.mem_singleton]
        intro hcases
        rcases hcases with hmem | rfl
        · exact hclear hmem
        · exact hkept rfl
      · intro x hx
        rcases List.mem_append.mp hx with hx | hx
        · exact hlast x hx
        · rw [List.mem_singleton.mp hx]
          exact hnot

/-- A happening that neither clears nor is of the kind leaves the latest of the kind. -/
theorem latest_snoc_of_not (hclear : h ≠ .cleared) (hnot : ¬ kind h) :
    Latest kind (history ++ [h]) g ↔ Latest kind history g := by
  rw [latest_snoc]
  refine ⟨?_, ?_⟩
  · intro hcases
    rcases hcases with ⟨_, hkind⟩ | ⟨hlatest, _⟩
    · exact absurd hkind hnot
    · exact hlatest
  · exact fun hlatest => .inr ⟨hlatest, hclear, hnot⟩

theorem Latest.unique (hg : Latest kind history g) (hh : Latest kind history h) : g = h := by
  induction history using List.reverseRecOn with
  | nil => exact absurd hg not_latest_nil
  | append_singleton history last ih =>
    rcases latest_snoc.mp hg with ⟨rfl, hkind⟩ | ⟨hg, _, hnot⟩
    · rcases latest_snoc.mp hh with ⟨rfl, _⟩ | ⟨_, _, hnot⟩
      · rfl
      · exact absurd hkind hnot
    · rcases latest_snoc.mp hh with ⟨_, hkind⟩ | ⟨hh, _⟩
      · exact absurd hkind hnot
      · exact ih hg hh

theorem Latest.of_kind (h : Latest kind history g) : kind g := by
  obtain ⟨_, _, _, hkind, _⟩ := h
  exact hkind

end LightCone
