import LightCone.Statistics.Metrics
import Mathlib.Data.List.TakeWhile

/-!
Registration of several metrics in a registry that others use too.

The metrics are registered one after another, and the first whose name is held ends the attempt;
what stood in front of it stays registered. This file

1. says what an attempt gives for any list of distinct names (`registerNames_eq`): it adds those
   ahead of the first conflict (`ahead`), and it succeeds just if these are all;
2. derives when it is all or nothing (`allOrNothing_iff`), and what has to be removed before another
   attempt succeeds (`registers_without_iff`);
3. concludes the same for the metrics of the timing service (`register_stops_at_conflict`).

So a registry that holds one of the later names, and not the first, is changed by an attempt that
fails (`register_leaves_two_behind`).
-/
namespace LightCone.Registry

variable {held : Registry} {names rest removed : List String} {name : String}

/-! ## Conflicts and what stands ahead of them -/

/-- The names that are held. -/
def conflicts (held : Registry) (names : List String) : List String := names.filter (· ∈ held)

/-- The names in front of the first that is held. -/
def ahead (held : Registry) (names : List String) : List String := names.takeWhile (· ∉ held)

/-- The registry after some names, and no others, were added. -/
def Gains (held after : Registry) (names : List String) : Prop :=
  ∀ name, name ∈ after ↔ name ∈ held ∨ name ∈ names

/-- A registry from which some names are removed. -/
def without (held : Registry) (removed : List String) : Registry := held.filter (· ∉ removed)

theorem mem_conflicts_iff : name ∈ conflicts held names ↔ name ∈ names ∧ name ∈ held := by
  simp [conflicts]

theorem mem_without_iff : name ∈ without held removed ↔ name ∈ held ∧ name ∉ removed := by
  simp [without]

theorem conflicts_eq_nil_iff : conflicts held names = [] ↔ ∀ name ∈ names, name ∉ held := by
  simp [conflicts]

theorem ahead_cons_of_mem (h : name ∈ held) : ahead held (name :: rest) = [] := by
  simp [ahead, h]

theorem ahead_cons_of_not_mem (h : name ∉ held) :
    ahead held (name :: rest) = name :: ahead held rest := by
  simp [ahead, h]

/-- A name that does not occur among the others is no conflict for them. -/
theorem ahead_of_not_mem (h : name ∉ names) : ahead (name :: held) names = ahead held names := by
  induction names with
  | nil => rfl
  | cons first rest ih =>
    obtain ⟨hfirst, hrest⟩ := not_or.mp (List.mem_cons.not.mp h)
    by_cases hheld : first ∈ held
    · rw [ahead_cons_of_mem hheld, ahead_cons_of_mem (List.mem_cons_of_mem _ hheld)]
    · have hnew : first ∉ name :: held := List.mem_cons.not.mpr (not_or.mpr ⟨Ne.symm hfirst, hheld⟩)
      rw [ahead_cons_of_not_mem hheld, ahead_cons_of_not_mem hnew, ih hrest]

theorem not_mem_of_mem_ahead (h : name ∈ ahead held names) : name ∉ held := by
  simpa using List.mem_takeWhile_imp h

/-- If what stands ahead is held after all, nothing does. -/
theorem ahead_eq_nil_of_subset (h : ∀ name ∈ ahead held names, name ∈ held) :
    ahead held names = [] :=
  List.eq_nil_iff_forall_not_mem.mpr fun name hahead => not_mem_of_mem_ahead hahead (h name hahead)

theorem ahead_eq_self_iff : ahead held names = names ↔ ∀ name ∈ names, name ∉ held := by
  simp [ahead, List.takeWhile_eq_self_iff]

/-- Where not all names stand ahead, the next one is held. -/
theorem exists_conflict (h : ahead held names ≠ names) :
    ∃ conflict rest, names = ahead held names ++ conflict :: rest ∧ conflict ∈ held := by
  induction names with
  | nil => exact absurd rfl h
  | cons first rest ih =>
    by_cases hheld : first ∈ held
    · exact ⟨first, rest, by rw [ahead_cons_of_mem hheld, List.nil_append], hheld⟩
    · rw [ahead_cons_of_not_mem hheld] at h ⊢
      obtain ⟨conflict, later, hsplit, hconflict⟩ := ih fun hall => h (by rw [hall])
      exact ⟨conflict, later, by rw [List.cons_append, ← hsplit], hconflict⟩

/-! ## One attempt -/

/-- An attempt that registers all the names, or fails and leaves the registry as it was. -/
def AllOrNothing (held : Registry) (names : List String) : Prop :=
  (registerNames held names).1 = .ok () ∧ Gains held (registerNames held names).2 names ∨
    (registerNames held names).1 ≠ .ok () ∧ Gains held (registerNames held names).2 []

theorem registerNames_cons_of_mem (h : name ∈ held) :
    registerNames held (name :: rest) = (.error taken, held) := by
  rw [registerNames, if_pos h]

theorem registerNames_cons_of_not_mem (h : name ∉ held) :
    registerNames held (name :: rest) = registerNames (name :: held) rest := by
  rw [registerNames, if_neg h]

/-- An attempt adds the names ahead of the first conflict, and succeeds if there is none. -/
theorem registerNames_eq (hdistinct : names.Nodup) :
    registerNames held names =
      (if ahead held names = names then .ok () else .error taken,
        (ahead held names).reverse ++ held) := by
  induction names generalizing held with
  | nil => rfl
  | cons first rest ih =>
    obtain ⟨hfirst, hrest⟩ := List.nodup_cons.mp hdistinct
    by_cases hheld : first ∈ held
    · rw [registerNames_cons_of_mem hheld, ahead_cons_of_mem hheld,
        if_neg (Ne.symm (List.cons_ne_nil first rest))]
      rfl
    · -- The name just registered is none of those to come, so their conflicts are the same.
      rw [registerNames_cons_of_not_mem hheld, ih hrest, ahead_of_not_mem hfirst,
        ahead_cons_of_not_mem hheld, List.reverse_cons, List.append_assoc, List.singleton_append]
      simp only [List.cons.injEq, true_and]

section Attempt

variable (hdistinct : names.Nodup)
include hdistinct

theorem registers_iff :
    (registerNames held names).1 = .ok () ↔ ∀ name ∈ names, name ∉ held := by
  rw [registerNames_eq hdistinct, ← ahead_eq_self_iff]
  by_cases hall : ahead held names = names <;> simp [hall]

theorem gains_ahead (held : Registry) :
    Gains held (registerNames held names).2 (ahead held names) := by
  intro name
  rw [registerNames_eq hdistinct, List.mem_append, List.mem_reverse, or_comm]

theorem gains_all (hok : (registerNames held names).1 = .ok ()) :
    Gains held (registerNames held names).2 names := by
  have hgains := gains_ahead hdistinct held
  rwa [ahead_eq_self_iff.mpr ((registers_iff hdistinct).mp hok)] at hgains

/-- The registry is left as it was just if no name stands ahead of the first conflict. -/
theorem gains_nothing_iff : Gains held (registerNames held names).2 [] ↔ ahead held names = [] := by
  refine ⟨?_, ?_⟩
  · intro hsame
    refine ahead_eq_nil_of_subset fun name hahead => ?_
    have hafter := (gains_ahead hdistinct held name).mpr (.inr hahead)
    exact ((hsame name).mp hafter).resolve_right List.not_mem_nil
  · intro hnone
    simpa only [hnone] using gains_ahead hdistinct held

/-- An attempt is all or nothing just if there is no conflict, or nothing stands ahead of the first. -/
theorem allOrNothing_iff :
    AllOrNothing held names ↔ conflicts held names = [] ∨ ahead held names = [] := by
  refine ⟨?_, ?_⟩
  · rintro (⟨hok, _⟩ | ⟨_, hsame⟩)
    · exact .inl (conflicts_eq_nil_iff.mpr ((registers_iff hdistinct).mp hok))
    · exact .inr ((gains_nothing_iff hdistinct).mp hsame)
  · intro hcase
    by_cases hok : (registerNames held names).1 = .ok ()
    · exact .inl ⟨hok, gains_all hdistinct hok⟩
    · rcases hcase with hnone | hfirst
      · exact absurd ((registers_iff hdistinct).mpr (conflicts_eq_nil_iff.mp hnone)) hok
      · exact .inr ⟨hok, (gains_nothing_iff hdistinct).mpr hfirst⟩

/-- After an attempt and some removals another one succeeds just if the removed names have all
    conflicts of the first attempt among them, and all that it added. -/
theorem registers_without_iff :
    (registerNames (without (registerNames held names).2 removed) names).1 = .ok () ↔
      (∀ name ∈ conflicts held names, name ∈ removed) ∧ ∀ name ∈ ahead held names, name ∈ removed := by
  simp only [registers_iff hdistinct, mem_without_iff, not_and_not_right, mem_conflicts_iff, and_imp]
  refine ⟨?_, ?_⟩
  · intro hgone
    refine ⟨fun name hname hheld => ?_, fun name hahead => ?_⟩
    · exact hgone name hname ((gains_ahead hdistinct held name).mpr (.inl hheld))
    · exact hgone name ((List.takeWhile_prefix _).subset hahead)
        ((gains_ahead hdistinct held name).mpr (.inr hahead))
  · rintro ⟨hconflicts, hahead⟩ name hname hafter
    rcases (gains_ahead hdistinct held name).mp hafter with hheld | hadded
    · exact hconflicts name hname hheld
    · exact hahead name hadded

/-- To remove the conflicts is enough just if the attempt had added nothing. -/
theorem registers_without_conflicts_iff :
    (registerNames (without (registerNames held names).2 (conflicts held names)) names).1 = .ok () ↔
      ahead held names = [] := by
  rw [registers_without_iff hdistinct, and_iff_right fun _ => id]
  refine ⟨?_, fun hnone => by simp [hnone]⟩
  intro hremoved
  exact ahead_eq_nil_of_subset fun name hahead => (mem_conflicts_iff.mp (hremoved name hahead)).2

end Attempt

/-! ## The metrics of the timing service -/

theorem nodup_names : Metrics.names.Nodup := by decide

/-- Nothing stands ahead just if the metric registered first, that of the lookups, is held. -/
theorem ahead_names_eq_nil_iff : ahead held Metrics.names = [] ↔ Metrics.cacheLookups ∈ held := by
  by_cases hheld : Metrics.cacheLookups ∈ held <;> simp [ahead, Metrics.names, hheld]

/-- An attempt after an attempt fails and changes nothing, however the first one ended. -/
theorem register_again : register (register held).2 = (.error taken, (register held).2) := by
  refine registerNames_cons_of_mem ((gains_ahead nodup_names held _).mpr ?_)
  by_cases hheld : Metrics.cacheLookups ∈ held
  · exact .inl hheld
  · exact .inr (by rw [Metrics.names, ahead_cons_of_not_mem hheld]; exact List.mem_cons_self ..)

/-- The metrics are registered just if none of their five names is held, and then these are added and
    nothing else. Otherwise the registration fails with a fault of configuration at the first name that
    is held, and the names ahead of it are added; so the registry is left as it was just if the first
    of the five is held. Another attempt succeeds just if by then the conflicts are removed, and what
    the first attempt added; the removal of the conflicts alone is enough just if the first of the
    five was one of them. -/
theorem register_stops_at_conflict (held : Registry) :
    ((register held).1 = .ok () ∧ (∀ name ∈ Metrics.names, name ∉ held) ∧
        Gains held (register held).2 Metrics.names ∨
      (∃ reason, (register held).1 =
        .error (.configuration ("metrics registration failed: " ++ reason))) ∧
        ∃ conflict rest, Metrics.names = ahead held Metrics.names ++ conflict :: rest ∧
          conflict ∈ held ∧ Gains held (register held).2 (ahead held Metrics.names)) ∧
    (Gains held (register held).2 [] ↔ Metrics.cacheLookups ∈ held) ∧
    (AllOrNothing held Metrics.names ↔
      (∀ name ∈ Metrics.names, name ∉ held) ∨ Metrics.cacheLookups ∈ held) ∧
    (∀ removed, (register (without (register held).2 removed)).1 = .ok () ↔
      (∀ name ∈ conflicts held Metrics.names, name ∈ removed) ∧
        ∀ name ∈ ahead held Metrics.names, name ∈ removed) ∧
    ((register (without (register held).2 (conflicts held Metrics.names))).1 = .ok () ↔
      Metrics.cacheLookups ∈ held) := by
  refine ⟨?_, ?_, ?_, fun _ => registers_without_iff nodup_names, ?_⟩
  · by_cases hnone : ahead held Metrics.names = Metrics.names
    · have hfree := ahead_eq_self_iff.mp hnone
      have hok := (registers_iff nodup_names).mpr hfree
      exact .inl ⟨hok, hfree, gains_all nodup_names hok⟩
    · obtain ⟨conflict, rest, hsplit, hconflict⟩ := exists_conflict hnone
      refine .inr ⟨⟨"Duplicate metrics collector registration attempted", ?_⟩,
        conflict, rest, hsplit, hconflict, gains_ahead nodup_names held⟩
      rw [register, registerNames_eq nodup_names, if_neg hnone]
      rfl
  · exact (gains_nothing_iff nodup_names).trans ahead_names_eq_nil_iff
  · rw [allOrNothing_iff nodup_names, conflicts_eq_nil_iff, ahead_names_eq_nil_iff]
  · exact (registers_without_conflicts_iff nodup_names).trans ahead_names_eq_nil_iff

/-- A registry that holds the third of the five names gets the first two from an attempt that fails,
    and another one fails although the conflict is removed. -/
theorem register_leaves_two_behind :
    ¬ AllOrNothing [Metrics.validations] Metrics.names ∧
    Gains [Metrics.validations] (register [Metrics.validations]).2
      [Metrics.cacheLookups, Metrics.delaysComputed] ∧
    (register (without (register [Metrics.validations]).2 [Metrics.validations])).1 ≠ .ok () := by
  have hahead : ahead [Metrics.validations] Metrics.names =
      [Metrics.cacheLookups, Metrics.delaysComputed] := by decide
  refine ⟨?_, ?_, ?_⟩
  · rw [allOrNothing_iff nodup_names, hahead]
    decide
  · rw [← hahead]
    exact gains_ahead nodup_names _
  · intro hok
    have hremoved := ((registers_without_iff nodup_names).mp hok).2
    rw [hahead] at hremoved
    exact absurd (hremoved Metrics.cacheLookups (List.mem_cons_self ..)) (by decide)

end LightCone.Registry
