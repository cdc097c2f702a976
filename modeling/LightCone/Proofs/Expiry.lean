import LightCone.ExpiringCache
import LightCone.Proofs.Instants

/-!
Caches that remember the latest values.

A cache is told values one by one. What it answers is settled by the latest value of each key
and its time alone, whatever was swept in between. This file

1. reads a fresh value off the entry of its key (`get?_eq_some_iff`);
2. defines that a cache remembers the latest values of a relation (`Remembers`). Entries may
   be missing for latest values that have lapsed, and only for those;
3. keeps that up through insertions, sweeps, clearing and the passing of time, and concludes
   what a read finds (`Remembers.get?_eq_some_iff`).
-/
namespace LightCone.ExpiringCache

variable {ι κ α : Type} [Key κ] [DecidableEq κ]

theorem get?_eq_some_iff {c : ExpiringCache κ α} {k : κ} {now : Instant} {value : α} :
    c.get? k now = some value ↔
      ∃ e, c.entries.find? k = some e ∧ now < e.expiresAt ∧ e.value = value := by
  simp only [get?, lookup]
  cases hfind : c.entries.find? k with
  | none => simp
  | some e =>
    by_cases hfresh : now < e.expiresAt <;>
      simp [Stamped.found, Stamped.isFresh, hfresh]

theorem lookup_eq_fresh_iff {c : ExpiringCache κ α} {k : κ} {now : Instant} {value : α} :
    c.lookup k now = .fresh value ↔ c.get? k now = some value := by
  unfold get?
  cases c.lookup k now <;> simp

theorem lookup_eq_expired_iff {c : ExpiringCache κ α} {k : κ} {now : Instant} {value : α}
    {age : Duration} : c.lookup k now = .expired value age ↔
      ∃ e, c.entries.find? k = some e ∧ e.expiresAt ≤ now ∧ e.value = value ∧
        (now.since? e.insertedAt).getD .zero = age := by
  simp only [lookup]
  cases hfind : c.entries.find? k with
  | none => simp
  | some e =>
    by_cases hfresh : now < e.expiresAt
    · simp [Stamped.found, Stamped.isFresh, hfresh, not_le.mpr hfresh]
    · simp [Stamped.found, Stamped.isFresh, hfresh, not_lt.mp hfresh]

theorem lookup_eq_missing_iff {c : ExpiringCache κ α} {k : κ} {now : Instant} :
    c.lookup k now = .missing ↔ c.entries.find? k = none := by
  simp only [lookup]
  cases hfind : c.entries.find? k with
  | none => simp
  | some e => by_cases hfresh : e.isFresh now <;> simp [Stamped.found, hfresh]

/-- The fresh entries are those that reads find. -/
theorem mem_freshEntries_iff {c : ExpiringCache κ α} {k : κ} {now : Instant} {value : α} :
    (k, value) ∈ c.freshEntries now ↔ c.get? k now = some value := by
  simp only [freshEntries, List.mem_map, List.mem_filter, Prod.exists, Prod.mk.injEq,
    get?_eq_some_iff, Table.find?_eq_some_iff, Stamped.isFresh, decide_eq_true_eq]
  refine ⟨?_, ?_⟩
  · rintro ⟨_, e, ⟨hmem, hfresh⟩, rfl, rfl⟩
    exact ⟨e, hmem, hfresh, rfl⟩
  · rintro ⟨e, hmem, hfresh, rfl⟩
    exact ⟨k, e, ⟨hmem, hfresh⟩, rfl, rfl⟩

omit [DecidableEq κ] in
/-- They stand in the order of their keys. -/
theorem sorted_freshEntries (c : ExpiringCache κ α) (now : Instant) :
    ((c.freshEntries now).map Prod.fst).Pairwise fun k k' => Key.before k k' = true := by
  simp only [freshEntries, List.map_map, List.pairwise_map, Function.comp_apply]
  exact c.entries.sorted.sublist List.filter_sublist

/-- What has just been stored is found until it expires. -/
theorem get?_insert_self {c : ExpiringCache κ α} {k : κ} {now t : Instant} {value : α}
    (hfresh : t < now.addCapped c.lifetime) : (c.insert k value now).get? k t = some value := by
  rw [get?_eq_some_iff]
  exact ⟨_, by rw [insert, insertFor, Table.find?_insert, if_pos rfl], hfresh, rfl⟩

/-- The entry of a value stored at a time for a lifetime. -/
def stamp (lifetime : Duration) (time : Instant) (value : α) : Stamped α :=
  ⟨value, time, time.addCapped lifetime⟩

/-- A cache holds nothing but latest values, each stored at its time, and is missing none of
    them unless its expiry has lapsed. Values belong to indices, which have keys. -/
structure Remembers (key : ι → κ) (lifetime : Duration) (lapsed : Instant → Prop)
    (latest : ι → Instant → α → Prop) (c : ExpiringCache κ α) : Prop where
  lifetime_eq : c.lifetime = lifetime
  stored : ∀ {i e}, c.entries.find? (key i) = some e →
    ∃ time value, latest i time value ∧ e = stamp lifetime time value
  found : ∀ {i time value}, latest i time value →
    c.entries.find? (key i) = some (stamp lifetime time value) ∨ lapsed (time.addCapped lifetime)

namespace Remembers

variable {key : ι → κ} {lifetime : Duration} {lapsed : Instant → Prop}
  {latest latest' : ι → Instant → α → Prop} {c : ExpiringCache κ α} {now : Instant}

/-- Any fresh value is a latest one. -/
theorem latest_of_get? (h : c.Remembers key lifetime lapsed latest) {i : ι} {value : α}
    (hget : c.get? (key i) now = some value) : ∃ time, latest i time value ∧
      now < time.addCapped lifetime := by
  obtain ⟨e, hfind, hfresh, rfl⟩ := get?_eq_some_iff.mp hget
  obtain ⟨time, value, hlatest, rfl⟩ := h.stored hfind
  exact ⟨time, hlatest, hfresh⟩

/-- If nothing lapses before it expires, the latest value is found for its lifetime, and not
    past the end of the calendar. -/
theorem get?_eq_some_iff (h : c.Remembers key lifetime (· ≤ now) latest) {i : ι} {value : α} :
    c.get? (key i) now = some value ↔ ∃ time, latest i time value ∧
      now < time.addCapped lifetime := by
  refine ⟨h.latest_of_get?, ?_⟩
  intro hsome
  obtain ⟨time, hlatest, hfresh⟩ := hsome
  rcases h.found hlatest with hfind | hlapsed
  · exact ExpiringCache.get?_eq_some_iff.mpr ⟨_, hfind, hfresh, rfl⟩
  · exact absurd hlapsed (not_le.mpr hfresh)

theorem empty (hnone : ∀ i time value, ¬ latest i time value) :
    (ExpiringCache.empty lifetime : ExpiringCache κ α).Remembers key lifetime lapsed latest where
  lifetime_eq := rfl
  stored := by
    intro i e hfind
    cases hfind
  found := by
    intro i time value hlatest
    exact absurd hlatest (hnone i time value)

/-- The latest values change, but only in name. -/
theorem congr (h : c.Remembers key lifetime lapsed latest)
    (hsame : ∀ i time value, latest' i time value ↔ latest i time value) :
    c.Remembers key lifetime lapsed latest' where
  lifetime_eq := h.lifetime_eq
  stored := by
    intro i e hfind
    obtain ⟨time, value, hlatest, he⟩ := h.stored hfind
    exact ⟨time, value, (hsame i time value).mpr hlatest, he⟩
  found := by
    intro i time value hlatest
    exact h.found ((hsame i time value).mp hlatest)

theorem insert (h : c.Remembers key lifetime lapsed latest) {k : κ} {v : α}
    (hlatest : ∀ i time value, latest' i time value ↔
      (key i = k ∧ time = now ∧ value = v) ∨ (key i ≠ k ∧ latest i time value)) :
    (c.insert k v now).Remembers key lifetime lapsed latest' where
  lifetime_eq := h.lifetime_eq
  stored := by
    intro i e hfind
    simp only [ExpiringCache.insert, insertFor, Table.find?_insert] at hfind
    split at hfind
    · next hkey =>
      cases hfind
      rw [h.lifetime_eq]
      exact ⟨now, v, (hlatest i now v).mpr (.inl ⟨hkey.symm, rfl, rfl⟩), rfl⟩
    · next hkey =>
      obtain ⟨time, value, hold, he⟩ := h.stored hfind
      exact ⟨time, value, (hlatest i time value).mpr (.inr ⟨Ne.symm hkey, hold⟩), he⟩
  found := by
    intro i time value hnew
    simp only [ExpiringCache.insert, insertFor, Table.find?_insert]
    rcases (hlatest i time value).mp hnew with ⟨hkey, rfl, rfl⟩ | ⟨hkey, hold⟩
    · rw [if_pos hkey.symm, h.lifetime_eq]
      exact .inl rfl
    · rw [if_neg (Ne.symm hkey)]
      exact h.found hold

/-- A sweep loses entries that have expired, and those count as lapsed. -/
theorem sweep (h : c.Remembers key lifetime lapsed latest)
    (hlapsed : ∀ e, e ≤ now → lapsed e) :
    (c.sweep now).2.Remembers key lifetime lapsed latest where
  lifetime_eq := h.lifetime_eq
  stored := by
    intro i e hfind
    simp only [ExpiringCache.sweep, Table.find?_filter, Option.filter_eq_some_iff] at hfind
    exact h.stored hfind.1
  found := by
    intro i time value hlatest
    simp only [ExpiringCache.sweep, Table.find?_filter]
    rcases h.found hlatest with hfind | hgone
    · by_cases hfresh : now < time.addCapped lifetime
      · left
        rw [hfind, Option.filter_eq_some_iff]
        exact ⟨rfl, by simp [stamp, Stamped.isFresh, hfresh]⟩
      · exact .inr (hlapsed _ (not_lt.mp hfresh))
    · exact .inr hgone

/-- After clearing there are no latest values. -/
theorem clear (h : c.Remembers key lifetime lapsed latest)
    (hnone : ∀ i time value, ¬ latest' i time value) :
    c.clear.2.Remembers key lifetime lapsed latest' where
  lifetime_eq := h.lifetime_eq
  stored := by
    intro i e hfind
    cases hfind
  found := by
    intro i time value hlatest
    exact absurd hlatest (hnone i time value)

/-- More may have lapsed later. -/
theorem mono (h : c.Remembers key lifetime lapsed latest) {lapsed' : Instant → Prop}
    (hlapsed : ∀ e, lapsed e → lapsed' e) : c.Remembers key lifetime lapsed' latest where
  lifetime_eq := h.lifetime_eq
  stored := h.stored
  found := by
    intro i time value hlatest
    exact (h.found hlatest).imp id (hlapsed _)

end Remembers
end LightCone.ExpiringCache
