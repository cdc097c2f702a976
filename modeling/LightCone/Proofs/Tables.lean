import LightCone.Table
import Mathlib.Data.List.Induction
import Mathlib.Data.List.Nodup

/-!
Lookups in tables that are built or changed entry by entry.
-/
namespace LightCone.Table

variable {κ α : Type} [Key κ] [DecidableEq κ]

theorem ofList_append (l : List (κ × α)) (e : κ × α) :
    ofList (l ++ [e]) = (ofList l).insert e.1 e.2 := by
  simp only [ofList, List.foldl_append, List.foldl_cons, List.foldl_nil]

/-- The table of a list with distinct keys holds its entries. -/
theorem find?_ofList {l : List (κ × α)} (h : (l.map Prod.fst).Nodup) {k : κ} {v : α} :
    (ofList l).find? k = some v ↔ (k, v) ∈ l := by
  induction l using List.reverseRecOn with
  | nil => simp [ofList]
  | append_singleton l e ih =>
    obtain ⟨j, w⟩ := e
    rw [List.map_append, List.nodup_append] at h
    obtain ⟨hl, _, hfresh⟩ := h
    rw [ofList_append, find?_insert, List.mem_append, List.mem_singleton, Prod.mk.injEq]
    split
    · next hk =>
      subst hk
      have hnot : (j, v) ∉ l := fun hmem =>
        hfresh j (List.mem_map_of_mem hmem) j (by simp) rfl
      simp only [hnot, false_or, true_and, Option.some.injEq, eq_comm]
    · next hk => simp only [ih hl, Ne.symm hk, false_and, or_false]

omit [Key κ] [DecidableEq κ] in
theorem sublist_keys_filterMap {β : Type} {f : κ × α → Option (κ × β)}
    (hf : ∀ {a b}, f a = some b → b.1 = a.1) (l : List (κ × α)) :
    ((l.filterMap f).map Prod.fst).Sublist (l.map Prod.fst) := by
  induction l with
  | nil => exact .slnil
  | cons a l ih =>
    cases hfa : f a with
    | none =>
      rw [List.filterMap_cons_none hfa]
      exact ih.cons _
    | some b =>
      rw [List.filterMap_cons_some hfa, List.map_cons, List.map_cons, hf hfa]
      exact ih.cons_cons _

/-- The table of some entries of a list with distinct keys, with other values. -/
theorem find?_ofList_filterMap {β : Type} {f : κ × α → Option (κ × β)}
    (hf : ∀ {a b}, f a = some b → b.1 = a.1) {l : List (κ × α)} (h : (l.map Prod.fst).Nodup)
    {k : κ} {v : β} : (ofList (l.filterMap f)).find? k = some v ↔ ∃ a ∈ l, f a = some (k, v) := by
  rw [find?_ofList (h.sublist (sublist_keys_filterMap hf l)), List.mem_filterMap]

omit [DecidableEq κ] in
/-- A key occurs once in a table. -/
theorem nodup_keys (t : Table κ α) : t.keys.Nodup :=
  List.pairwise_map.mpr (t.sorted.imp Key.ne_of_before)

theorem mem_keys_iff {t : Table κ α} {k : κ} : k ∈ t.keys ↔ ∃ v, t.find? k = some v := by
  simp only [keys, List.mem_map, find?_eq_some_iff]
  refine ⟨?_, ?_⟩
  · rintro ⟨⟨k, v⟩, hmem, rfl⟩
    exact ⟨v, hmem⟩
  · rintro ⟨v, hmem⟩
    exact ⟨(k, v), hmem, rfl⟩

/-- The table of a list with distinct keys holds as many entries as the list. -/
theorem size_ofList {l : List (κ × α)} (h : (l.map Prod.fst).Nodup) :
    (ofList l).size = l.length := by
  have hperm : (ofList l).entries.Perm l := by
    refine (List.perm_ext_iff_of_nodup (List.Nodup.of_map _ (nodup_keys _))
      (List.Nodup.of_map _ h)).mpr ?_
    intro e
    rw [← find?_eq_some_iff, find?_ofList h]
  exact hperm.length_eq

omit [DecidableEq κ] in
theorem size_filter_le (t : Table κ α) (keep : κ → α → Bool) : (t.filter keep).size ≤ t.size :=
  List.length_filter_le _ _

theorem length_insertIn_le (k : κ) (v : α) (l : List (κ × α)) :
    (insertIn k v l).length ≤ l.length + 1 := by
  induction l with
  | nil => exact Nat.le_refl _
  | cons e rest ih =>
    simp only [insertIn]
    split
    · exact Nat.le_refl _
    · split
      · exact Nat.le_succ _
      · exact Nat.succ_le_succ ih

theorem size_insert_le (t : Table κ α) (k : κ) (v : α) : (t.insert k v).size ≤ t.size + 1 :=
  length_insertIn_le k v t.entries

/-! ## Changes of single entries -/

theorem find?_modify (t : Table κ α) (k j : κ) (f : α → α) :
    (t.modify k f).find? j = if k = j then (t.find? j).map f else t.find? j := by
  unfold modify
  split
  · next v hfind =>
    rw [find?_insert]
    split
    · next hk =>
      subst hk
      rw [hfind]
      rfl
    · rfl
  · next hfind =>
    split
    · next hk =>
      subst hk
      rw [hfind]
      rfl
    · rfl

/-- Changing entries one after another changes each by the value of its key, if there is one. -/
theorem find?_foldl_modify {β : Type} (f : β → α → α) (changes : Table κ β) (t : Table κ α) (j : κ) :
    (changes.entries.foldl (fun t e => t.modify e.1 (f e.2)) t).find? j =
      match changes.find? j with
      | some v => (t.find? j).map (f v)
      | none => t.find? j := by
  obtain ⟨entries, hsorted⟩ := changes
  induction entries generalizing t with
  | nil => rfl
  | cons e rest ih =>
    obtain ⟨hfirst, hrest⟩ := List.pairwise_cons.mp hsorted
    have hlater := ih (t.modify e.1 (f e.2)) hrest
    have hfind (entries : List (κ × β)) (h) : find? ⟨entries, h⟩ j = findIn j entries := rfl
    rw [hfind, find?_modify] at hlater
    rw [List.foldl_cons, hlater, hfind, findIn]
    by_cases hj : e.1 = j
    -- No later entry has the key.
    · have hnone : findIn j rest = none := by
        rw [Option.eq_none_iff_forall_not_mem]
        intro v hv
        have hmem := (findIn_eq_some_iff hrest).mp hv
        exact Key.ne_of_before (hfirst _ hmem) hj
      simp only [hnone, hj, if_true]
    · simp only [hj, if_false]

end LightCone.Table
