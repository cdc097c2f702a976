import LightCone.Service.Delays
import Mathlib.Data.List.Nodup

/-!
Pairs of distinct nodes.

A batch of delays has one job for every two ids among its nodes. This file

1. says which pairs the elements of a list form (`mem_pairsOf`, `mem_pairsOf_iff`);
2. shows that the first records of each id form every unordered pair of ids once
   (`nodup_pairKeys`), so that the jobs of a batch have distinct items (`nodup_keys_pairJobs`).
-/
namespace LightCone

/-! ## Pairs of a list -/

section Pairs

variable {α : Type} {x y : α} {l : List α}

theorem mem_of_mem_pairsOf {p : α × α} (h : p ∈ pairsOf l) : p.1 ∈ l ∧ p.2 ∈ l := by
  induction l with
  | nil => exact absurd h (by simp [pairsOf])
  | cons a rest ih =>
    simp only [pairsOf, List.mem_append, List.mem_map] at h
    rcases h with ⟨b, hb, rfl⟩ | h
    · exact ⟨List.mem_cons_self .., List.mem_cons_of_mem _ hb⟩
    · obtain ⟨hfirst, hsecond⟩ := ih h
      exact ⟨List.mem_cons_of_mem _ hfirst, List.mem_cons_of_mem _ hsecond⟩

/-- Two elements of a list are a pair of it, in one order or the other. -/
theorem mem_pairsOf (hx : x ∈ l) (hy : y ∈ l) (hne : x ≠ y) :
    (x, y) ∈ pairsOf l ∨ (y, x) ∈ pairsOf l := by
  induction l with
  | nil => exact absurd hx (by simp)
  | cons a rest ih =>
    simp only [pairsOf, List.mem_append, List.mem_map]
    rcases List.mem_cons.mp hx with rfl | hxrest
    · rcases List.mem_cons.mp hy with rfl | hyrest
      · exact absurd rfl hne
      · exact .inl (.inl ⟨y, hyrest, rfl⟩)
    · rcases List.mem_cons.mp hy with rfl | hyrest
      · exact .inr (.inl ⟨x, hxrest, rfl⟩)
      · exact (ih hxrest hyrest).imp .inr .inr

/-- What holds of any two elements in order holds of the pairs. -/
theorem rel_of_mem_pairsOf {r : α → α → Prop} (hl : l.Pairwise r) {p : α × α}
    (h : p ∈ pairsOf l) : r p.1 p.2 := by
  induction l with
  | nil => exact absurd h (by simp [pairsOf])
  | cons a rest ih =>
    obtain ⟨hfirst, hrest⟩ := List.pairwise_cons.mp hl
    simp only [pairsOf, List.mem_append, List.mem_map] at h
    rcases h with ⟨b, hb, rfl⟩ | h
    · exact hfirst b hb
    · exact ih hrest h

/-- An ordered list has a pair of elements in the one order that it has them in. -/
theorem mem_pairsOf_iff {r : α → α → Prop} (hasymm : ∀ {a b}, r a b → ¬ r b a)
    (hl : l.Pairwise r) : (x, y) ∈ pairsOf l ↔ x ∈ l ∧ y ∈ l ∧ r x y := by
  refine ⟨?_, ?_⟩
  · intro h
    obtain ⟨hx, hy⟩ := mem_of_mem_pairsOf h
    exact ⟨hx, hy, rel_of_mem_pairsOf hl h⟩
  · intro h
    obtain ⟨hx, hy, hxy⟩ := h
    have hne : x ≠ y := by
      rintro rfl
      exact hasymm hxy hxy
    rcases mem_pairsOf hx hy hne with hpair | hpair
    · exact hpair
    · exact absurd (rel_of_mem_pairsOf hl hpair) (hasymm hxy)

end Pairs

/-! ## Pairs of ids -/

/-- Of distinct nodes no two have one id. -/
theorem pairwise_distinctNodes (nodes : List Node) :
    (distinctNodes nodes).Pairwise fun a b => a.id ≠ b.id := by
  induction nodes with
  | nil => exact .nil
  | cons n rest ih =>
    refine List.pairwise_cons.mpr ⟨fun m hm => ?_, ih.sublist List.filter_sublist⟩
    have hother : m.id ≠ n.id := by simpa using (List.mem_filter.mp hm).2
    exact hother.symm

theorem eq_of_mem_distinctNodes {nodes : List Node} {a b : Node} (ha : a ∈ distinctNodes nodes)
    (hb : b ∈ distinctNodes nodes) (h : a.id = b.id) : a = b := by
  have hids : ((distinctNodes nodes).map Node.id).Nodup :=
    List.pairwise_map.mpr (pairwise_distinctNodes nodes)
  exact List.inj_on_of_nodup_map hids ha hb h

/-- Nodes with distinct ids form each unordered pair of ids once. -/
theorem nodup_pairKeys {nodes : List Node} (h : nodes.Pairwise fun a b => a.id ≠ b.id) :
    ((pairsOf nodes).map fun p => NodePair.of p.1.id p.2.id).Nodup := by
  induction nodes with
  | nil => exact .nil
  | cons a rest ih =>
    obtain ⟨hfirst, hrest⟩ := List.pairwise_cons.mp h
    rw [pairsOf, List.map_append, List.map_map]
    refine List.nodup_append.mpr ⟨?_, ih hrest, ?_⟩
    · refine List.pairwise_map.mpr (hrest.imp fun {b c} hbc hsame => ?_)
      rcases NodePair.of_eq_of_iff.mp hsame with ⟨_, hids⟩ | ⟨hac, hba⟩
      · exact hbc hids
      · exact hbc (hba.trans hac)
    -- A pair of later nodes does not name the first one.
    · rintro _ hleft _ hright rfl
      obtain ⟨b, _, hb⟩ := List.mem_map.mp hleft
      obtain ⟨⟨x, y⟩, hpair, hxy⟩ := List.mem_map.mp hright
      obtain ⟨hx, hy⟩ := mem_of_mem_pairsOf hpair
      rcases NodePair.of_eq_of_iff.mp (hb.trans hxy.symm) with ⟨hax, _⟩ | ⟨hay, _⟩
      · exact hfirst x hx hax
      · exact hfirst y hy hay

theorem nodup_keys_pairJobs (nodes : List Node) : ((pairJobs nodes).map Prod.fst).Nodup := by
  rw [pairJobs, List.map_map]
  exact nodup_pairKeys (pairwise_distinctNodes nodes)

end LightCone
