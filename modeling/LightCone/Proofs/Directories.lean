import LightCone.Service.Memory

/-!
Directories that answer with the node that was asked for.

A record stands under its own id however the directory came about. This file

1. keeps that up through every change of a directory (`Directory.Keyed`);
2. carries it over to the lookups of a service (`Environment.Keyed`), and says which nodes
   lookups of a list of ids find (`Environment.mem_resolved`).
-/
namespace LightCone

/-- Every record stands under its own id. -/
def Directory.Keyed (d : Directory) : Prop :=
  ∀ ⦃id node⦄, d.nodes.find? id = some node → node.id = id

namespace Directory.Keyed

variable {d d' : Directory} {node : Node}

theorem empty : Directory.empty.Keyed := by
  intro id node hfind
  cases hfind

theorem insert (h : d.Keyed) : Directory.Keyed ⟨d.nodes.insert node.id node⟩ := by
  intro id found hfind
  rw [Table.find?_insert] at hfind
  split at hfind
  · next hid =>
    cases hfind
    exact hid
  · exact h hfind

theorem upsert (h : d.Keyed) {previous : Option Node} (hup : d.upsert node = .ok (previous, d')) :
    d'.Keyed := by
  unfold Directory.upsert at hup
  split at hup
  · cases hup
  · cases hup
    exact h.insert

theorem remove (h : d.Keyed) (id : String) : (d.remove id).2.Keyed := by
  intro id' found hfind
  simp only [Directory.remove, Table.find?_erase] at hfind
  split at hfind
  · cases hfind
  · exact h hfind

theorem setActive (h : d.Keyed) (id : String) (active : Bool) (seen : Instant) :
    (d.setActive id active seen).2.Keyed := by
  unfold Directory.setActive
  split
  · next found hfind =>
    obtain rfl := h hfind
    let changed : Node := { found with active := active, lastSeen := seen }
    have hinserted : Directory.Keyed ⟨d.nodes.insert changed.id changed⟩ := h.insert
    exact hinserted
  · exact h

theorem upsertAll (h : d.Keyed) {nodes : List Node} (hup : d.upsertAll nodes = .ok d') : d'.Keyed := by
  induction nodes generalizing d with
  | nil =>
    cases hup
    exact h
  | cons node rest ih =>
    unfold Directory.upsertAll at hup
    split at hup
    · next hfirst => exact ih (h.upsert hfirst) hup
    · cases hup

theorem ofList {nodes : List Node} (hlist : Directory.ofList nodes = .ok d) : d.Keyed :=
  empty.upsertAll hlist

/-- A directory lists its nodes in the order of their ids. -/
theorem sorted_all (h : d.Keyed) : d.all.Pairwise fun a b => a.id < b.id := by
  refine List.pairwise_map.mpr (d.nodes.sorted.imp_of_mem fun {x y} hx hy hxy => ?_)
  rw [h (Table.find?_eq_some_iff.mpr hx), h (Table.find?_eq_some_iff.mpr hy)]
  exact of_decide_eq_true hxy

end Directory.Keyed

/-- A directory holds a node under the id of the node. -/
def Directory.Holds (d : Directory) (a : Node) : Prop := d.nodes.find? a.id = some a

namespace Directory

variable {d : Directory} {a b : Node}

theorem Holds.unique (ha : d.Holds a) (hb : d.Holds b) (h : a.id = b.id) : a = b := by
  unfold Holds at ha hb
  rw [h, hb] at ha
  cases ha
  rfl

theorem find?_of_get {id : String} (h : d.get id = .ok a) : d.nodes.find? id = some a := by
  unfold get at h
  split at h
  · next hfind =>
    cases h
    exact hfind
  · cases h

theorem holds_of_get (hkeyed : d.Keyed) {id : String} (h : d.get id = .ok a) : d.Holds a := by
  have hfind := find?_of_get h
  rw [Holds, hkeyed hfind]
  exact hfind

theorem holds_of_mem_all (h : d.Keyed) (ha : a ∈ d.all) : d.Holds a := by
  obtain ⟨⟨id, node⟩, hentry, rfl⟩ := List.mem_map.mp ha
  have hfind := Table.find?_eq_some_iff.mpr hentry
  rw [Holds, h hfind]
  exact hfind

theorem holds_of_mem_active (h : d.Keyed) (ha : a ∈ d.active) : d.Holds a :=
  holds_of_mem_all h (List.mem_filter.mp ha).1

end Directory

namespace Environment

variable {env : Environment}

/-- The nodes that lookups of ids find, in order. -/
def resolved (env : Environment) (ids : List String) : List Node :=
  ids.filterMap fun id => (env.answer id).toOption

/-- A node that a lookup of its id finds. -/
def Knows (env : Environment) (a : Node) : Prop := env.answer a.id = .ok a

/-- Every lookup finds the node of the id. -/
def Keyed (env : Environment) : Prop := ∀ ⦃id a⦄, env.answer id = .ok a → a.id = id

theorem mem_resolved {ids : List String} {a : Node} :
    a ∈ env.resolved ids ↔ ∃ id ∈ ids, env.answer id = .ok a := by
  unfold resolved
  rw [List.mem_filterMap]
  refine ⟨?_, ?_⟩
  · intro h
    obtain ⟨id, hid, ha⟩ := h
    cases hanswer : env.answer id with
    | error fault =>
      rw [hanswer] at ha
      cases ha
    | ok b =>
      rw [hanswer] at ha
      cases ha
      exact ⟨id, hid, hanswer⟩
  · intro h
    obtain ⟨id, hid, hanswer⟩ := h
    exact ⟨id, hid, by rw [hanswer]; rfl⟩

theorem get_of_answer {id : String} {a : Node} (h : env.answer id = .ok a) :
    env.directory.get id = .ok a := by
  unfold answer at h
  split at h
  · cases h
  · exact h

theorem keyed_of_directory (h : env.directory.Keyed) : env.Keyed :=
  fun _ _ hanswer => h (Directory.find?_of_get (get_of_answer hanswer))

theorem Keyed.knows (h : env.Keyed) {id : String} {a : Node} (ha : env.answer id = .ok a) :
    env.Knows a := by
  rw [Knows, h ha]
  exact ha

theorem Knows.unique {a b : Node} (ha : env.Knows a) (hb : env.Knows b) (h : a.id = b.id) :
    a = b := by
  unfold Knows at ha hb
  rw [h, hb] at ha
  cases ha
  rfl

end Environment
end LightCone
