/-!
Tables: finite maps in the order of their keys.

A table is a list of entries in strictly ascending key order, so a key occurs once, a listing
is sorted, and two tables with the same answers are equal (`Table.ext`). This file

1. asks of keys a strict total order (`Key`), and gives it to texts, by code points;
2. defines lookup, insertion, removal and filtering;
3. says what each does to lookups (`find?_insert`, `find?_erase`, `find?_filter`).
-/
namespace LightCone

/-- A strict total order on keys. -/
class Key (κ : Type) where
  before : κ → κ → Bool
  irrefl : ∀ a, before a a = false
  trans : ∀ {a b c}, before a b = true → before b c = true → before a c = true
  total : ∀ a b, before a b = true ∨ a = b ∨ before b a = true

/-- Texts are ordered by their code points. -/
instance : Key String where
  before a b := decide (a < b)
  irrefl a := by simp
  trans := by
    intro a b c hab hbc
    simp only [decide_eq_true_eq] at hab hbc ⊢
    exact String.lt_trans hab hbc
  total a b := by
    simp only [decide_eq_true_eq]
    exact Std.lt_trichotomy a b

instance : Key Nat where
  before a b := decide (a < b)
  irrefl a := by simp
  trans := by
    intro a b c hab hbc
    simp only [decide_eq_true_eq] at hab hbc ⊢
    omega
  total a b := by
    simp only [decide_eq_true_eq]
    omega

theorem Key.ne_of_before {κ : Type} [Key κ] {a b : κ} (h : Key.before a b = true) : a ≠ b := by
  intro hsame
  subst hsame
  rw [Key.irrefl] at h
  exact absurd h (by decide)

/-- Entries in ascending key order. -/
structure Table (κ : Type) [Key κ] (α : Type) where
  entries : List (κ × α)
  sorted : entries.Pairwise fun x y => Key.before x.1 y.1 = true

namespace Table

variable {κ α β : Type} [Key κ] [DecidableEq κ]

def empty : Table κ α := ⟨[], List.Pairwise.nil⟩

instance : Inhabited (Table κ α) := ⟨empty⟩

def size (t : Table κ α) : Nat := t.entries.length

def keys (t : Table κ α) : List κ := t.entries.map Prod.fst

def values (t : Table κ α) : List α := t.entries.map Prod.snd

/-- The value of the first entry with the key. -/
def findIn (k : κ) : List (κ × α) → Option α
  | [] => none
  | e :: rest => if e.1 = k then some e.2 else findIn k rest

def find? (t : Table κ α) (k : κ) : Option α := findIn k t.entries

def contains (t : Table κ α) (k : κ) : Bool := (t.find? k).isSome

/-- Puts an entry at its place, instead of one with the same key. -/
def insertIn (k : κ) (v : α) : List (κ × α) → List (κ × α)
  | [] => [(k, v)]
  | e :: rest =>
    if Key.before k e.1 then (k, v) :: e :: rest
    else if k = e.1 then (k, v) :: rest
    else e :: insertIn k v rest

theorem mem_insertIn {k : κ} {v : α} {e : κ × α} {l : List (κ × α)} (h : e ∈ insertIn k v l) :
    e = (k, v) ∨ e ∈ l := by
  induction l with
  | nil => simpa [insertIn] using h
  | cons x rest ih =>
    simp only [insertIn] at h
    split at h
    · simpa using h
    · split at h
      · rcases List.mem_cons.mp h with h | h
        · exact .inl h
        · exact .inr (List.mem_cons_of_mem _ h)
      · rcases List.mem_cons.mp h with h | h
        · exact .inr (h ▸ List.mem_cons_self ..)
        · exact (ih h).imp id (List.mem_cons_of_mem _)

theorem sorted_insertIn (k : κ) (v : α) {l : List (κ × α)}
    (h : l.Pairwise fun x y => Key.before x.1 y.1 = true) :
    (insertIn k v l).Pairwise fun x y => Key.before x.1 y.1 = true := by
  induction l with
  | nil => simp [insertIn]
  | cons e rest ih =>
    obtain ⟨he, hrest⟩ := List.pairwise_cons.mp h
    simp only [insertIn]
    split
    · next hk =>
      refine List.pairwise_cons.mpr ⟨fun x hx => ?_, h⟩
      rcases List.mem_cons.mp hx with rfl | hx
      · exact hk
      · exact Key.trans hk (he x hx)
    · next hk =>
      split
      · next heq => exact List.pairwise_cons.mpr ⟨fun x hx => heq ▸ he x hx, hrest⟩
      · next hne =>
        refine List.pairwise_cons.mpr ⟨fun x hx => ?_, ih hrest⟩
        rcases mem_insertIn hx with rfl | hx
        · rcases Key.total e.1 k with h1 | h1 | h1
          · exact h1
          · exact absurd h1.symm hne
          · exact absurd h1 hk
        · exact he x hx

def insert (t : Table κ α) (k : κ) (v : α) : Table κ α :=
  ⟨insertIn k v t.entries, sorted_insertIn k v t.sorted⟩

def filter (t : Table κ α) (keep : κ → α → Bool) : Table κ α :=
  ⟨t.entries.filter fun e => keep e.1 e.2, t.sorted.sublist List.filter_sublist⟩

def erase (t : Table κ α) (k : κ) : Table κ α := t.filter fun k' _ => k' ≠ k

/-- Changes the value of a key, if it has one. -/
def modify (t : Table κ α) (k : κ) (f : α → α) : Table κ α :=
  match t.find? k with
  | some v => t.insert k (f v)
  | none => t

/-- The table of a list of entries; of two with one key the later counts. -/
def ofList (entries : List (κ × α)) : Table κ α :=
  entries.foldl (fun t e => t.insert e.1 e.2) empty

/-! ## What the operations do to lookups -/

theorem findIn_insertIn (k j : κ) (v : α) (l : List (κ × α)) :
    findIn j (insertIn k v l) = if k = j then some v else findIn j l := by
  induction l with
  | nil => simp [insertIn, findIn]
  | cons e rest ih =>
    simp only [insertIn]
    split
    · simp [findIn]
    · split
      · next heq => by_cases hj : k = j <;> simp_all [findIn]
      · next hne =>
        simp only [findIn, ih]
        by_cases hj : e.1 = j
        · have : k ≠ j := fun h => hne (h.trans hj.symm)
          simp [hj, this]
        · simp [hj]

@[simp] theorem find?_empty (k : κ) : (empty : Table κ α).find? k = none := rfl

theorem find?_insert (t : Table κ α) (k j : κ) (v : α) :
    (t.insert k v).find? j = if k = j then some v else t.find? j :=
  findIn_insertIn k j v t.entries

theorem findIn_eq_some_iff {k : κ} {v : α} {l : List (κ × α)}
    (h : l.Pairwise fun x y => Key.before x.1 y.1 = true) :
    findIn k l = some v ↔ (k, v) ∈ l := by
  induction l with
  | nil => simp [findIn]
  | cons e rest ih =>
    obtain ⟨he, hrest⟩ := List.pairwise_cons.mp h
    simp only [findIn, List.mem_cons]
    split
    · next heq =>
      refine ⟨?_, ?_⟩
      · intro hv
        left
        rw [← heq, ← Option.some.inj hv]
      · intro hcases
        rcases hcases with rfl | hm
        · rfl
        · exact absurd heq (Key.ne_of_before (he _ hm))
    · next hne =>
      rw [ih hrest]
      refine ⟨?_, ?_⟩
      · exact .inr
      · intro hcases
        rcases hcases with rfl | hm
        · exact absurd rfl hne
        · exact hm

theorem find?_eq_some_iff {t : Table κ α} {k : κ} {v : α} :
    t.find? k = some v ↔ (k, v) ∈ t.entries := findIn_eq_some_iff t.sorted

theorem find?_filter (t : Table κ α) (keep : κ → α → Bool) (k : κ) :
    (t.filter keep).find? k = (t.find? k).filter (keep k) := by
  apply Option.ext
  intro v
  rw [find?_eq_some_iff, Option.filter_eq_some_iff, find?_eq_some_iff]
  simp [filter]

theorem find?_erase (t : Table κ α) (k j : κ) :
    (t.erase k).find? j = if j = k then none else t.find? j := by
  rw [erase, find?_filter]
  by_cases h : j = k
  · cases t.find? j <;> simp [h, Option.filter]
  · cases t.find? j <;> simp [h, Option.filter]

/-- A table is determined by its lookups. -/
theorem ext {s t : Table κ α} (h : ∀ k, s.find? k = t.find? k) : s = t := by
  have mem : ∀ e, e ∈ s.entries ↔ e ∈ t.entries := fun e => by
    rw [← find?_eq_some_iff, ← find?_eq_some_iff, h]
  obtain ⟨ss, hs⟩ := s
  obtain ⟨ts, ht⟩ := t
  congr
  clear h
  simp only at mem
  induction ss generalizing ts with
  | nil =>
    cases ts with
    | nil => rfl
    | cons y _ => exact absurd ((mem y).mpr (List.mem_cons_self ..)) (by simp)
  | cons x xs ih =>
    cases ts with
    | nil => exact absurd ((mem x).mp (List.mem_cons_self ..)) (by simp)
    | cons y ys =>
      obtain ⟨hx, hxs⟩ := List.pairwise_cons.mp hs
      obtain ⟨hy, hys⟩ := List.pairwise_cons.mp ht
      have hxy : x = y := by
        rcases List.mem_cons.mp ((mem x).mp (List.mem_cons_self ..)) with h | h
        · exact h
        · rcases List.mem_cons.mp ((mem y).mpr (List.mem_cons_self ..)) with h' | h'
          · exact h'.symm
          · have := Key.trans (hy x h) (hx y h')
            rw [Key.irrefl] at this
            exact absurd this (by decide)
      subst hxy
      congr 1
      refine ih hxs ys hys fun e => ?_
      have he := mem e
      simp only [List.mem_cons] at he
      refine ⟨?_, ?_⟩
      · intro hm
        rcases he.mp (.inr hm) with rfl | h
        · have := hx e hm
          rw [Key.irrefl] at this
          exact absurd this (by decide)
        · exact h
      · intro hm
        rcases he.mpr (.inr hm) with rfl | h
        · have := hy e hm
          rw [Key.irrefl] at this
          exact absurd this (by decide)
        · exact h

theorem insert_comm {k j : κ} (h : k ≠ j) (t : Table κ α) (v w : α) :
    (t.insert k v).insert j w = (t.insert j w).insert k v := by
  apply ext
  intro i
  simp only [find?_insert]
  by_cases hk : k = i
  · have hj : j ≠ i := fun hji => h (hk.trans hji.symm)
    simp [hk, hj]
  · simp [hk]

/-- Of two values put in for one key the later counts. -/
theorem insert_insert (t : Table κ α) (k : κ) (v w : α) : (t.insert k v).insert k w = t.insert k w := by
  apply ext
  intro i
  simp only [find?_insert]
  by_cases hk : k = i <;> simp [hk]

end Table
end LightCone
