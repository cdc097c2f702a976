import LightCone.Digest.Sha256
import LightCone.Table

/-!
Sets of validators, given as lists of ids.

A list stands for the set of its ids: order and repetition do not matter. This file

1. lists the distinct ids of a list in text order (`distinctIds`);
2. names a set by a digest of its ids in that order, each closed by a zero byte
   (`fingerprint`).
-/
namespace LightCone

/-- Puts an id at its place in an ascending list, once. -/
def insertId (id : String) : List String → List String
  | [] => [id]
  | x :: rest =>
    if id < x then id :: x :: rest
    else if id = x then x :: rest
    else x :: insertId id rest

/-- The distinct ids of a list, in text order. -/
def distinctIds (ids : List String) : List String := ids.foldr insertId []

theorem mem_insertId {id x : String} {ids : List String} :
    x ∈ insertId id ids ↔ x = id ∨ x ∈ ids := by
  induction ids with
  | nil => simp [insertId]
  | cons y rest ih =>
    simp only [insertId]
    split
    · simp
    · split
      · next h => subst h; simp
      · simp only [List.mem_cons, ih]
        constructor <;> rintro (h | h | h) <;> simp [h]

theorem mem_distinctIds {x : String} {ids : List String} : x ∈ distinctIds ids ↔ x ∈ ids := by
  induction ids with
  | nil => simp [distinctIds]
  | cons y rest ih =>
    show x ∈ insertId y (distinctIds rest) ↔ _
    rw [mem_insertId, ih, List.mem_cons]

theorem sorted_insertId (id : String) {ids : List String} (h : ids.Pairwise (· < ·)) :
    (insertId id ids).Pairwise (· < ·) := by
  induction ids with
  | nil => simp [insertId]
  | cons y rest ih =>
    obtain ⟨hy, hrest⟩ := List.pairwise_cons.mp h
    simp only [insertId]
    split
    · next hlt =>
      refine List.pairwise_cons.mpr ⟨fun x hx => ?_, h⟩
      rcases List.mem_cons.mp hx with rfl | hx
      · exact hlt
      · exact String.lt_trans hlt (hy x hx)
    · next hnlt =>
      split
      · exact h
      · next hne =>
        refine List.pairwise_cons.mpr ⟨fun x hx => ?_, ih hrest⟩
        rcases mem_insertId.mp hx with rfl | hx
        · rcases Std.lt_trichotomy y x with h1 | h1 | h1
          · exact h1
          · exact absurd h1.symm hne
          · exact absurd h1 hnlt
        · exact hy x hx

theorem sorted_distinctIds (ids : List String) : (distinctIds ids).Pairwise (· < ·) := by
  induction ids with
  | nil => simp [distinctIds]
  | cons y rest ih => exact sorted_insertId y ih

/-- The bytes that stand for a set: its ids in text order, each followed by a zero byte. -/
def fingerprintBytes (ids : List String) : List UInt8 :=
  (distinctIds ids).flatMap fun id => id.toUTF8.data.toList ++ [0]

def fingerprint (ids : List String) : String :=
  Sha256.hexText (Sha256.digest (fingerprintBytes ids))

end LightCone
