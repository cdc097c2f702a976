import LightCone.ValidatorSet
import Mathlib.Data.List.Sort
import Mathlib.Data.String.Basic

/-!
What the name of a set of validators tells apart.

A set is named by a digest of bytes, in which a zero byte closes each id. An id may contain
the zero character itself, and then its parts read like ids. This file

1. reads the digest back from its hexadecimal text (`hexText_injective`);
2. shows that the distinct ids of a list stand for its set (`distinctIds_eq_iff`);
3. cuts ids at their zero characters (`pieces`) and shows that the bytes of two lists are the
   same just if their pieces are (`fingerprintBytes_eq_iff`);
4. concludes which lists share a name, given that the digest does not collide on them
   (`fingerprint_eq_iff`): those of the same set, if no id contains the zero character
   (`pieces_eq_iff`).
-/
namespace LightCone

/-! ## Hexadecimal text -/

theorem Sha256.digitChar_injective : ∀ m < 16, ∀ n < 16, Nat.digitChar m = Nat.digitChar n → m = n := by
  decide

theorem Sha256.hexText_injective {xs ys : List UInt8} (h : hexText xs = hexText ys) : xs = ys := by
  unfold hexText at h
  replace h := String.ofList_injective h
  induction xs generalizing ys with
  | nil =>
    cases ys with
    | nil => rfl
    | cons y ys => exact absurd h (by simp)
  | cons x xs ih =>
    cases ys with
    | nil => exact absurd h (by simp)
    | cons y ys =>
      simp only [List.flatMap_cons, List.cons_append, List.nil_append, List.cons.injEq] at h
      obtain ⟨hhigh, hlow, hrest⟩ := h
      have hx := x.toNat_lt
      have hy := y.toNat_lt
      have hdiv := digitChar_injective _ (by omega) _ (by omega) hhigh
      have hmod := digitChar_injective _ (by omega) _ (by omega) hlow
      have hsame : x = y := UInt8.toNat_inj.mp (by omega)
      rw [hsame, ih hrest]

/-! ## Lists and their sets -/

theorem distinctIds_eq_iff {A B : List String} :
    distinctIds A = distinctIds B ↔ ∀ id, id ∈ A ↔ id ∈ B := by
  refine ⟨?_, ?_⟩
  · intro h id
    rw [← mem_distinctIds, h, mem_distinctIds]
  · intro h
    refine (sorted_distinctIds A).eq_of_mem_iff (sorted_distinctIds B) ?_
    intro id
    rw [mem_distinctIds, mem_distinctIds]
    exact h id

/-! ## Pieces of ids -/

/-- The ids of a list in text order, each cut at its zero characters. -/
def pieces (ids : List String) : List (List Char) :=
  (distinctIds ids).flatMap fun id => id.toList.splitOn '\x00'

/-- The ids of a list in text order, each closed by a zero character. -/
def closedIds (ids : List String) : List Char :=
  (distinctIds ids).flatMap fun id => id.toList ++ ['\x00']

theorem toUTF8_append_zero (id : String) (rest : List Char) :
    (String.ofList (id.toList ++ ['\x00'] ++ rest)).toUTF8.data.toList =
      id.toUTF8.data.toList ++ [0] ++ (String.ofList rest).toUTF8.data.toList := by
  have hzero : (String.ofList ['\x00']).toUTF8.data.toList = [0] := by decide +kernel
  rw [← hzero]
  simp only [String.ofList_append, String.ofList_toList, String.toUTF8_eq_toByteArray,
    String.toByteArray_append, ByteArray.data_append, Array.toList_append]

/-- The bytes of a set are the text of its closed ids. -/
theorem fingerprintBytes_eq (ids : List String) :
    fingerprintBytes ids = (String.ofList (closedIds ids)).toUTF8.data.toList := by
  unfold fingerprintBytes closedIds
  induction distinctIds ids with
  | nil => rfl
  | cons id rest ih => rw [List.flatMap_cons, List.flatMap_cons, toUTF8_append_zero, ih]

/-- Cut at every zero character, the closed ids are the pieces and an empty rest. -/
theorem splitOn_closedIds (ids : List String) :
    (closedIds ids).splitOn '\x00' = pieces ids ++ [[]] := by
  unfold closedIds pieces
  induction distinctIds ids with
  | nil => rfl
  | cons id rest ih =>
    rw [List.flatMap_cons, List.flatMap_cons, List.append_assoc, List.singleton_append,
      List.splitOn_append_cons_self, ih, List.append_assoc]

theorem fingerprintBytes_eq_iff {A B : List String} :
    fingerprintBytes A = fingerprintBytes B ↔ pieces A = pieces B := by
  rw [fingerprintBytes_eq, fingerprintBytes_eq]
  refine ⟨?_, ?_⟩
  · intro h
    -- A text is settled by its bytes, and the pieces by the text.
    have hclosed : closedIds A = closedIds B := by
      apply String.ofList_injective
      apply String.toByteArray_inj.mp
      apply ByteArray.ext
      exact Array.toList_inj.mp h
    have hsplit := congrArg (List.splitOn '\x00') hclosed
    rw [splitOn_closedIds, splitOn_closedIds] at hsplit
    exact List.append_cancel_right hsplit
  · intro h
    have hclosed : closedIds A = closedIds B :=
      calc closedIds A = ['\x00'].intercalate ((closedIds A).splitOn '\x00') :=
            (List.intercalate_splitOn _).symm
        _ = ['\x00'].intercalate ((closedIds B).splitOn '\x00') := by
            rw [splitOn_closedIds, splitOn_closedIds, h]
        _ = closedIds B := List.intercalate_splitOn _
    rw [hclosed]

/-- No id of the list contains the zero character. -/
def ZeroFree (ids : List String) : Prop := ∀ id ∈ ids, '\x00' ∉ id.toList

/-- Without zero characters the pieces are the ids. -/
theorem pieces_eq_map {ids : List String} (h : ZeroFree ids) :
    pieces ids = (distinctIds ids).map String.toList := by
  unfold pieces
  rw [List.map_eq_flatMap]
  refine List.flatMap_congr fun id hid => ?_
  exact List.splitOn_eq_singleton (h id (mem_distinctIds.mp hid))

/-- Lists without zero characters have the same pieces just if they stand for the same set. -/
theorem pieces_eq_iff {A B : List String} (hA : ZeroFree A) (hB : ZeroFree B) :
    pieces A = pieces B ↔ ∀ id, id ∈ A ↔ id ∈ B := by
  rw [pieces_eq_map hA, pieces_eq_map hB, ← distinctIds_eq_iff]
  exact (List.map_injective_iff.mpr fun _ _ => String.toList_injective).eq_iff

/-! ## Names -/

/-- The digest tells the bytes of two lists apart. -/
def Collisionless (A B : List String) : Prop :=
  Sha256.digest (fingerprintBytes A) = Sha256.digest (fingerprintBytes B) →
    fingerprintBytes A = fingerprintBytes B

/-- Two lists share a name just if their pieces are the same, unless the digest collides. -/
theorem fingerprint_eq_iff {A B : List String} (hdigest : Collisionless A B) :
    fingerprint A = fingerprint B ↔ pieces A = pieces B := by
  rw [← fingerprintBytes_eq_iff]
  refine ⟨?_, ?_⟩
  · intro h
    exact hdigest (Sha256.hexText_injective h)
  · intro h
    rw [fingerprint, fingerprint, h]

end LightCone
