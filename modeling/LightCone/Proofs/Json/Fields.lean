import LightCone.Json.Records
import LightCone.Proofs.Json.ReadBack
import Mathlib.Data.List.Forall2

/-!
Records are taken apart as they were put together.

This file

1. says what it is for a value to come back from a document (`ComesBack`): it is plain, so that the
   text is read back, and it is decoded; options and lists come back if what they hold does;
2. follows a shape along the fields that it finds (`Shape.Reads`): one lemma for each way to build a
   shape, and one for objects that have just these fields (`Shape.Reads.comesBack`).
-/
namespace LightCone.Json

section Codecs

variable {α β : Type} {encode : α → Value} {decode : Decoder α} {a : α}

/-- A value that is put into a document is plain, and is taken out of it again. -/
structure ComesBack (encode : α → Value) (decode : Decoder α) (a : α) : Prop where
  plain : (encode a).isPlain = true
  decode_eq : decode (encode a) = .ok a

/-- Then its document gives it back. -/
theorem ComesBack.parse_render (h : ComesBack encode decode a) :
    parse decode (encode a).render = .ok a := by
  unfold parse Value.render
  rw [String.toList_ofList, readDocument_chars h.plain]
  simp only [h.decode_eq]
  rfl

theorem comesBack_text (text : String) : ComesBack .text decodeText text := ⟨rfl, rfl⟩

theorem comesBack_natural {limit n : Nat} (hlimit : limit ≤ wordLimit) (hn : n < limit) :
    ComesBack natural (decodeNat limit) n where
  plain := decide_eq_true (Nat.lt_of_lt_of_le hn hlimit)
  decode_eq := if_pos hn

theorem comesBack_word {n : Nat} (hn : n < wordLimit) : ComesBack natural decodeWordCount n :=
  comesBack_natural (Nat.le_refl _) hn

/-- An option comes back if what it holds does, and is not written like nothing. -/
theorem comesBack_option {a : Option α} (h : ∀ x, a = some x → ComesBack encode decode x)
    (hnull : ∀ x, encode x ≠ .null) : ComesBack (encodeOption encode) (decodeOption decode) a := by
  cases a with
  | none => exact ⟨rfl, rfl⟩
  | some x =>
    obtain ⟨hplain, hdecode⟩ := h x rfl
    refine ⟨hplain, ?_⟩
    show decodeOption decode (encode x) = _
    unfold decodeOption
    split
    · next hnone => exact absurd hnone (hnull x)
    · rw [hdecode]
      rfl

/-- A list comes back if its items do. -/
theorem comesBack_list (as : List α) (h : ∀ x ∈ as, ComesBack encode decode x) :
    ComesBack (fun as => .array (as.map encode) true) (decodeList decode) as := by
  have hitems : Value.itemsPlain (as.map encode) = true ∧ decodeItems decode (as.map encode) = .ok as := by
    induction as with
    | nil => exact ⟨rfl, rfl⟩
    | cons x as ih =>
      obtain ⟨hplain, hdecode⟩ := ih fun y hy => h y (List.mem_cons_of_mem x hy)
      obtain ⟨hplain', hdecode'⟩ := h x List.mem_cons_self
      rw [List.map_cons, Value.itemsPlain, decodeItems, hplain, hplain', hdecode, hdecode']
      exact ⟨rfl, rfl⟩
  refine ⟨hitems.1, ?_⟩
  unfold decodeList
  simp only [hitems.2]
  rfl

end Codecs

/-! ## Records by their shapes -/

namespace Shape

variable {α β : Type} {s : Shape α} {fields fields' : List (String × Value)} {a : α}

/-- A shape finds its fields in a list, in order, and makes a record of them. -/
structure Reads (s : Shape α) (fields : List (String × Value)) (a : α) : Prop where
  tests : List.Forall₂ (fun (t : String × Decoder Unit) (f : String × Value) =>
    t.1 = f.1 ∧ t.2 f.2 = .ok ()) s.tests fields
  plain : ∀ f ∈ fields, f.2.isPlain = true
  build : ∀ values missing, (∀ f ∈ fields, values f.1 = some f.2) → s.build values missing = .ok a

theorem reads_field (name : String) {encode : α → Value} {decode : Decoder α}
    (h : ComesBack encode decode a) : Reads (field name decode) [(name, encode a)] a where
  tests := by
    refine .cons ⟨rfl, ?_⟩ .nil
    show (decode (encode a)).map _ = _
    rw [h.decode_eq]
    rfl
  plain := by
    intro f hf
    rw [List.mem_singleton.mp hf]
    exact h.plain
  build values missing hvalues := by
    have hvalue := hvalues (name, encode a) List.mem_cons_self
    unfold field fieldOr
    dsimp only
    rw [hvalue]
    exact h.decode_eq

theorem reads_optional (name : String) {encode : α → Value} {decode : Decoder α} {a : Option α}
    (h : ComesBack (encodeOption encode) (decodeOption decode) a) :
    Reads (optional name decode) [(name, encodeOption encode a)] a where
  tests := by
    refine .cons ⟨rfl, ?_⟩ .nil
    show (decodeOption decode (encodeOption encode a)).map _ = _
    rw [h.decode_eq]
    rfl
  plain := by
    intro f hf
    rw [List.mem_singleton.mp hf]
    exact h.plain
  build values missing hvalues := by
    have hvalue := hvalues (name, encodeOption encode a) List.mem_cons_self
    unfold optional
    dsimp only
    rw [hvalue]
    exact h.decode_eq

theorem Reads.map (h : Reads s fields a) (f : α → β) : Reads (f <$> s) fields (f a) where
  tests := h.tests
  plain := h.plain
  build values missing hvalues := by
    show (s.build values missing).map f = _
    rw [h.build values missing hvalues]
    rfl

theorem Reads.seq {sf : Shape (α → β)} {f : α → β} (hf : Reads sf fields f)
    (h : Reads s fields' a) : Reads (sf <*> s) (fields ++ fields') (f a) where
  tests := List.rel_append hf.tests h.tests
  plain x hx := (List.mem_append.mp hx).elim (hf.plain x) (h.plain x)
  build values missing hvalues := by
    show (do
      let f ← sf.build values missing
      let x ← s.build values missing
      .ok (f x)) = _
    rw [hf.build values missing fun x hx => hvalues x (List.mem_append_left _ hx),
      h.build values missing fun x hx => hvalues x (List.mem_append_right _ hx)]
    rfl

/-- Each field of its own name meets its own test. -/
theorem Reads.find?_test (h : Reads s fields a) (hnames : (fields.map Prod.fst).Nodup)
    {f : String × Value} (hf : f ∈ fields) :
    ∃ test, s.tests.find? (fun t => t.1 = f.1) = some (f.1, test) ∧ test f.2 = .ok () := by
  obtain ⟨htests, -, -⟩ := h
  generalize s.tests = tests at htests
  induction htests with
  | nil => cases hf
  | @cons t g tests fields hhead _ ih =>
    rw [List.map_cons, List.nodup_cons] at hnames
    rcases List.mem_cons.mp hf with rfl | hf
    · exact ⟨t.2, by rw [List.find?_cons_of_pos (by simp [hhead.1]), ← hhead.1], hhead.2⟩
    · have hne : ¬ t.1 = f.1 := by
        intro hsame
        rw [← hhead.1, hsame] at hnames
        exact hnames.1 (List.mem_map_of_mem hf)
      rw [List.find?_cons_of_neg (by simp [hne])]
      exact ih hnames.2 hf

theorem meet_eq_ok {tests : List (String × Decoder Unit)} (strict : Bool) {seen : List String}
    (htests : ∀ f ∈ fields, ∃ test, tests.find? (fun t => t.1 = f.1) = some (f.1, test) ∧
      test f.2 = .ok ())
    (hnames : (fields.map Prod.fst).Nodup) (hseen : ∀ f ∈ fields, f.1 ∉ seen) :
    meet tests strict seen (fields.map fun (name, v) => (some name, v)) = .ok () := by
  induction fields generalizing seen with
  | nil => rfl
  | cons f fields ih =>
    obtain ⟨test, hfind, htest⟩ := htests f List.mem_cons_self
    rw [List.map_cons, List.nodup_cons] at hnames
    rw [List.map_cons, meet]
    simp only [hfind, if_neg (hseen f List.mem_cons_self), htest]
    refine ih (fun g hg => htests g (List.mem_cons_of_mem f hg)) hnames.2 fun g hg => ?_
    rw [List.mem_cons, not_or]
    refine ⟨fun hsame => hnames.1 ?_, hseen g (List.mem_cons_of_mem f hg)⟩
    rw [← hsame]
    exact List.mem_map_of_mem hg

theorem valueOf_eq (hnames : (fields.map Prod.fst).Nodup) {f : String × Value} (hf : f ∈ fields) :
    valueOf (fields.map fun (name, v) => (some name, v)) f.1 = some f.2 := by
  induction fields with
  | nil => cases hf
  | cons g fields ih =>
    rw [List.map_cons, List.nodup_cons] at hnames
    rw [List.map_cons]
    unfold valueOf at ih ⊢
    rcases List.mem_cons.mp hf with rfl | hf
    · rw [List.find?_cons_of_pos (by simp)]
      rfl
    · have hne : ¬ g.1 = f.1 := by
        intro hsame
        rw [hsame] at hnames
        exact hnames.1 (List.mem_map_of_mem hf)
      rw [List.find?_cons_of_neg (by simp [hne])]
      exact ih hnames.2 hf

/-- An object with just the fields of a shape gives the record. -/
theorem Reads.decodeWith (h : Reads s fields a) (hnames : (fields.map Prod.fst).Nodup)
    (strict : Bool) : s.decodeWith strict (object fields) = .ok a := by
  have hmeet : meet s.tests strict [] (fields.map fun (name, v) => (some name, v)) = .ok () :=
    meet_eq_ok strict (fun f hf => h.find?_test hnames hf) hnames fun _ _ hnil => by cases hnil
  have hbuild := h.build (valueOf (fields.map fun (name, v) => (some name, v))) .missingField
    fun f hf => valueOf_eq hnames hf
  unfold Shape.decodeWith object
  dsimp only
  rw [hmeet, if_pos rfl, hbuild]
  rfl

theorem Reads.isPlain_object (h : Reads s fields a) : (object fields).isPlain = true := by
  have hfields : Value.fieldsPlain (fields.map fun (name, v) => (some name, v)) = true := by
    have hplain := h.plain
    clear h
    induction fields with
    | nil => rfl
    | cons f fields ih =>
      rw [List.map_cons, Value.fieldsPlain, hplain f List.mem_cons_self,
        ih fun g hg => hplain g (List.mem_cons_of_mem f hg)]
      rfl
  unfold object
  rw [Value.isPlain, hfields]
  rfl

/-- A record comes back if its fields do. -/
theorem Reads.comesBack {encode : α → Value} (h : Reads s fields a) (hencode : encode a = object fields)
    (hnames : (fields.map Prod.fst).Nodup) : ComesBack encode s.decode a where
  plain := by
    rw [hencode]
    exact h.isPlain_object
  decode_eq := by
    rw [hencode]
    exact h.decodeWith hnames false

end Shape
end LightCone.Json
