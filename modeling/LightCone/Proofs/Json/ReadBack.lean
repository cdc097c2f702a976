import LightCone.Proofs.Json.Texts

/-!
Documents are read as they were written.

The reader is given steps, and takes one for each value, item and field; two for each character are
enough. This file

1. names the values whose text is all there is to them (`Value.isPlain`), and says with which
   character a text of theirs begins;
2. reads back a value, items and fields, each if the shorter ones inside are read back with a step
   less (`readValue_chars`, `readItems_chars`, `readFields_chars`);
3. concludes by induction on the steps (`readsBack`), and for whole documents
   (`readDocument_chars`).
-/
namespace LightCone.Json

theorem isSpace_of_isDigit {c : Char} (h : c.isDigit = true) : isSpace c = false := by
  unfold isSpace
  simp only [Bool.or_eq_false_iff, decide_eq_false_iff_not]
  refine ⟨⟨⟨?_, ?_⟩, ?_⟩, ?_⟩ <;> (rintro rfl; exact absurd h (by decide))

/-! ## Values without binary64 numbers -/

namespace Value

mutual

/-- Whether a value is whole and its numbers are words: then its text is all there is to it. -/
def isPlain : Value → Bool
  | number (.natural n) => n < wordLimit
  | number _ => false
  | string text => text.isSome
  | array items closed => closed && itemsPlain items
  | object fields closed => closed && fieldsPlain fields
  | malformed => false
  | _ => true

def itemsPlain : List Value → Bool
  | [] => true
  | v :: rest => isPlain v && itemsPlain rest

def fieldsPlain : List (Option String × Value) → Bool
  | [] => true
  | (key, v) :: rest => key.isSome && isPlain v && fieldsPlain rest

end

/-- A value begins with a mark of its kind. -/
theorem chars_cons {v : Value} (h : v.isPlain = true) :
    ∃ c cs, v.chars = c :: cs ∧ isSpace c = false ∧ c ≠ ']' := by
  cases v with
  | null => exact ⟨'n', _, by rw [chars], by decide, by decide⟩
  | bool b => cases b <;> exact ⟨_, _, by rw [chars], by decide, by decide⟩
  | number n =>
    cases n with
    | natural n =>
      obtain ⟨c, cs, hcons⟩ := List.exists_cons_of_ne_nil (Nat.toDigits_ne_nil (n := n) (b := 10))
      have hdigit : c.isDigit = true := isDigit_toDigits (n := n) c (by rw [hcons]; simp)
      refine ⟨c, cs, by rw [chars, Number.chars, hcons], isSpace_of_isDigit hdigit, ?_⟩
      rintro rfl
      exact absurd hdigit (by decide)
    | negative n => cases h
    | real x => cases h
    | tooLarge => cases h
  | string text => exact ⟨'"', _, by rw [chars, quoted, List.cons_append], by decide, by decide⟩
  | array items closed => exact ⟨'[', _, by rw [chars, List.cons_append], by decide, by decide⟩
  | object fields closed =>
    exact ⟨'\x7b', _, by rw [chars, List.cons_append], by decide, by decide⟩
  | malformed => cases h

theorem itemChars_cons_cons (v w : Value) (rest : List Value) :
    itemChars (v :: w :: rest) = chars v ++ ',' :: itemChars (w :: rest) := rfl

theorem fieldChars_singleton (key : Option String) (v : Value) :
    fieldChars [(key, v)] = quoted (key.getD "") ++ ':' :: chars v := rfl

theorem fieldChars_cons_cons (key : Option String) (v : Value) (w : Option String × Value)
    (rest : List (Option String × Value)) :
    fieldChars ((key, v) :: w :: rest) =
      quoted (key.getD "") ++ ':' :: chars v ++ ',' :: fieldChars (w :: rest) := rfl

theorem itemChars_cons {items : List Value} (hsome : items ≠ []) (h : itemsPlain items = true) :
    ∃ c cs, itemChars items = c :: cs ∧ isSpace c = false ∧ c ≠ ']' := by
  obtain ⟨v, rest, rfl⟩ := List.exists_cons_of_ne_nil hsome
  have hv : v.isPlain = true := by
    rw [itemsPlain, Bool.and_eq_true] at h
    exact h.1
  obtain ⟨c, cs, hchars, hspace, hne⟩ := chars_cons hv
  cases rest with
  | nil => exact ⟨c, cs, by rw [itemChars, hchars], hspace, hne⟩
  | cons w rest =>
    exact ⟨c, _, by rw [itemChars, hchars, List.cons_append]; simp, hspace, hne⟩

theorem fieldChars_cons {fields : List (Option String × Value)} (hsome : fields ≠ []) :
    ∃ cs, fieldChars fields = '"' :: cs := by
  obtain ⟨⟨key, v⟩, rest, rfl⟩ := List.exists_cons_of_ne_nil hsome
  cases rest with
  | nil => exact ⟨_, by rw [fieldChars, quoted, List.cons_append, List.cons_append]⟩
  | cons w rest =>
    exact ⟨_, by rw [fieldChars, quoted, List.cons_append, List.cons_append, List.cons_append]; simp⟩

end Value

/-! ## One value -/

section Values

variable {v : Value} {items : List Value} {fields : List (Option String × Value)} {rest : List Char}
  {steps : Nat}

theorem skipSpace_cons {c : Char} (h : isSpace c = false) (rest : List Char) :
    skipSpace (c :: rest) = c :: rest := by
  simp [skipSpace, h]

theorem quoted_append (text : String) (rest : List Char) :
    quoted text ++ rest = '"' :: (text.toList.flatMap escapeChar ++ '"' :: rest) := by
  rw [quoted, List.cons_append, List.cons_append, List.append_assoc, List.singleton_append]

theorem follows_cons {c : Char} (h : c = ',' ∨ c = ']' ∨ c = '\x7d') (rest : List Char) :
    Follows (c :: rest) := by
  intro d hd
  cases hd
  exact h

/-- A reader of values, items and fields has read all back, given two steps for each character. -/
structure ReadsBack (steps : Nat) : Prop where
  value : ∀ {v : Value} {rest : List Char}, v.isPlain = true → 2 * v.chars.length ≤ steps →
    Follows rest → readValue steps (v.chars ++ rest) = (v, some rest)
  items : ∀ {items : List Value} {rest : List Char}, items ≠ [] → Value.itemsPlain items = true →
    2 * (Value.itemChars items).length + 1 ≤ steps →
    readItems steps (Value.itemChars items ++ ']' :: rest) = (items, some rest)
  fields : ∀ {fields : List (Option String × Value)} {rest : List Char}, fields ≠ [] →
    Value.fieldsPlain fields = true → 2 * (Value.fieldChars fields).length + 1 ≤ steps →
    readFields steps (Value.fieldChars fields ++ '\x7d' :: rest) = (fields, some rest)

theorem readWordValue_append (word : String) (value : Value) (rest : List Char) :
    readWordValue word value (word.toList ++ rest) = (value, some rest) := by
  unfold readWordValue
  rw [← String.length_toList, List.take_left, List.drop_left, if_pos rfl]

theorem readValue_digit {c : Char} (hc : c.isDigit = true) (cs : List Char) :
    readValue (steps + 1) (c :: cs) = numberValue (readUnsigned false (c :: cs)) := by
  have hne : ∀ {d : Char} {rest : List Char}, c :: cs = d :: rest → d.isDigit = false → False := by
    intro d rest hcons hd
    rw [← (List.cons.inj hcons).1, hc] at hd
    cases hd
  rw [readValue, skipSpace_cons (isSpace_of_isDigit hc)]
  split
  · next hnil => cases hnil
  · next hcons => exact (hne hcons rfl).elim
  · next hcons => exact (hne hcons rfl).elim
  · next hcons => exact (hne hcons rfl).elim
  · next hcons => exact (hne hcons rfl).elim
  · next hcons => exact (hne hcons rfl).elim
  · next hcons => exact (hne hcons rfl).elim
  · next hcons => exact (hne hcons rfl).elim
  · next hcons =>
    cases hcons
    rw [if_pos hc]

theorem readValue_items {c : Char} (hspace : isSpace c = false) (hne : c ≠ ']') (cs : List Char) :
    readValue (steps + 1) ('[' :: c :: cs) = (.array (readItems steps (c :: cs)).1
      (readItems steps (c :: cs)).2.isSome, (readItems steps (c :: cs)).2) := by
  rw [readValue, skipSpace_cons (by decide)]
  simp only [skipSpace_cons hspace]
  split
  · next hcons => exact absurd (List.cons.inj hcons).1 hne
  · rfl

theorem readValue_fields (cs : List Char) :
    readValue (steps + 1) ('\x7b' :: '"' :: cs) = (.object (readFields steps ('"' :: cs)).1
      (readFields steps ('"' :: cs)).2.isSome, (readFields steps ('"' :: cs)).2) := by
  rw [readValue, skipSpace_cons (by decide)]
  rfl

/-- A value is read back, if the parts of arrays and objects are. -/
theorem readValue_chars (ih : ReadsBack steps) (hplain : v.isPlain = true)
    (hsteps : 2 * v.chars.length ≤ steps + 1) (hrest : Follows rest) :
    readValue (steps + 1) (v.chars ++ rest) = (v, some rest) := by
  cases v with
  | null => exact readWordValue_append "ull" .null rest
  | bool b =>
    cases b with
    | true => exact readWordValue_append "rue" (.bool true) rest
    | false => exact readWordValue_append "alse" (.bool false) rest
  | number n =>
    cases n with
    | natural n =>
      have hn : n < wordLimit := by simpa [Value.isPlain] using hplain
      have hread := readUnsigned_toDigits hn hrest
      obtain ⟨c, cs, hcons⟩ := List.exists_cons_of_ne_nil (Nat.toDigits_ne_nil (n := n) (b := 10))
      have hdigit : c.isDigit = true := isDigit_toDigits (n := n) c (by rw [hcons]; simp)
      rw [Value.chars, Number.chars, hcons, List.cons_append, readValue_digit hdigit,
        ← List.cons_append, ← hcons, hread]
      rfl
    | negative n => cases hplain
    | real x => cases hplain
    | tooLarge => cases hplain
  | string text =>
    cases text with
    | none => cases hplain
    | some text =>
      rw [Value.chars, Option.getD_some] at hsteps ⊢
      have hlength := length_le_escaped text.toList
      have hread : readText (steps + 1) (text.toList.flatMap escapeChar ++ '"' :: rest) =
          (some text, some rest) := by
        apply readText_quoted text rest
        simp only [quoted, List.length_append, List.length_cons] at hsteps
        omega
      rw [quoted_append, readValue, skipSpace_cons (by decide)]
      simp only [hread]
  | array items closed =>
    have hclosed : closed = true ∧ Value.itemsPlain items = true := by
      rwa [Value.isPlain, Bool.and_eq_true] at hplain
    obtain ⟨rfl, hitems⟩ := hclosed
    by_cases hnone : items = []
    · rw [hnone]
      rfl
    · rw [Value.chars] at hsteps ⊢
      obtain ⟨c, cs, hchars, hspace, hne⟩ := Value.itemChars_cons hnone hitems
      have hread : readItems steps (Value.itemChars items ++ ']' :: rest) = (items, some rest) := by
        apply ih.items hnone hitems
        simp only [List.length_append, List.length_cons] at hsteps
        omega
      rw [hchars, List.cons_append] at hread
      rw [List.cons_append, List.cons_append, List.append_assoc, List.singleton_append, hchars,
        List.cons_append, readValue_items hspace hne, hread]
      rfl
  | object fields closed =>
    have hclosed : closed = true ∧ Value.fieldsPlain fields = true := by
      rwa [Value.isPlain, Bool.and_eq_true] at hplain
    obtain ⟨rfl, hfields⟩ := hclosed
    by_cases hnone : fields = []
    · rw [hnone]
      rfl
    · rw [Value.chars] at hsteps ⊢
      obtain ⟨cs, hchars⟩ := Value.fieldChars_cons hnone
      have hread : readFields steps (Value.fieldChars fields ++ '\x7d' :: rest) =
          (fields, some rest) := by
        apply ih.fields hnone hfields
        simp only [List.length_append, List.length_cons] at hsteps
        omega
      rw [hchars, List.cons_append] at hread
      rw [List.cons_append, List.cons_append, List.append_assoc, List.singleton_append, hchars,
        List.cons_append, readValue_fields, hread]
      rfl
  | malformed => cases hplain

/-- Items are read back one after another. -/
theorem readItems_chars (ih : ReadsBack steps) (hsome : items ≠ [])
    (hplain : Value.itemsPlain items = true)
    (hsteps : 2 * (Value.itemChars items).length + 1 ≤ steps + 1) :
    readItems (steps + 1) (Value.itemChars items ++ ']' :: rest) = (items, some rest) := by
  obtain ⟨v, more, rfl⟩ := List.exists_cons_of_ne_nil hsome
  rw [Value.itemsPlain, Bool.and_eq_true] at hplain
  obtain ⟨hv, hmore⟩ := hplain
  rw [readItems]
  cases more with
  | nil =>
    rw [Value.itemChars] at hsteps ⊢
    rw [ih.value hv (by omega) (follows_cons (.inr (.inl rfl)) rest)]
    rfl
  | cons w more =>
    rw [Value.itemChars_cons_cons] at hsteps ⊢
    rw [List.length_append, List.length_cons] at hsteps
    have hread : readItems steps (Value.itemChars (w :: more) ++ ']' :: rest) =
        (w :: more, some rest) :=
      ih.items (List.cons_ne_nil w more) hmore (by omega)
    rw [List.append_assoc, List.cons_append, ih.value hv (by omega) (follows_cons (.inl rfl) _)]
    dsimp only
    rw [skipSpace_cons (by decide)]
    simp only [hread]

section Field

variable {name : String} {tail : List Char}

/-- A field is the last one before a closing brace. -/
theorem readFields_last (hname : name.toList.length < steps + 1)
    (hread : readValue steps (v.chars ++ '\x7d' :: tail) = (v, some ('\x7d' :: tail))) :
    readFields (steps + 1) (quoted name ++ ':' :: (v.chars ++ '\x7d' :: tail)) =
      ([(some name, v)], some tail) := by
  rw [quoted_append, readFields, skipSpace_cons (by decide)]
  simp only [readText_quoted name _ hname, skipSpace_cons (by decide : isSpace ':' = false), hread,
    skipSpace_cons (by decide : isSpace '\x7d' = false)]

/-- There are more fields after a comma. -/
theorem readFields_next (hname : name.toList.length < steps + 1)
    (hread : readValue steps (v.chars ++ ',' :: tail) = (v, some (',' :: tail))) :
    readFields (steps + 1) (quoted name ++ ':' :: (v.chars ++ ',' :: tail)) =
      ((some name, v) :: (readFields steps tail).1, (readFields steps tail).2) := by
  rw [quoted_append, readFields, skipSpace_cons (by decide)]
  simp only [readText_quoted name _ hname, skipSpace_cons (by decide : isSpace ':' = false), hread,
    skipSpace_cons (by decide : isSpace ',' = false)]

end Field

/-- Fields are read back one after another. -/
theorem readFields_chars (ih : ReadsBack steps) (hsome : fields ≠ [])
    (hplain : Value.fieldsPlain fields = true)
    (hsteps : 2 * (Value.fieldChars fields).length + 1 ≤ steps + 1) :
    readFields (steps + 1) (Value.fieldChars fields ++ '\x7d' :: rest) = (fields, some rest) := by
  obtain ⟨⟨key, v⟩, more, rfl⟩ := List.exists_cons_of_ne_nil hsome
  rw [Value.fieldsPlain, Bool.and_eq_true, Bool.and_eq_true] at hplain
  obtain ⟨⟨hkey, hv⟩, hmore⟩ := hplain
  obtain ⟨name, rfl⟩ := Option.isSome_iff_exists.mp hkey
  have hescaped := length_le_escaped name.toList
  cases more with
  | nil =>
    rw [Value.fieldChars_singleton, Option.getD_some] at hsteps ⊢
    simp only [quoted, List.length_append, List.length_cons] at hsteps
    have hread := ih.value hv (by omega) (follows_cons (.inr (.inr rfl)) rest)
    rw [List.append_assoc, List.cons_append]
    exact readFields_last (by omega) hread
  | cons w more =>
    rw [Value.fieldChars_cons_cons, Option.getD_some] at hsteps ⊢
    simp only [quoted, List.length_append, List.length_cons] at hsteps
    have hread := ih.value hv (by omega) (follows_cons (.inl rfl)
      (Value.fieldChars (w :: more) ++ '\x7d' :: rest))
    rw [List.append_assoc, List.append_assoc, List.cons_append, List.cons_append,
      readFields_next (by omega) hread, ih.fields (List.cons_ne_nil w more) hmore (by omega)]

theorem readsBack (steps : Nat) : ReadsBack steps := by
  induction steps with
  | zero =>
    refine ⟨fun hplain hsteps _ => ?_, fun _ _ hsteps => by omega, fun _ _ hsteps => by omega⟩
    obtain ⟨c, cs, hchars, -⟩ := Value.chars_cons hplain
    rw [hchars, List.length_cons] at hsteps
    omega
  | succ steps ih => exact ⟨readValue_chars ih, readItems_chars ih, readFields_chars ih⟩

/-- The document of a plain value is read as that value, to the end. -/
theorem readDocument_chars (h : v.isPlain = true) : readDocument v.chars = (v, true) := by
  have hnil : Follows [] := by
    intro c hc
    cases hc
  have hread := (readsBack (2 * v.chars.length + 2)).value h (by omega) hnil
  rw [List.append_nil] at hread
  unfold readDocument
  rw [hread]
  rfl

end Values
end LightCone.Json
