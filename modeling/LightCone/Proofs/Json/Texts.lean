import LightCone.Json.Printer
import LightCone.Json.Reader

/-!
Numbers and texts of documents are read as they were written.

This file

1. reads back decimal digits: their value, where they end, and that no zero leads them;
2. reads back a whole number of 64 bits, up to a mark that may follow it (`readUnsigned_toDigits`);
3. reads back a quoted text, one character or escape at a time (`readQuoted_escapeChar`).
-/
namespace LightCone

-- A power of naturals is the one of the core library, whatever else is in scope.
attribute [local instance (high)] instPowNat

/-! ## Decimal digits -/

section Digits

variable {n : Nat} {c : Char} {digits rest : List Char}

theorem digitsValue_eq (digits : List Char) : digitsValue digits = Nat.ofDigitChars 10 digits 0 :=
  Nat.ofDigitChars_eq_foldl.symm

theorem isDigit_toDigits : ∀ c ∈ Nat.toDigits 10 n, c.isDigit = true :=
  fun _ hc => Nat.isDigit_of_mem_toDigits (by decide) (by decide) hc

/-- What follows a number does not go on with it. -/
def NoDigit (rest : List Char) : Prop := ∀ c, rest.head? = some c → c.isDigit = false

theorem spanDigits_append (hdigits : ∀ c ∈ digits, c.isDigit = true) (hrest : NoDigit rest) :
    spanDigits (digits ++ rest) = (digits, rest) := by
  have hnone : rest.takeWhile Char.isDigit = [] ∧ rest.dropWhile Char.isDigit = rest := by
    cases rest with
    | nil => exact ⟨rfl, rfl⟩
    | cons c rest => simp [hrest c rfl]
  unfold spanDigits
  rw [List.takeWhile_append_of_pos hdigits, List.dropWhile_append_of_pos hdigits, hnone.1, hnone.2,
    List.append_nil]

/-- No zero leads the digits of a number. -/
theorem head_toDigits_ne (hn : 0 < n) : (Nat.toDigits 10 n).head? ≠ some '0' := by
  induction n using Nat.strongRecOn with
  | ind n ih =>
    rw [Nat.toDigits_eq_if (by decide)]
    split
    · next hlt =>
      have hsmall : ∀ d < 10, 0 < d → [Nat.digitChar d].head? ≠ some '0' := by decide
      exact hsmall n hlt hn
    · next hlt =>
      have hinit := ih (n / 10) (by omega) (by omega)
      obtain ⟨c, cs, hcons⟩ := List.exists_cons_of_ne_nil (Nat.toDigits_ne_nil (n := n / 10) (b := 10))
      rw [hcons] at hinit ⊢
      exact hinit

end Digits

namespace Json

/-! ## Numbers -/

section Numbers

variable {n value taken : Nat} {digits rest : List Char}

/-- All digits are taken if the whole number fits. -/
theorem takeDigits_eq (digits : List Char) (value taken : Nat)
    (h : Nat.ofDigitChars 10 digits value < wordLimit) :
    takeDigits value taken digits = ⟨Nat.ofDigitChars 10 digits value, taken + digits.length, 0⟩ := by
  induction digits generalizing value taken with
  | nil => rfl
  | cons c digits ih =>
    rw [Nat.ofDigitChars_cons] at h ⊢
    have hprefix : 10 * value + (c.toNat - '0'.toNat) ≤
        Nat.ofDigitChars 10 digits (10 * value + (c.toNat - '0'.toNat)) := by
      rw [Nat.ofDigitChars_eq_ofDigitChars_zero]
      exact Nat.le_add_right_of_le (Nat.le_mul_of_pos_left _ (Nat.pow_pos (by decide)))
    have hfits : 10 * value + (c.toNat - 48) < wordLimit := Nat.lt_of_le_of_lt hprefix h
    unfold takeDigits
    rw [if_pos hfits, List.length_cons, Nat.add_comm digits.length, ← Nat.add_assoc]
    exact ih _ _ h

/-- What may follow a value in a document: the end, or a mark that closes or separates. -/
def Follows (rest : List Char) : Prop := ∀ c, rest.head? = some c → c = ',' ∨ c = ']' ∨ c = '\x7d'

theorem Follows.noDigit (h : Follows rest) : NoDigit rest := by
  intro c hc
  rcases h c hc with rfl | rfl | rfl <;> decide

/-- A word is read as it was written. -/
theorem readUnsigned_toDigits (hn : n < wordLimit) (hrest : Follows rest) :
    readUnsigned false (Nat.toDigits 10 n ++ rest) = (.natural n, some rest) := by
  have htaken : takeDigits 0 0 (Nat.toDigits 10 n) = ⟨n, (Nat.toDigits 10 n).length, 0⟩ := by
    have h := takeDigits_eq (Nat.toDigits 10 n) 0 0
    rw [Nat.ofDigitChars_ten_toDigits, Nat.zero_add] at h
    exact h hn
  unfold readUnsigned
  rw [spanDigits_append isDigit_toDigits hrest.noDigit]
  dsimp only
  split
  · next hnil => exact absurd hnil Nat.toDigits_ne_nil
  · next hzero =>
    have hpos : 0 < n := by
      refine Nat.pos_of_ne_zero fun hnone => ?_
      rw [hnone] at hzero
      simp at hzero
    exact absurd (by rw [hzero]; rfl) (head_toDigits_ne hpos)
  · rw [htaken]
    split
    · next hdot => exact absurd (hrest '.' rfl) (by decide)
    · next hlower => exact absurd (hrest 'e' rfl) (by decide)
    · next hupper => exact absurd (hrest 'E' rfl) (by decide)
    · rfl

end Numbers

/-! ## Texts -/

section Quotes

variable {c : Char} {text rest : List Char} {steps : Nat}

theorem hexDigit_digitChar : ∀ d < 16, hexDigit (Nat.digitChar d) = some d := by decide

/-- An escape for a control character is read as that character. -/
theorem readEscape_control (h : c.toNat < 32) (rest : List Char) :
    readEscape ('u' :: '0' :: '0' :: Nat.digitChar (c.toNat / 16) :: Nat.digitChar (c.toNat % 16) ::
      rest) = some (.char c, rest) := by
  have hvalue : ((0 * 16 + 0) * 16 + c.toNat / 16) * 16 + c.toNat % 16 = c.toNat := by omega
  have hzero : hexDigit '0' = some 0 := by decide
  simp only [readEscape, readHex, hzero, hexDigit_digitChar _ (by omega : c.toNat / 16 < 16),
    hexDigit_digitChar _ (by omega : c.toNat % 16 < 16), Option.bind_eq_bind, Option.bind_some, hvalue]
  rw [if_neg (by omega), if_neg (by omega), Char.ofNat_toNat]

/-- An escape, or a character that needs none, is read as the character that it was written for. -/
theorem readQuoted_escapeChar (c : Char) (rest : List Char) (steps : Nat) :
    readQuoted (steps + 1) none (escapeChar c ++ rest) =
      (addChar c (readQuoted steps none rest).1, (readQuoted steps none rest).2) := by
  unfold escapeChar
  split
  · next h => subst h; rfl
  split
  · next h => subst h; rfl
  split
  · next h => subst h; rfl
  split
  · next h => subst h; rfl
  split
  · next h => subst h; rfl
  split
  · next h => subst h; rfl
  split
  · next h => subst h; rfl
  split
  · next hcontrol =>
    rw [List.cons_append, readQuoted]
    simp only [List.cons_append, List.nil_append, readEscape_control hcontrol]
    rfl
  · next hquote hbackslash _ _ _ _ _ hplain =>
    rw [List.singleton_append, readQuoted]
    · rw [if_neg hplain]
      rfl
    · exact hquote
    · exact hbackslash

theorem readQuoted_chars (text rest : List Char) (h : text.length < steps) :
    readQuoted steps none (text.flatMap escapeChar ++ '"' :: rest) = (some text, some rest) := by
  induction text generalizing steps with
  | nil =>
    obtain ⟨steps, rfl⟩ := Nat.exists_eq_add_of_lt h
    rfl
  | cons c text ih =>
    obtain ⟨steps, rfl⟩ : ∃ k, steps = k + 1 := ⟨steps - 1, by omega⟩
    rw [List.flatMap_cons, List.append_assoc, readQuoted_escapeChar, ih (by simpa using h)]
    rfl

/-- A text between its quotes is read as it was written. -/
theorem readText_quoted (text : String) (rest : List Char) (h : text.toList.length < steps) :
    readText steps (text.toList.flatMap escapeChar ++ '"' :: rest) = (some text, some rest) := by
  unfold readText
  rw [readQuoted_chars _ _ h]
  simp

theorem length_le_escaped (text : List Char) : text.length ≤ (text.flatMap escapeChar).length := by
  have hpos : ∀ c, 0 < (escapeChar c).length := by
    intro c
    unfold escapeChar
    repeat' split
    all_goals simp
  induction text with
  | nil => exact Nat.le_refl 0
  | cons c text ih =>
    rw [List.flatMap_cons, List.length_append, List.length_cons]
    have := hpos c
    omega

end Quotes
end Json
end LightCone
