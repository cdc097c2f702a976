import LightCone.Binary64.Reading
import LightCone.Proofs.Json.Texts
import LightCone.Proofs.Overflow
import LightCone.Text.Blank

/-!
Which texts are numbers.

Texts of numbers are trimmed and then read from the left. What is read is said here without the way
of reading it, as the forms that a number may be written in. This file

1. takes the blanks around a text off (`trimBlanks_append`), so that what is read from trimmed texts is
   what is read from texts without blanks, with blanks around (`read_trimBlanks_iff`);
2. lists the forms of whole numbers that fit 64 bits (`WritesDigits`), and shows that just these are
   read (`readWord_eq_some_iff`); the decimal digits of a number are one (`writesDigits_toDigits`);
3. lists the forms of binary64 numbers (`Binary64.Writes`), and shows the same of them
   (`Binary64.read_eq_some_iff`). Digits stand for the number nearest to their exact value:
   powers of ten that are not computed would not have changed it (`Binary64.ofDecimalText_eq`).
-/
namespace LightCone

-- A power of naturals is the one of the core library, whatever else is in scope.
attribute [local instance (high)] instPowNat

/-! ## Blanks around a text -/

section Blanks

variable {before after text : List Char}

/-- A text without blanks is left when the blanks around it are dropped. -/
theorem trimBlanks_append (hbefore : ∀ c ∈ before, isBlank c = true)
    (hafter : ∀ c ∈ after, isBlank c = true) (htext : ∀ c ∈ text, isBlank c = false)
    (hsome : text ≠ []) : trimBlanks (before ++ text ++ after) = text := by
  have hstop (cs rest : List Char) (hcs : cs ≠ []) (hblank : ∀ c ∈ cs, isBlank c = false) :
      (cs ++ rest).dropWhile isBlank = cs ++ rest := by
    obtain ⟨c, cs, rfl⟩ := List.exists_cons_of_ne_nil hcs
    rw [List.cons_append, List.dropWhile_cons_of_neg (by simp [hblank c List.mem_cons_self])]
  have hreversed : ∀ c ∈ after.reverse, isBlank c = true := fun c hc => hafter c (List.mem_reverse.mp hc)
  have hback := hstop text.reverse [] (by simpa using hsome) (by simpa using htext)
  rw [List.append_nil] at hback
  unfold trimBlanks
  rw [List.append_assoc, List.dropWhile_append_of_pos hbefore, hstop text after hsome htext,
    List.reverse_append, List.dropWhile_append_of_pos hreversed, hback, List.reverse_reverse]

/-- Every text is what is left of it, with blanks around. -/
theorem exists_blanks (cs : List Char) : ∃ before after, cs = before ++ trimBlanks cs ++ after ∧
    (∀ c ∈ before, isBlank c = true) ∧ ∀ c ∈ after, isBlank c = true := by
  have hfirst := List.takeWhile_append_dropWhile (p := isBlank) (l := cs)
  have hlast := List.takeWhile_append_dropWhile (p := isBlank) (l := (cs.dropWhile isBlank).reverse)
  refine ⟨cs.takeWhile isBlank, ((cs.dropWhile isBlank).reverse.takeWhile isBlank).reverse, ?_, ?_, ?_⟩
  · rw [trimBlanks, List.append_assoc, ← List.reverse_append, hlast, List.reverse_reverse, hfirst]
  · exact List.all_eq_true.mp List.all_takeWhile
  · exact fun c hc => List.all_eq_true.mp List.all_takeWhile c (List.mem_reverse.mp hc)

/-- A text writes something of a kind, with blanks around it. -/
def AmongBlanks {α : Type} (writes : List Char → α → Prop) (cs : List Char) (x : α) : Prop :=
  ∃ before text after, cs = before ++ text ++ after ∧ (∀ c ∈ before, isBlank c = true) ∧
    (∀ c ∈ after, isBlank c = true) ∧ writes text x

/-- What is read from texts without blanks is read from trimmed texts with blanks around. -/
theorem read_trimBlanks_iff {α : Type} {read : List Char → Option α} {writes : List Char → α → Prop}
    {cs : List Char} {x : α} (hread : ∀ {cs x}, read cs = some x ↔ writes cs x)
    (hwrites : ∀ {cs x}, writes cs x → cs ≠ [] ∧ ∀ c ∈ cs, isBlank c = false) :
    read (trimBlanks cs) = some x ↔ AmongBlanks writes cs x := by
  rw [hread]
  refine ⟨?_, ?_⟩
  · intro htrimmed
    obtain ⟨before, after, hcs, hbefore, hafter⟩ := exists_blanks cs
    exact ⟨before, _, after, hcs, hbefore, hafter, htrimmed⟩
  · rintro ⟨before, text, after, rfl, hbefore, hafter, htext⟩
    obtain ⟨hsome, hblank⟩ := hwrites htext
    rwa [trimBlanks_append hbefore hafter hblank hsome]

end Blanks

/-! ## Whole numbers -/

/-- A text writes a whole number of 64 bits: in decimal digits, after a plus sign or none. -/
inductive WritesDigits : List Char → Nat → Prop where
  | mk (sign digits : List Char) (hsign : sign = [] ∨ sign = ['+']) (hsome : digits ≠ [])
      (hdigits : ∀ c ∈ digits, c.isDigit = true) (hword : Nat.ofDigitChars 10 digits 0 < wordLimit) :
      WritesDigits (sign ++ digits) (Nat.ofDigitChars 10 digits 0)

section Words

variable {cs : List Char} {n : Nat}

/-- Digits do not begin with a sign. -/
theorem head_ne_of_digits {digits : List Char} {c : Char} (hdigits : ∀ c ∈ digits, c.isDigit = true)
    (hc : c.isDigit = false) : digits.head? ≠ some c := by
  intro hhead
  exact Bool.noConfusion (hc.symm.trans (hdigits c (List.mem_of_head? hhead)))

/-- What is left of a text when a plus sign is dropped, with the sign. -/
theorem exists_sign (cs : List Char) : ∃ sign, (sign = [] ∨ sign = ['+']) ∧
    cs = sign ++ (if cs.head? = some '+' then cs.tail else cs) := by
  cases cs with
  | nil => exact ⟨[], .inl rfl, rfl⟩
  | cons c rest =>
    by_cases hplus : c = '+'
    · subst hplus
      exact ⟨['+'], .inr rfl, rfl⟩
    · exact ⟨[], .inl rfl, by simp [hplus]⟩

theorem readWord_eq_some_iff : readWord cs = some n ↔ WritesDigits cs n := by
  refine ⟨?_, ?_⟩
  · intro hread
    obtain ⟨sign, hsign, hcs⟩ := exists_sign cs
    unfold readWord at hread
    generalize (if cs.head? = some '+' then cs.tail else cs) = digits at hread hcs
    simp only [Bool.or_eq_true, List.isEmpty_iff, Bool.not_eq_true', List.all_eq_false,
      digitsValue_eq] at hread
    split at hread
    · cases hread
    · next hgood =>
      obtain ⟨hsome, hdigits⟩ := not_or.mp hgood
      split at hread
      · next hword =>
        cases hread
        rw [hcs]
        exact .mk _ _ hsign hsome (fun c hc => by_contra fun hnot => hdigits ⟨c, hc, hnot⟩) hword
      · cases hread
  · rintro ⟨sign, digits, hsign, hsome, hdigits, hword⟩
    have hrest : (if (sign ++ digits).head? = some '+' then (sign ++ digits).tail
        else sign ++ digits) = digits := by
      rcases hsign with rfl | rfl
      · rw [List.nil_append, if_neg (head_ne_of_digits hdigits (by decide))]
      · rfl
    have hall : digits.all Char.isDigit = true := List.all_eq_true.mpr hdigits
    have hempty : digits.isEmpty = false := by simpa using hsome
    rw [readWord, hrest]
    simp only [hempty, hall, digitsValue_eq, hword, Bool.not_true, Bool.or_self, Bool.false_eq_true,
      if_false, if_true]

theorem WritesDigits.lt_wordLimit (h : WritesDigits cs n) : n < wordLimit := by
  obtain ⟨sign, digits, _, _, _, hword⟩ := h
  exact hword

/-- A whole number is written without blanks. -/
theorem WritesDigits.no_blank (h : WritesDigits cs n) : cs ≠ [] ∧ ∀ c ∈ cs, isBlank c = false := by
  obtain ⟨sign, digits, hsign, hsome, hdigits, _⟩ := h
  refine ⟨List.append_ne_nil_of_right_ne_nil _ hsome, List.forall_mem_append.mpr ⟨?_, ?_⟩⟩
  · rcases hsign with rfl | rfl
    · exact fun c hc => absurd hc List.not_mem_nil
    · exact List.forall_mem_singleton.mpr (by decide)
  · exact fun c hc => isBlank_of_isDigit (hdigits c hc)

theorem readWord_trimBlanks_iff : readWord (trimBlanks cs) = some n ↔ AmongBlanks WritesDigits cs n :=
  read_trimBlanks_iff readWord_eq_some_iff WritesDigits.no_blank

/-- A whole number is written by its decimal digits. -/
theorem writesDigits_toDigits {sign : List Char} (hsign : sign = [] ∨ sign = ['+'])
    (hn : n < wordLimit) : WritesDigits (sign ++ Nat.toDigits 10 n) n := by
  have hvalue : Nat.ofDigitChars 10 (Nat.toDigits 10 n) 0 = n :=
    Nat.ofDigitChars_toDigits (by decide) (by decide)
  have hdigits : WritesDigits (sign ++ Nat.toDigits 10 n) (Nat.ofDigitChars 10 (Nat.toDigits 10 n) 0) :=
    .mk _ _ hsign Nat.toDigits_ne_nil isDigit_toDigits (hvalue.trans_lt hn)
  rwa [hvalue] at hdigits

end Words

/-! ## Binary64 numbers -/

namespace Binary64

/-- Powers of ten that are not computed lie past both ends of the range of numbers. -/
theorem range_lt_ten_pow {m : Nat} (h : 400 ≤ m) :
    2 * 2 ^ unitBits < 10 ^ m ∧ overflow < 10 ^ m * 2 ^ unitBits := by
  obtain ⟨least, hleast, hten⟩ : ∃ least, (2 * 2 ^ unitBits < least ∧ overflow < least * 2 ^ unitBits) ∧
      least = 10 ^ (400 : Nat) := by
    refine ⟨_, ?_, rfl⟩
    unfold overflow unitBits
    decide +kernel
  have hpower (a : Nat) (ha : a ≤ m) : 10 ^ a ≤ 10 ^ m := Nat.pow_le_pow_right (by decide) ha
  have hmore : least ≤ 10 ^ m := hten ▸ hpower 400 h
  exact ⟨hleast.1.trans_le hmore, hleast.2.trans_le (Nat.mul_le_mul_right _ hmore)⟩

section Digits

variable {negative : Bool} {num den digits : Nat} {exponent : Int}

theorem roundUnits_eq_zero (h : 2 * num < den) : roundUnits num den = 0 := by
  have hfloor : num / den = 0 := Nat.div_eq_of_lt (by omega)
  have hlost : lostBits num den = 0 := by
    unfold lostBits
    rw [hfloor, Nat.log2_zero]
  have hround : roundHalfEven num den = 0 := by
    simp only [roundHalfEven, hfloor, Nat.mod_eq_of_lt (show num < den by omega), if_pos h]
  rw [roundUnits_eq, hlost, Nat.pow_zero, Nat.mul_one, Nat.mul_one, hround]

theorem ofRatio_eq_zero (h : 2 * num < den) : ofRatio negative num den = zero negative := by
  unfold ofRatio zero
  simp only [roundUnits_eq_zero h, fits_zero.1, dif_pos]

theorem ofRatio_eq_infinity (hden : 0 < den) (h : overflow * den ≤ num) :
    ofRatio negative num den = .infinity negative := by
  have hpoint : overflowUnits ≤ overflow := Nat.le.intro overflowUnits_add
  have hmore : ¬ roundUnits num den < overflow := by
    rw [roundUnits_lt_overflow_iff hden, Nat.not_lt]
    exact (Nat.mul_le_mul_right den hpoint).trans h
  exact dif_neg hmore

theorem ofDecimal_zero : ofDecimal negative 0 exponent = zero negative := by
  have hzero (den : Nat) (hden : 0 < den) : ofRatio negative (0 * den) den = zero negative := by
    refine ofRatio_eq_zero ?_
    omega
  cases exponent with
  | ofNat e => simpa [ofDecimal] using hzero 1 Nat.one_pos
  | negSucc e => simpa [ofDecimal] using hzero (10 ^ (e + 1)) (Nat.pow_pos (by decide))

/-- A number lies between the powers of ten that go with the count of its digits. -/
theorem length_repr_bounds (hsome : digits ≠ 0) : ∃ k, (toString digits).length = k + 1 ∧
    10 ^ k ≤ digits ∧ digits < 10 ^ (k + 1) := by
  have hlength : (toString digits).length = (Nat.toDigits 10 digits).length := by
    simp [toString, Nat.repr]
  obtain ⟨k, hk⟩ := Nat.exists_eq_succ_of_ne_zero
    (List.length_pos_iff.mpr (Nat.toDigits_ne_nil (n := digits) (b := 10))).ne'
  refine ⟨k, hlength.trans hk, ?_, ?_⟩
  · rcases Nat.eq_zero_or_pos k with rfl | hpos
    · exact Nat.one_le_iff_ne_zero.mpr hsome
    · by_contra hless
      have hshort := (Nat.length_toDigits_le_iff (b := 10) (by decide) hpos).mpr (Nat.not_le.mp hless)
      omega
  · exact (Nat.length_toDigits_le_iff (by decide) (Nat.succ_pos k)).mp hk.le

/-- A text stands for the number nearest to its exact value, however far its exponent is out. -/
theorem ofDecimalText_eq : ofDecimalText negative digits exponent = ofDecimal negative digits exponent := by
  simp only [ofDecimalText]
  split
  · next hzero => rw [hzero, ofDecimal_zero]
  · next hsome =>
    obtain ⟨k, hlength, hlow, hhigh⟩ := length_repr_bounds hsome
    rw [hlength]
    split
    · next hsmall =>
      obtain ⟨m, hm, rfl⟩ : ∃ m, 400 ≤ m ∧ exponent = .negSucc (k + m) :=
        ⟨(-exponent - k - 1).toNat, by omega, by omega⟩
      refine (ofRatio_eq_zero ?_).symm
      calc 2 * (digits * 2 ^ unitBits) = digits * (2 * 2 ^ unitBits) := Nat.mul_left_comm ..
        _ < 10 ^ (k + 1) * 10 ^ m := Nat.mul_lt_mul'' hhigh (range_lt_ten_pow hm).1
        _ = 10 ^ (k + m + 1) := by rw [← Nat.pow_add, Nat.add_right_comm]
    · split
      · next hlarge =>
        cases exponent with
        | ofNat e =>
          rw [Int.ofNat_eq_natCast] at hlarge
          refine (ofRatio_eq_infinity Nat.one_pos ?_).symm
          calc overflow * 1 = overflow := Nat.mul_one _
            _ ≤ 10 ^ (k + e) * 2 ^ unitBits := (range_lt_ten_pow (by omega)).2.le
            _ ≤ digits * 10 ^ e * 2 ^ unitBits := by
              rw [Nat.pow_add]
              exact Nat.mul_le_mul_right _ (Nat.mul_le_mul_right _ hlow)
        | negSucc e =>
          obtain ⟨m, hm, rfl⟩ : ∃ m, 400 ≤ m ∧ k = m + (e + 1) := ⟨k - (e + 1), by omega, by omega⟩
          refine (ofRatio_eq_infinity (Nat.pow_pos (by decide)) ?_).symm
          calc overflow * 10 ^ (e + 1) ≤ 10 ^ m * 2 ^ unitBits * 10 ^ (e + 1) :=
              Nat.mul_le_mul_right _ (range_lt_ten_pow hm).2.le
            _ = 10 ^ (m + (e + 1)) * 2 ^ unitBits := by rw [Nat.pow_add 10 m, Nat.mul_right_comm]
            _ ≤ digits * 2 ^ unitBits := Nat.mul_le_mul_right _ hlow
      · rfl

end Digits

/-- A sign or none. -/
inductive WritesSign : List Char → Bool → Prop where
  | none : WritesSign [] false
  | plus : WritesSign ['+'] false
  | minus : WritesSign ['-'] true

/-- The power of ten that follows the digits of a number, if it is not zero. -/
inductive WritesExponent : List Char → Int → Prop where
  | none : WritesExponent [] 0
  | mk (mark : Char) (sign digits : List Char) (negative : Bool) (hmark : mark = 'e' ∨ mark = 'E')
      (hsign : WritesSign sign negative) (hsome : digits ≠ [])
      (hdigits : ∀ c ∈ digits, c.isDigit = true) :
      WritesExponent (mark :: (sign ++ digits)) (signed negative (Nat.ofDigitChars 10 digits 0))

/-- A text without a sign writes the number of a sign: as a word in any case of letters, or in decimal
    digits before and after a point, not both absent, with a power of ten that may follow. -/
inductive WritesMagnitude (negative : Bool) : List Char → Binary64 → Prop where
  | infinity (cs : List Char) (hword : String.ofList (cs.map Char.toLower) = "inf" ∨
      String.ofList (cs.map Char.toLower) = "infinity") : WritesMagnitude negative cs (.infinity negative)
  | nan (cs : List Char) (hword : String.ofList (cs.map Char.toLower) = "nan") :
      WritesMagnitude negative cs .nan
  | decimal (whole point fraction power : List Char) (exponent : Int)
      (hwhole : ∀ c ∈ whole, c.isDigit = true) (hpoint : point = ['.'] ∨ point = [] ∧ fraction = [])
      (hfraction : ∀ c ∈ fraction, c.isDigit = true) (hsome : whole ≠ [] ∨ fraction ≠ [])
      (hpower : WritesExponent power exponent) :
      WritesMagnitude negative (whole ++ (point ++ (fraction ++ power)))
        (ofDecimal negative (Nat.ofDigitChars 10 (whole ++ fraction) 0) (exponent - fraction.length))

/-- A text writes a binary64 number, after a sign or none. -/
inductive Writes : List Char → Binary64 → Prop where
  | mk (sign magnitude : List Char) (negative : Bool) (x : Binary64) (hsign : WritesSign sign negative)
      (hmagnitude : WritesMagnitude negative magnitude x) : Writes (sign ++ magnitude) x

section Reading

variable {cs rest sign : List Char} {negative : Bool} {exponent : Int} {x : Binary64}

/-- A text is the sign that is read off it, if any, and what is left. -/
theorem exists_writesSign (cs : List Char) :
    ∃ sign, WritesSign sign (spanSign cs).1 ∧ cs = sign ++ (spanSign cs).2 := by
  unfold spanSign
  split
  · exact ⟨['-'], .minus, rfl⟩
  · exact ⟨['+'], .plus, rfl⟩
  · exact ⟨[], .none, rfl⟩

/-- A text that does not begin with a sign is what is left after one. -/
theorem spanSign_append (h : WritesSign sign negative) (hplus : rest.head? ≠ some '+')
    (hminus : rest.head? ≠ some '-') : spanSign (sign ++ rest) = (negative, rest) := by
  cases h with
  | none =>
    rw [List.nil_append]
    unfold spanSign
    split
    · exact absurd rfl hminus
    · exact absurd rfl hplus
    · rfl
  | plus => rfl
  | minus => rfl

theorem readExponent_eq_some_iff : readExponent cs = some exponent ↔ WritesExponent cs exponent := by
  refine ⟨?_, ?_⟩
  · intro hread
    unfold readExponent at hread
    split at hread
    · cases hread
      exact .none
    · next mark rest =>
      obtain ⟨sign, hsign, hrest⟩ := exists_writesSign rest
      split at hread
      · next hmark =>
        simp only [Bool.or_eq_true, List.isEmpty_iff, Bool.not_eq_true', List.all_eq_false,
          digitsValue_eq] at hread
        split at hread
        · cases hread
        · next hgood =>
          obtain ⟨hsome, hdigits⟩ := not_or.mp hgood
          cases hread
          have hwrites := WritesExponent.mk mark sign (spanSign rest).2 _ hmark hsign hsome
            (fun c hc => by_contra fun hnot => hdigits ⟨c, hc, hnot⟩)
          rw [← hrest] at hwrites
          exact hwrites
      · cases hread
  · rintro (_ | ⟨mark, sign, digits, negative, hmark, hsign, hsome, hdigits⟩)
    · rfl
    · have hspan := spanSign_append hsign (head_ne_of_digits hdigits (c := '+') (by decide))
        (head_ne_of_digits hdigits (c := '-') (by decide))
      have hall : digits.all Char.isDigit = true := List.all_eq_true.mpr hdigits
      have hempty : digits.isEmpty = false := by simpa using hsome
      simp only [readExponent, hmark, if_true, hspan, hempty, hall, digitsValue_eq, signed,
        Bool.not_true, Bool.or_self, Bool.false_eq_true, if_false]

/-- The characters that a number is written with. -/
def NumberMark (c : Char) : Prop :=
  c.isDigit = true ∨ c ∈ ['.', '+', '-'] ∨ c.toLower ∈ ['i', 'n', 'f', 't', 'y', 'a', 'e']

theorem isBlank_of_mark {c : Char} (h : NumberMark c) : isBlank c = false := by
  obtain hdigit | hmark | hletter := h
  · exact isBlank_of_isDigit hdigit
  · have hmarks : ['.', '+', '-'].all (isBlank · = false) = true := by decide
    simpa using List.all_eq_true.mp hmarks c hmark
  · unfold Char.toLower at hletter
    split at hletter
    · next hupper =>
      have hlow : 65 ≤ c.toNat := hupper.1
      have hhigh : c.toNat ≤ 90 := hupper.2
      simp only [isBlank, blankRanges, List.any_cons, List.any_nil, Bool.or_eq_false_iff,
        Bool.and_eq_false_iff, decide_eq_false_iff_not, and_true]
      omega
    · have hletters : ['i', 'n', 'f', 't', 'y', 'a', 'e'].all (isBlank · = false) = true := by decide
      simpa using List.all_eq_true.mp hletters c hletter

theorem WritesSign.mark (h : WritesSign sign negative) : ∀ c ∈ sign, NumberMark c := by
  cases h with
  | none => exact fun c hc => absurd hc List.not_mem_nil
  | plus => exact List.forall_mem_singleton.mpr (.inr (.inl (by decide)))
  | minus => exact List.forall_mem_singleton.mpr (.inr (.inl (by decide)))

theorem WritesExponent.mark (h : WritesExponent cs exponent) : ∀ c ∈ cs, NumberMark c := by
  cases h with
  | none => exact fun c hc => absurd hc List.not_mem_nil
  | mk mark sign digits negative hmark hsign hsome hdigits =>
    refine List.forall_mem_cons.mpr ⟨.inr (.inr ?_), List.forall_mem_append.mpr ⟨hsign.mark, ?_⟩⟩
    · rcases hmark with rfl | rfl <;> decide
    · exact fun c hc => .inl (hdigits c hc)

/-- What follows the digits of a number begins with neither a digit nor a point. -/
theorem WritesExponent.noDigit (h : WritesExponent cs exponent) :
    NoDigit cs ∧ cs.head? ≠ some '.' := by
  cases h with
  | none => exact ⟨fun c hc => absurd hc nofun, nofun⟩
  | mk mark sign digits negative hmark hsign hsome hdigits =>
    rw [NoDigit, List.head?_cons]
    rcases hmark with rfl | rfl
    · exact ⟨fun c hc => by cases hc; decide, by decide⟩
    · exact ⟨fun c hc => by cases hc; decide, by decide⟩

/-- A number in digits begins with a digit or a point. -/
theorem exists_head_decimal {whole point fraction : List Char} (power : List Char)
    (hwhole : ∀ c ∈ whole, c.isDigit = true) (hpoint : point = ['.'] ∨ point = [] ∧ fraction = [])
    (hsome : whole ≠ [] ∨ fraction ≠ []) :
    ∃ c, (whole ++ (point ++ (fraction ++ power))).head? = some c ∧ (c.isDigit = true ∨ c = '.') := by
  cases whole with
  | cons c whole => exact ⟨c, rfl, .inl (hwhole c List.mem_cons_self)⟩
  | nil =>
    obtain rfl | ⟨-, rfl⟩ := hpoint
    · exact ⟨'.', rfl, .inr rfl⟩
    · exact absurd rfl (hsome.resolve_left fun h => h rfl)

/-- A word begins with a letter in either case. -/
theorem exists_head_word {word : String} {d : Char} (hword : String.ofList (cs.map Char.toLower) = word)
    (hd : word.toList.head? = some d) : ∃ c, cs.head? = some c ∧ c.toLower = d := by
  rw [← hword, String.toList_ofList, List.head?_map, Option.map_eq_some_iff] at hd
  exact hd

/-- What begins with a digit or a point is not a word. -/
theorem toLower_ne_of_head {word : String} {c d : Char} (hhead : cs.head? = some c)
    (hc : c.isDigit = true ∨ c = '.') (hd : word.toList.head? = some d)
    (hletter : d.isDigit = false ∧ d ≠ '.') : String.ofList (cs.map Char.toLower) ≠ word := by
  intro hword
  obtain ⟨_, hhead', hlower⟩ := exists_head_word hword hd
  cases hhead.symm.trans hhead'
  have hsame : c.toLower = c := by
    unfold Char.toLower
    rw [dif_neg]
    rintro ⟨hlow, -⟩
    have hupper : 65 ≤ c.toNat := hlow
    obtain hdigit | rfl := hc
    · simp only [Char.isDigit, Bool.and_eq_true, decide_eq_true_eq] at hdigit
      have hlast : c.toNat ≤ 57 := hdigit.2
      omega
    · exact absurd hupper (by decide)
  obtain rfl := hsame.symm.trans hlower
  obtain hdigit | hpoint := hc
  · exact Bool.noConfusion (hletter.1.symm.trans hdigit)
  · exact hletter.2 hpoint

/-- A number without a sign does not begin with one. -/
theorem WritesMagnitude.no_sign (h : WritesMagnitude negative cs x) :
    cs.head? ≠ some '+' ∧ cs.head? ≠ some '-' := by
  have hhead : ∃ c, cs.head? = some c ∧
      ((c.isDigit = true ∨ c = '.') ∨ c.toLower = 'i' ∨ c.toLower = 'n') := by
    cases h with
    | infinity _ hword =>
      obtain hword | hword := hword
      · exact (exists_head_word hword rfl).imp fun c hc => ⟨hc.1, .inr (.inl hc.2)⟩
      · exact (exists_head_word hword rfl).imp fun c hc => ⟨hc.1, .inr (.inl hc.2)⟩
    | nan _ hword => exact (exists_head_word hword rfl).imp fun c hc => ⟨hc.1, .inr (.inr hc.2)⟩
    | decimal whole point fraction power exponent hwhole hpoint hfraction hsome hpower =>
      exact (exists_head_decimal power hwhole hpoint hsome).imp fun c hc => ⟨hc.1, .inl hc.2⟩
  obtain ⟨c, hc, hstart⟩ := hhead
  rw [hc, ne_eq, ne_eq, Option.some.injEq, Option.some.injEq]
  refine ⟨?_, ?_⟩
  · rintro rfl
    exact absurd hstart (by decide)
  · rintro rfl
    exact absurd hstart (by decide)

theorem WritesMagnitude.mark (h : WritesMagnitude negative cs x) : cs ≠ [] ∧ ∀ c ∈ cs, NumberMark c := by
  have hletters (word : String) (hword : String.ofList (cs.map Char.toLower) = word)
      (hsome : word.toList ≠ [])
      (hmarks : word.toList.all (· ∈ ['i', 'n', 'f', 't', 'y', 'a', 'e']) = true) :
      cs ≠ [] ∧ ∀ c ∈ cs, NumberMark c := by
    rw [← hword, String.toList_ofList] at hsome hmarks
    refine ⟨fun hnil => hsome (List.map_eq_nil_iff.mpr hnil), fun c hc => ?_⟩
    have hmark := List.all_eq_true.mp hmarks _ (List.mem_map_of_mem hc)
    exact .inr (.inr (decide_eq_true_eq.mp hmark))
  cases h with
  | infinity _ hword =>
    obtain hword | hword := hword
    · exact hletters _ hword (by decide) (by decide)
    · exact hletters _ hword (by decide) (by decide)
  | nan _ hword => exact hletters _ hword (by decide) (by decide)
  | decimal whole point fraction power exponent hwhole hpoint hfraction hsome hpower =>
    obtain ⟨c, hhead, -⟩ := exists_head_decimal power hwhole hpoint hsome
    refine ⟨List.ne_nil_of_mem (List.mem_of_head? hhead), ?_⟩
    simp only [List.forall_mem_append]
    refine ⟨fun c hc => .inl (hwhole c hc), ?_, fun c hc => .inl (hfraction c hc), hpower.mark⟩
    rcases hpoint with rfl | ⟨rfl, -⟩
    · exact List.forall_mem_singleton.mpr (.inr (.inl (by decide)))
    · exact fun c hc => absurd hc List.not_mem_nil

theorem exists_spanDigits (cs : List Char) : ∃ digits rest, spanDigits cs = (digits, rest) ∧
    cs = digits ++ rest ∧ ∀ c ∈ digits, c.isDigit = true :=
  ⟨_, _, rfl, List.takeWhile_append_dropWhile.symm, List.all_eq_true.mp List.all_takeWhile⟩

/-- Digits, some of them before the point or after it, stand for a number with a power of ten. -/
theorem scaled_eq_some_iff {whole fraction power : List Char} :
    (if (whole.isEmpty && fraction.isEmpty) = true then none
      else (readExponent power).map fun exponent =>
        ofDecimalText negative (digitsValue (whole ++ fraction)) (exponent - fraction.length)) = some x ↔
    (whole ≠ [] ∨ fraction ≠ []) ∧ ∃ exponent, WritesExponent power exponent ∧
      ofDecimal negative (Nat.ofDigitChars 10 (whole ++ fraction) 0) (exponent - fraction.length) = x := by
  simp only [Option.ite_none_left_eq_some, Bool.and_eq_true, List.isEmpty_iff, not_and_or, ne_eq,
    Option.map_eq_some_iff, readExponent_eq_some_iff, digitsValue_eq, ofDecimalText_eq]

theorem readMagnitude_eq_some_iff :
    readMagnitude negative cs = some x ↔ WritesMagnitude negative cs x := by
  refine ⟨?_, ?_⟩
  · intro hread
    simp only [readMagnitude] at hread
    split at hread
    · next hword =>
      cases hread
      exact .infinity cs hword
    split at hread
    · next hword =>
      cases hread
      exact .nan cs hword
    obtain ⟨whole, rest, hspan, rfl, hwhole⟩ := exists_spanDigits cs
    rw [hspan] at hread
    split at hread
    · next after hafter =>
      obtain rfl : rest = '.' :: after := hafter
      obtain ⟨fraction, power, hspan', rfl, hfraction⟩ := exists_spanDigits after
      rw [hspan'] at hread
      obtain ⟨hsome, exponent, hpower, rfl⟩ := scaled_eq_some_iff.mp hread
      exact .decimal whole ['.'] fraction power exponent hwhole (.inl rfl) hfraction hsome hpower
    · obtain ⟨hsome, exponent, hpower, rfl⟩ := scaled_eq_some_iff.mp hread
      exact .decimal whole [] [] rest exponent hwhole (.inr ⟨rfl, rfl⟩) (by simp) hsome hpower
  · rintro (⟨_, hword⟩ | ⟨_, hword⟩ | ⟨whole, point, fraction, power, exponent, hwhole, hpoint,
      hfraction, hsome, hpower⟩)
    · simp only [readMagnitude, if_pos hword]
    · simp only [readMagnitude, hword]
      rfl
    · obtain ⟨c, hhead, hc⟩ := exists_head_decimal power hwhole hpoint hsome
      have hword (word : String) (d : Char) (hd : word.toList.head? = some d)
          (hletter : d.isDigit = false ∧ d ≠ '.') := toLower_ne_of_head hhead hc hd hletter
      simp only [readMagnitude, hword "inf" 'i' rfl (by decide), hword "infinity" 'i' rfl (by decide),
        hword "nan" 'n' rfl (by decide), or_self, if_false]
      obtain rfl | ⟨rfl, rfl⟩ := hpoint
      · have hpoint : NoDigit (['.'] ++ (fraction ++ power)) := fun c hc => by
          cases hc
          decide
        rw [spanDigits_append hwhole hpoint]
        simp only [List.singleton_append, spanDigits_append hfraction hpower.noDigit.1]
        exact scaled_eq_some_iff.mpr ⟨hsome, exponent, hpower, rfl⟩
      · rw [List.nil_append, List.nil_append, spanDigits_append hwhole hpower.noDigit.1]
        split
        · next after hafter =>
          obtain rfl : power = '.' :: after := hafter
          exact absurd rfl hpower.noDigit.2
        · exact scaled_eq_some_iff.mpr ⟨hsome, exponent, hpower, rfl⟩

theorem read_eq_some_iff : read cs = some x ↔ Writes cs x := by
  refine ⟨?_, ?_⟩
  · intro hread
    obtain ⟨sign, hsign, hcs⟩ := exists_writesSign cs
    rw [hcs]
    exact .mk sign _ _ x hsign (readMagnitude_eq_some_iff.mp hread)
  · rintro ⟨sign, magnitude, negative, _, hsign, hmagnitude⟩
    obtain ⟨hplus, hminus⟩ := hmagnitude.no_sign
    rw [read, spanSign_append hsign hplus hminus]
    exact readMagnitude_eq_some_iff.mpr hmagnitude

/-- A number is written without blanks. -/
theorem Writes.no_blank (h : Writes cs x) : cs ≠ [] ∧ ∀ c ∈ cs, isBlank c = false := by
  obtain ⟨sign, magnitude, negative, _, hsign, hmagnitude⟩ := h
  obtain ⟨hsome, hmarks⟩ := hmagnitude.mark
  refine ⟨List.append_ne_nil_of_right_ne_nil _ hsome, fun c hc => isBlank_of_mark ?_⟩
  exact (List.mem_append.mp hc).elim (hsign.mark c) (hmarks c)

theorem read_trimBlanks_iff : read (trimBlanks cs) = some x ↔ AmongBlanks Writes cs x :=
  LightCone.read_trimBlanks_iff read_eq_some_iff Writes.no_blank

end Reading
end Binary64
end LightCone
