import LightCone.Proofs.Json.Texts
import LightCone.Time.Rfc3339

/-!
The text of an instant is read as that instant.

This file

1. turns dates back into their days (`Date.toDay_ofDay`): a day falls into the year, the month and
   the day of the month that are computed for it, so that the sum of what came before is the day;
2. reads back each part of the text: years with and without a sign, numbers of two digits, and
   fractions in groups of three digits;
3. puts the parts together again (`Instant.ofParts_eq`, `Instant.read?_textChars`).
-/
namespace LightCone

-- A power of naturals is the one of the core library, whatever else is in scope.
attribute [local instance (high)] instPowNat

/-! ## Dates -/

namespace Date

variable {d n : Int}

theorem yearOfCycleDay_mem (hfirst : 0 ≤ d) (hlast : d < cycleDays) :
    0 ≤ yearOfCycleDay d ∧ yearOfCycleDay d < 400 := by
  unfold cycleDays at hlast
  unfold yearOfCycleDay
  omega

/-- A day of the cycle falls into its year: the year begins on that day or up to 365 days before. -/
theorem yearDay_mem (hfirst : 0 ≤ d) (hlast : d < cycleDays) :
    0 ≤ d - daysBeforeYear (yearOfCycleDay d) ∧ d - daysBeforeYear (yearOfCycleDay d) ≤ 365 := by
  obtain ⟨hyear, hyear'⟩ := yearOfCycleDay_mem hfirst hlast
  unfold cycleDays at hlast
  have hself : yearOfCycleDay d = (d - d / 1460 + d / 36524 - d / 146096) / 365 := rfl
  unfold daysBeforeYear
  generalize yearOfCycleDay d = year at hyear hyear' hself
  -- The centuries before the day are those before its year, and so are the leap years but for one.
  have hcentury : year / 100 = 0 ∨ year / 100 = 1 ∨ year / 100 = 2 ∨ year / 100 = 3 := by omega
  have hcenturies : d / 36524 - d / 146096 = year / 100 := by
    rcases hcentury with h | h | h | h <;> omega
  have hleap : d / 1460 - year / 4 = 0 ∨ d / 1460 - year / 4 = 1 := by omega
  omega

/-- The month of a day of its year, from March, and the day of that month. -/
theorem month_mem (hfirst : 0 ≤ d) (hlast : d ≤ 365) :
    0 ≤ (5 * d + 2) / 153 ∧ (5 * d + 2) / 153 ≤ 11 ∧
    0 ≤ d - daysBeforeMonth ((5 * d + 2) / 153) ∧ d - daysBeforeMonth ((5 * d + 2) / 153) ≤ 30 := by
  unfold daysBeforeMonth
  omega

theorem cycleDay_mem (n : Int) :
    0 ≤ (n + epochDay) % cycleDays ∧ (n + epochDay) % cycleDays < cycleDays :=
  ⟨Int.emod_nonneg _ (by decide), Int.emod_lt_of_pos _ (by decide)⟩

/-- The day of a date whose parts are counted from March. January and February are the last months of
    such a year. -/
theorem toDay_ofParts {cycle year month rest : Int} (hyear : 0 ≤ year ∧ year < 400)
    (hmonth : 0 ≤ month ∧ month ≤ 11) (hrest : 0 ≤ rest) :
    toDay ⟨if month < 10 then cycle * 400 + year else cycle * 400 + year + 1,
      (if month < 10 then month + 3 else month - 9).toNat, (rest + 1).toNat⟩ =
      cycle * cycleDays + daysBeforeYear year + daysBeforeMonth month + rest - epochDay := by
  have hcycle : (cycle * 400 + year) / 400 = cycle := by omega
  have hyears : (cycle * 400 + year) % 400 = year := by omega
  have hday : (((rest + 1).toNat : Nat) : Int) = rest + 1 := by omega
  by_cases hless : month < 10
  · have hnumber : (((month + 3).toNat : Nat) : Int) = month + 3 := by omega
    simp only [toDay, if_pos hless]
    rw [if_neg (by omega), if_neg (by omega), hcycle, hyears, hnumber, hday, Int.add_sub_cancel]
    omega
  · have hnumber : (((month - 9).toNat : Nat) : Int) = month - 9 := by omega
    simp only [toDay, if_neg hless]
    rw [if_pos (by omega), if_pos (by omega), Int.add_sub_cancel, hcycle, hyears, hnumber, hday,
      Int.sub_add_cancel]
    omega

/-- Every day has a date that is turned back into it. -/
theorem toDay_ofDay (n : Int) : (ofDay n).toDay = n := by
  obtain ⟨hfirst, hlast⟩ := cycleDay_mem n
  obtain ⟨hday, hday'⟩ := yearDay_mem hfirst hlast
  obtain ⟨hmonth, hmonth', hrest, -⟩ := month_mem hday hday'
  have hsplit := Int.mul_ediv_add_emod (n + epochDay) cycleDays
  refine (toDay_ofParts (yearOfCycleDay_mem hfirst hlast) ⟨hmonth, hmonth'⟩ hrest).trans ?_
  rw [Int.mul_comm] at hsplit
  omega

theorem valid_ofDay (n : Int) : (ofDay n).valid = true := by
  unfold valid
  rw [toDay_ofDay]
  exact decide_eq_true rfl

/-- Months and days have two digits. -/
theorem month_ofDay_lt (n : Int) : (ofDay n).month < 100 ∧ (ofDay n).day < 100 := by
  obtain ⟨hfirst, hlast⟩ := cycleDay_mem n
  obtain ⟨hday, hday'⟩ := yearDay_mem hfirst hlast
  obtain ⟨hmonth, hmonth', hrest, hrest'⟩ := month_mem hday hday'
  refine ⟨?_, by simp only [ofDay]; omega⟩
  simp only [ofDay]
  split <;> omega

end Date

/-! ## Padded numbers -/

section Padding

variable {width part : Nat} {rest : List Char}

theorem isDigit_paddedDigits : ∀ c ∈ Duration.paddedDigits width part, c.isDigit = true := by
  intro c hc
  rcases List.mem_append.mp hc with hzero | hdigit
  · rw [List.eq_of_mem_replicate hzero]
    rfl
  · exact isDigit_toDigits c hdigit

theorem digitsValue_paddedDigits (width part : Nat) :
    digitsValue (Duration.paddedDigits width part) = part := by
  unfold Duration.paddedDigits
  rw [digitsValue_eq, Nat.ofDigitChars_append, Nat.ofDigitChars_replicate_zero, Nat.mul_zero,
    Nat.ofDigitChars_ten_toDigits]

theorem length_paddedDigits (hwidth : 0 < width) (h : part < 10 ^ width) :
    (Duration.paddedDigits width part).length = width := by
  have hlength : (Nat.toDigits 10 part).length ≤ width :=
    (Nat.length_toDigits_le_iff (by decide) hwidth).mpr h
  unfold Duration.paddedDigits
  rw [List.length_append, List.length_replicate]
  omega

theorem paddedDigits_ne_nil (width part : Nat) : Duration.paddedDigits width part ≠ [] :=
  List.append_ne_nil_of_right_ne_nil _ Nat.toDigits_ne_nil

theorem paddedDigits_cons (width part : Nat) :
    ∃ c cs, Duration.paddedDigits width part = c :: cs ∧ c.isDigit = true := by
  obtain ⟨c, cs, hcons⟩ := List.exists_cons_of_ne_nil (paddedDigits_ne_nil width part)
  exact ⟨c, cs, hcons, isDigit_paddedDigits c (by rw [hcons]; exact List.mem_cons_self)⟩

end Padding

namespace Instant

/-! ## Parts of instants -/

section Parts

variable {width part nanos : Nat} {year : Int} {rest : List Char} {c : Char}

theorem skipBlank_cons (h : isBlank c = false) (rest : List Char) : skipBlank (c :: rest) = c :: rest := by
  unfold skipBlank
  rw [List.dropWhile_cons_of_neg (by simp [h])]

theorem skipBlank_paddedDigits (width part : Nat) (rest : List Char) :
    skipBlank (Duration.paddedDigits width part ++ rest) = Duration.paddedDigits width part ++ rest := by
  obtain ⟨c, cs, hcons, hdigit⟩ := paddedDigits_cons width part
  rw [hcons]
  exact skipBlank_cons (isBlank_of_isDigit hdigit) _

theorem readMark_cons (h : isBlank c = false) (rest : List Char) :
    readMark c (c :: rest) = some rest := by
  unfold readMark
  rw [skipBlank_cons h]
  exact if_pos rfl

theorem noDigit_cons (h : c.isDigit = false) (rest : List Char) : NoDigit (c :: rest) := by
  intro d hd
  cases hd
  exact h

theorem spanDigits_paddedDigits (width part : Nat) (hrest : NoDigit rest) :
    spanDigits (Duration.paddedDigits width part ++ rest) = (Duration.paddedDigits width part, rest) :=
  spanDigits_append isDigit_paddedDigits hrest

theorem isEmpty_paddedDigits (width part : Nat) : (Duration.paddedDigits width part).isEmpty = false := by
  simpa using paddedDigits_ne_nil width part

theorem readNumber_paddedDigits (hwidth : 0 < width) (h : part < 10 ^ width) (rest : List Char) :
    readNumber width (Duration.paddedDigits width part ++ rest) = some (part, rest) := by
  have hlength := length_paddedDigits hwidth h
  have htake : (Duration.paddedDigits width part ++ rest).take width =
      Duration.paddedDigits width part := List.take_left' hlength
  have hdigits : (Duration.paddedDigits width part).takeWhile Char.isDigit =
      Duration.paddedDigits width part := by
    have hnil : NoDigit [] := by
      intro d hd
      cases hd
    have hspan := congrArg Prod.fst (spanDigits_paddedDigits width part hnil)
    rwa [List.append_nil] at hspan
  simp only [readNumber, skipBlank_paddedDigits, htake, hdigits, isEmpty_paddedDigits,
    digitsValue_paddedDigits, List.drop_left, Bool.false_eq_true, if_false]

/-- A year without a sign has four digits. -/
theorem readYear_paddedDigits (h : part < 10000) (rest : List Char) :
    readYear (Duration.paddedDigits 4 part ++ rest) = some ((part : Int), rest) := by
  obtain ⟨c, cs, hcons, hdigit⟩ := paddedDigits_cons 4 part
  have hread : readNumber 4 (Duration.paddedDigits 4 part ++ rest) = some (part, rest) :=
    readNumber_paddedDigits (by decide) h rest
  unfold readYear
  rw [skipBlank_paddedDigits]
  rw [hcons] at hread ⊢
  split
  · next hminus =>
    rw [(List.cons.inj hminus).1] at hdigit
    exact absurd hdigit (by decide)
  · next hplus =>
    rw [(List.cons.inj hplus).1] at hdigit
    exact absurd hdigit (by decide)
  · rw [hread]
    rfl

/-- A year is read up to the mark after it, with its sign. -/
theorem readYear_yearText (year : Int) (rest : List Char) :
    readYear (yearText year ++ '-' :: rest) = some (year, '-' :: rest) := by
  have hspan := spanDigits_paddedDigits 4 year.natAbs (noDigit_cons (by decide : '-'.isDigit = false) rest)
  unfold yearText
  split
  · next hnegative =>
    have habs : -(year.natAbs : Int) = year := by omega
    unfold readYear
    rw [List.cons_append, skipBlank_cons (by decide)]
    simp only [hspan, isEmpty_paddedDigits, digitsValue_paddedDigits, Bool.false_eq_true, if_false,
      habs]
  · next hnonneg =>
    have habs : (year.natAbs : Int) = year := by omega
    split
    · next hshort =>
      rw [readYear_paddedDigits (by omega), habs]
    · unfold readYear
      rw [List.cons_append, skipBlank_cons (by decide)]
      simp only [hspan, isEmpty_paddedDigits, digitsValue_paddedDigits, Bool.false_eq_true, if_false,
        habs]

/-- Digits after a point are a fraction of a second, with as many zeros as they leave out. -/
theorem readFraction_paddedDigits (hwidth : 0 < width) (hmost : width ≤ 9) (h : part < 10 ^ width)
    (rest : List Char) :
    readFraction ('.' :: (Duration.paddedDigits width part ++ 'Z' :: rest)) =
      some (part * 10 ^ (9 - width), 'Z' :: rest) := by
  have hspan := spanDigits_paddedDigits width part (noDigit_cons (by decide : 'Z'.isDigit = false) rest)
  have hlength := length_paddedDigits hwidth h
  have htake : (Duration.paddedDigits width part).take 9 = Duration.paddedDigits width part :=
    List.take_of_length_le (by omega)
  simp only [readFraction, hspan, isEmpty_paddedDigits, htake, hlength, digitsValue_paddedDigits,
    Bool.false_eq_true, if_false]

/-- A fraction is read up to the letter after it. -/
theorem readFraction_fractionText (h : nanos < nanosPerSecond) (rest : List Char) :
    readFraction (fractionText nanos ++ 'Z' :: rest) = some (nanos, 'Z' :: rest) := by
  unfold nanosPerSecond at h
  unfold fractionText
  split
  · next hzero =>
    rw [hzero]
    rfl
  · split
    · next hmillis =>
      rw [List.cons_append, readFraction_paddedDigits (by decide) (by decide) (by omega)]
      congr 2
      omega
    · split
      · next hmicros =>
        rw [List.cons_append, readFraction_paddedDigits (by decide) (by decide) (by omega)]
        congr 2
        omega
      · rw [List.cons_append, readFraction_paddedDigits (by decide) (by decide) (by omega)]
        congr 2
        omega

end Parts

/-! ## Instants -/

variable {t : Instant}

theorem ofNanos?_nanos (hleap : t.leap = false) : ofNanos? t.nanos = some t := by
  obtain ⟨nanos, leap, inRange⟩ := t
  cases hleap
  exact dif_pos inRange

/-- An instant outside leap seconds is made again from its day, its second of the day and its
    fraction. -/
theorem ofParts_eq (hleap : t.leap = false) {second nanos : Nat}
    (hsecond : t.unixSeconds % secondsPerDay = second)
    (hnanos : t.nanos % nanosPerSecond = nanos) :
    ofParts (Date.ofDay (t.unixSeconds / secondsPerDay)) (second / 3600) (second / 60 % 60)
      (second % 60) nanos 0 = some t := by
  have hday : t.unixSeconds % secondsPerDay < secondsPerDay := Int.emod_lt_of_pos _ (by decide)
  have hseconds : t.unixSeconds = t.nanos / nanosPerSecond :=
    Int.fdiv_eq_ediv_of_nonneg _ (by decide)
  have hsplit := Int.mul_ediv_add_emod t.unixSeconds secondsPerDay
  have hsplit' := Int.mul_ediv_add_emod t.nanos nanosPerSecond
  rw [← hseconds, hnanos] at hsplit'
  rw [hsecond] at hsplit hday
  unfold secondsPerDay at hday
  have hunix : t.unixSeconds / secondsPerDay * secondsPerDay + (second / 3600 : Nat) * 3600 +
      (second / 60 % 60 : Nat) * 60 + (second % 60 : Nat) = t.unixSeconds := by
    rw [Int.mul_comm] at hsplit
    omega
  have hsum : t.unixSeconds * nanosPerSecond + nanos = t.nanos := by
    rwa [Int.mul_comm] at hsplit'
  have hgood : (Date.valid (Date.ofDay (t.unixSeconds / secondsPerDay)) && decide (second / 3600 < 24)
      && decide (second / 60 % 60 < 60) && decide (second % 60 ≤ 60)
      && decide ((0 : Int).natAbs < 86400)) = true := by
    simp only [Date.valid_ofDay, Bool.and_eq_true, decide_eq_true_eq, true_and]
    refine ⟨⟨⟨?_, ?_⟩, ?_⟩, ?_⟩ <;> omega
  have hminute : ¬ second % 60 = 60 := by omega
  unfold ofParts
  rw [if_pos hgood]
  simp only [Date.toDay_ofDay, hminute, decide_false, Bool.false_eq_true, if_false, hunix, hsum,
    ofNanos?_nanos hleap, Int.zero_mul, Int.sub_zero, Option.bind_eq_bind, Option.bind_some]
  rw [← hleap]

/-- The text of an instant outside leap seconds is read as that instant, in whatever year. -/
theorem read?_textChars (hleap : t.leap = false) : read? t.textChars = some t := by
  obtain ⟨hmonth, hday⟩ := Date.month_ofDay_lt (t.unixSeconds / secondsPerDay)
  obtain ⟨second, hsecond⟩ := Int.eq_ofNat_of_zero_le
    (Int.emod_nonneg t.unixSeconds (by decide : secondsPerDay ≠ 0))
  obtain ⟨nanos, hnanos⟩ := Int.eq_ofNat_of_zero_le
    (Int.emod_nonneg t.nanos (by decide : (nanosPerSecond : Int) ≠ 0))
  have hparts := ofParts_eq hleap hsecond hnanos
  have hlast : t.unixSeconds % secondsPerDay < secondsPerDay := Int.emod_lt_of_pos _ (by decide)
  have hlast' : t.nanos % nanosPerSecond < nanosPerSecond := Int.emod_lt_of_pos _ (by decide)
  rw [hsecond] at hlast
  rw [hnanos] at hlast'
  unfold secondsPerDay at hlast
  have htext : t.textChars = yearText (Date.ofDay (t.unixSeconds / secondsPerDay)).year ++
      '-' :: (Duration.paddedDigits 2 (Date.ofDay (t.unixSeconds / secondsPerDay)).month ++
      '-' :: (Duration.paddedDigits 2 (Date.ofDay (t.unixSeconds / secondsPerDay)).day ++
      'T' :: (Duration.paddedDigits 2 (second / 3600) ++
      ':' :: (Duration.paddedDigits 2 (second / 60 % 60) ++
      ':' :: (Duration.paddedDigits 2 (second % 60) ++ (fractionText nanos ++ ['Z'])))))) := by
    simp only [textChars, hsecond, hnanos, hleap, Int.toNat_natCast, Bool.false_eq_true, if_false,
      Nat.add_zero, List.append_assoc, List.cons_append]
  have htwo : ∀ {part : Nat} (rest : List Char), part < 100 →
      readNumber 2 (Duration.paddedDigits 2 part ++ rest) = some (part, rest) :=
    fun rest h => readNumber_paddedDigits (by decide) h rest
  have hfraction := readFraction_fractionText (by exact_mod_cast hlast' : nanos < nanosPerSecond) []
  have hletter : skipBlank ['Z'] = ['Z'] := skipBlank_cons (by decide) []
  have hoffset : readOffset ['Z'] = some (0, []) := rfl
  have hnext : ∀ {α : Type} (a : α) (f : α → Option Instant), (some a >>= f) = f a :=
    fun _ _ => rfl
  rw [htext]
  unfold read?
  simp only [readYear_yearText, readMark_cons (by decide : isBlank '-' = false),
    readMark_cons (by decide : isBlank ':' = false), htwo _ hmonth, htwo _ hday,
    htwo _ (by omega : second / 3600 < 100), htwo _ (by omega : second / 60 % 60 < 100),
    htwo _ (by omega : second % 60 < 100), hfraction, hletter, hoffset, hnext, true_or, if_true]
  exact hparts

end Instant
end LightCone
