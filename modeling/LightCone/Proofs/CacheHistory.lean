import LightCone.Proofs.Expiry
import LightCone.Proofs.Run.Latest
import LightCone.Proofs.Tables
import Mathlib.Data.Set.Card

/-!
What a cache answers, told by what has been done to it.

A cache is told a time with every operation, and the times may run in any order. Whatever was
done, its answers for a key are settled by the last insertion of the key since the last
clearing, and by the sweeps that came after it. This file

1. defines the operations on a cache, the cache after a list of them (`after`), and the last
   insertion of a key with what came after it (`LastInsertion`);
2. says what one operation does to the entry of a key (`find?_perform`), and by induction what
   a list of operations leaves of it (`find?_after_eq_some_iff`);
3. counts keys: those a cache holds, and those that are lost with a sweep or by clearing;
4. concludes every answer of a cache from its history (`after_refines_history`).
-/
namespace LightCone.ExpiringCache

variable {κ α : Type} [Key κ] [DecidableEq κ]

/-- What changes a cache. -/
inductive Operation (κ α : Type) where
  | insert (k : κ) (v : α) (now : Instant)
  | insertFor (k : κ) (v : α) (lifetime : Duration) (now : Instant)
  | sweep (now : Instant)
  | clear

def perform (c : ExpiringCache κ α) : Operation κ α → ExpiringCache κ α
  | .insert k v now => c.insert k v now
  | .insertFor k v lifetime now => c.insertFor k v lifetime now
  | .sweep now => (c.sweep now).2
  | .clear => c.clear.2

/-- A cache of a lifetime that has seen some operations, the first of the list first. -/
def after (lifetime : Duration) (operations : List (Operation κ α)) : ExpiringCache κ α :=
  operations.foldl perform (empty lifetime)

/-- A value put in at a time for a lifetime. -/
structure Insertion (α : Type) where
  value : α
  time : Instant
  lifetime : Duration

/-- When it expires: its lifetime later, or at the last instant of the calendar if that does not hold
    the sum. -/
def Insertion.expiry (i : Insertion α) : Instant := i.time.addCapped i.lifetime

/-- What an operation puts in for a key, on a cache of a lifetime. -/
def Operation.inserts? (lifetime : Duration) (k : κ) : Operation κ α → Option (Insertion α)
  | .insert j v now => if j = k then some ⟨v, now, lifetime⟩ else none
  | .insertFor j v own now => if j = k then some ⟨v, now, own⟩ else none
  | .sweep _ => none
  | .clear => none

/-- The last insertion for a key with nothing cleared since, and the operations after it. -/
def LastInsertion (lifetime : Duration) (operations : List (Operation κ α)) (k : κ)
    (i : Insertion α) (later : List (Operation κ α)) : Prop :=
  ∃ earlier op, operations = earlier ++ op :: later ∧ op.inserts? lifetime k = some i ∧
    .clear ∉ later ∧ ∀ op' ∈ later, op'.inserts? lifetime k = none

/-- Some sweep came when an insertion had expired. -/
def Insertion.Swept (i : Insertion α) (later : List (Operation κ α)) : Prop :=
  ∃ now, .sweep now ∈ later ∧ i.expiry ≤ now

/-! ## One operation -/

def Insertion.stamped (i : Insertion α) : Stamped α := stamp i.lifetime i.time i.value

/-- Whether an entry outlasts an operation that does not replace it. -/
def Operation.keeps : Operation κ α → Stamped α → Bool
  | .insert .., _ => true
  | .insertFor .., _ => true
  | .sweep now, e => e.isFresh now
  | .clear, _ => false

theorem perform_lifetime (c : ExpiringCache κ α) (op : Operation κ α) :
    (c.perform op).lifetime = c.lifetime := by
  cases op <;> rfl

/-- After an operation a key has the entry that the operation puts in, or else the one it had, if
    the operation keeps it. -/
theorem find?_perform (c : ExpiringCache κ α) (op : Operation κ α) (k : κ) :
    (c.perform op).entries.find? k =
      match op.inserts? c.lifetime k with
      | some i => some i.stamped
      | none => (c.entries.find? k).filter op.keeps := by
  have hkept (o : Option (Stamped α)) : o.filter (fun _ => true) = o := by
    cases o <;> rfl
  have hgone (o : Option (Stamped α)) : o.filter (fun _ => false) = none := by
    cases o <;> rfl
  cases op with
  | insert j v now =>
    show (c.entries.insert j _).find? k = _
    by_cases hj : j = k
    · simp [Table.find?_insert, Operation.inserts?, hj, Insertion.stamped, stamp]
    · simp only [Table.find?_insert, Operation.inserts?, hj, if_false]
      exact (hkept _).symm
  | insertFor j v own now =>
    show (c.entries.insert j _).find? k = _
    by_cases hj : j = k
    · simp [Table.find?_insert, Operation.inserts?, hj, Insertion.stamped, stamp]
    · simp only [Table.find?_insert, Operation.inserts?, hj, if_false]
      exact (hkept _).symm
  | sweep now => exact Table.find?_filter c.entries _ k
  | clear => exact (hgone _).symm

/-! ## A list of operations -/

omit [Key κ] in
theorem not_lastInsertion_nil {lifetime : Duration} {k : κ} {i : Insertion α}
    {later : List (Operation κ α)} : ¬ LastInsertion lifetime [] k i later := by
  intro hlast
  obtain ⟨earlier, op, hsplit, _⟩ := hlast
  exact absurd hsplit.symm (by simp)

omit [Key κ] in
/-- The last insertion is the last operation, or it was the last one before, and the operation
    after it neither clears nor inserts for the key. -/
theorem lastInsertion_snoc {lifetime : Duration} {operations later : List (Operation κ α)}
    {op : Operation κ α} {k : κ} {i : Insertion α} :
    LastInsertion lifetime (operations ++ [op]) k i later ↔
      (op.inserts? lifetime k = some i ∧ later = []) ∨
      ∃ rest, later = rest ++ [op] ∧ LastInsertion lifetime operations k i rest ∧
        op ≠ .clear ∧ op.inserts? lifetime k = none := by
  refine ⟨?_, ?_⟩
  · intro hlast
    obtain ⟨earlier, first, hsplit, hinsert, hclear, hnone⟩ := hlast
    rcases snoc_eq_append_cons hsplit with ⟨_, rfl, rfl⟩ | ⟨rest, rfl, rfl⟩
    · exact .inl ⟨hinsert, rfl⟩
    · right
      refine ⟨rest, rfl, ⟨earlier, first, rfl, hinsert, ?_, ?_⟩, ?_, ?_⟩
      · exact fun hmem => hclear (List.mem_append_left _ hmem)
      · exact fun op' hmem => hnone op' (List.mem_append_left _ hmem)
      · rintro rfl
        exact hclear (by simp)
      · exact hnone op (by simp)
  · intro hcases
    rcases hcases with ⟨hinsert, rfl⟩ | ⟨rest, rfl, ⟨earlier, first, rfl, hinsert, hclear, hnone⟩,
      hop, hothers⟩
    · exact ⟨operations, op, rfl, hinsert, by simp, by simp⟩
    · refine ⟨earlier, first, by simp, hinsert, ?_, ?_⟩
      · simp only [List.mem_append, List.mem_singleton, not_or]
        exact ⟨hclear, Ne.symm hop⟩
      · intro op' hmem
        rcases List.mem_append.mp hmem with hmem | hmem
        · exact hnone op' hmem
        · rw [List.mem_singleton.mp hmem]
          exact hothers

omit [Key κ] in
theorem LastInsertion.unique {lifetime : Duration} {operations later later' : List (Operation κ α)}
    {k : κ} {i i' : Insertion α} (h : LastInsertion lifetime operations k i later)
    (h' : LastInsertion lifetime operations k i' later') : i = i' ∧ later = later' := by
  induction operations using List.reverseRecOn generalizing later later' with
  | nil => exact absurd h not_lastInsertion_nil
  | append_singleton operations op ih =>
    rcases lastInsertion_snoc.mp h with ⟨hi, rfl⟩ | ⟨rest, rfl, hrest, _, hnone⟩
    · rcases lastInsertion_snoc.mp h' with ⟨hi', rfl⟩ | ⟨rest', rfl, _, _, hnone⟩
      · exact ⟨Option.some.inj (hi.symm.trans hi'), rfl⟩
      · rw [hi] at hnone
        cases hnone
    · rcases lastInsertion_snoc.mp h' with ⟨hi', rfl⟩ | ⟨rest', rfl, hrest', _, _⟩
      · rw [hi'] at hnone
        cases hnone
      · obtain ⟨rfl, rfl⟩ := ih hrest hrest'
        exact ⟨rfl, rfl⟩

omit [Key κ] [DecidableEq κ] in
theorem Insertion.swept_snoc {i : Insertion α} {later : List (Operation κ α)}
    {op : Operation κ α} (hclear : op ≠ .clear) :
    i.Swept (later ++ [op]) ↔ i.Swept later ∨ op.keeps i.stamped = false := by
  have hlost (now : Instant) :
      (Operation.sweep now : Operation κ α).keeps i.stamped = false ↔ i.expiry ≤ now := by
    simp only [Operation.keeps, Stamped.isFresh, decide_eq_false_iff_not, not_lt]
    rfl
  simp only [Swept, List.mem_append, List.mem_singleton]
  refine ⟨?_, ?_⟩
  · rintro ⟨now, hmem | rfl, hexpired⟩
    · exact .inl ⟨now, hmem, hexpired⟩
    · exact .inr ((hlost now).mpr hexpired)
  · rintro (⟨now, hmem, hexpired⟩ | hkeeps)
    · exact ⟨now, .inl hmem, hexpired⟩
    · cases op with
      | insert => exact absurd hkeeps (by simp [Operation.keeps])
      | insertFor => exact absurd hkeeps (by simp [Operation.keeps])
      | sweep now => exact ⟨now, .inr rfl, (hlost now).mp hkeeps⟩
      | clear => exact absurd rfl hclear

theorem after_snoc (lifetime : Duration) (operations : List (Operation κ α)) (op : Operation κ α) :
    after lifetime (operations ++ [op]) = (after lifetime operations).perform op := by
  simp only [after, List.foldl_append, List.foldl_cons, List.foldl_nil]

theorem after_lifetime (lifetime : Duration) (operations : List (Operation κ α)) :
    (after lifetime operations).lifetime = lifetime := by
  induction operations using List.reverseRecOn with
  | nil => rfl
  | append_singleton operations op ih => rw [after_snoc, perform_lifetime, ih]

/-- The entry of a key is its last insertion, unless that has been swept. -/
theorem find?_after_eq_some_iff {lifetime : Duration} {operations : List (Operation κ α)} {k : κ}
    {e : Stamped α} : (after lifetime operations).entries.find? k = some e ↔
      ∃ i later, LastInsertion lifetime operations k i later ∧ ¬ i.Swept later ∧ e = i.stamped := by
  induction operations using List.reverseRecOn generalizing e with
  | nil => simp [after, empty, not_lastInsertion_nil]
  | append_singleton operations op ih =>
    simp only [after_snoc, find?_perform, after_lifetime, lastInsertion_snoc]
    cases hinsert : op.inserts? lifetime k with
    | some i =>
      refine ⟨?_, ?_⟩
      · intro hsame
        exact ⟨i, [], .inl ⟨rfl, rfl⟩, by simp [Insertion.Swept], (Option.some.inj hsame).symm⟩
      · rintro ⟨j, later, ⟨hj, rfl⟩ | ⟨_, _, _, _, hnone⟩, _, rfl⟩
        · rw [Option.some.inj hj]
        · cases hnone
    | none =>
      simp only [Option.filter_eq_some_iff, ih]
      refine ⟨?_, ?_⟩
      · rintro ⟨⟨i, rest, hlast, hswept, rfl⟩, hkeeps⟩
        have hclear : op ≠ .clear := by
          rintro rfl
          cases hkeeps
        refine ⟨i, rest ++ [op], .inr ⟨rest, rfl, hlast, hclear, trivial⟩, ?_, rfl⟩
        rw [Insertion.swept_snoc hclear, not_or]
        exact ⟨hswept, by simp [hkeeps]⟩
      · rintro ⟨i, later, ⟨hnone, _⟩ | ⟨rest, rfl, hlast, hclear, _⟩, hswept, rfl⟩
        · cases hnone
        · rw [Insertion.swept_snoc hclear, not_or, Bool.not_eq_false] at hswept
          exact ⟨⟨i, rest, hlast, hswept.1, rfl⟩, hswept.2⟩

/-! ## What is found for a key -/

/-- A key is missing just if it has not been put in, or its last insertion has been swept. -/
theorem lookup_after_eq_missing_iff {lifetime : Duration} {operations : List (Operation κ α)}
    {k : κ} {t : Instant} : (after lifetime operations).lookup k t = .missing ↔
      (¬ ∃ i later, LastInsertion lifetime operations k i later) ∨
        ∃ i later, LastInsertion lifetime operations k i later ∧ i.Swept later := by
  rw [lookup_eq_missing_iff, Option.eq_none_iff_forall_ne_some]
  simp only [ne_eq, find?_after_eq_some_iff]
  refine ⟨?_, ?_⟩
  · intro hnone
    by_cases hsome : ∃ i later, LastInsertion lifetime operations k i later
    · right
      obtain ⟨i, later, hlast⟩ := hsome
      by_contra hswept
      exact hnone i.stamped ⟨i, later, hlast, fun h => hswept ⟨i, later, hlast, h⟩, rfl⟩
    · exact .inl hsome
  · intro hcases e hsome
    obtain ⟨i, later, hlast, hkept, _⟩ := hsome
    rcases hcases with hnone | ⟨i', later', hlast', hswept⟩
    · exact hnone ⟨i, later, hlast⟩
    · obtain ⟨rfl, rfl⟩ := hlast.unique hlast'
      exact hkept hswept

/-- A key is fresh, with the last value, before that expires. -/
theorem lookup_after_eq_fresh_iff {lifetime : Duration} {operations : List (Operation κ α)}
    {k : κ} {t : Instant} {v : α} : (after lifetime operations).lookup k t = .fresh v ↔
      ∃ i later, LastInsertion lifetime operations k i later ∧ ¬ i.Swept later ∧
        t < i.expiry ∧ i.value = v := by
  rw [lookup_eq_fresh_iff, get?_eq_some_iff]
  simp only [find?_after_eq_some_iff]
  refine ⟨?_, ?_⟩
  · rintro ⟨_, ⟨i, later, hlast, hkept, rfl⟩, hfresh, rfl⟩
    exact ⟨i, later, hlast, hkept, hfresh, rfl⟩
  · rintro ⟨i, later, hlast, hkept, hfresh, rfl⟩
    exact ⟨_, ⟨i, later, hlast, hkept, rfl⟩, hfresh, rfl⟩

/-- From then on it is expired, and the age is the time since the insertion, or zero where that is
    negative. -/
theorem lookup_after_eq_expired_iff {lifetime : Duration} {operations : List (Operation κ α)}
    {k : κ} {t : Instant} {v : α} {age : Duration} :
    (after lifetime operations).lookup k t = .expired v age ↔
      ∃ i later, LastInsertion lifetime operations k i later ∧ ¬ i.Swept later ∧
        i.expiry ≤ t ∧ i.value = v ∧ (age.nanos : Int) = max 0 (t.nanosSince i.time) := by
  rw [lookup_eq_expired_iff]
  simp only [find?_after_eq_some_iff]
  refine ⟨?_, ?_⟩
  · rintro ⟨_, ⟨i, later, hlast, hkept, rfl⟩, hexpired, rfl, rfl⟩
    exact ⟨i, later, hlast, hkept, hexpired, rfl, t.nanos_since i.time⟩
  · rintro ⟨i, later, hlast, hkept, hexpired, rfl, hexact⟩
    have hsame := t.nanos_since i.time
    rw [← hexact] at hsame
    exact ⟨_, ⟨i, later, hlast, hkept, rfl⟩, hexpired, rfl, Duration.ext (Int.ofNat.inj hsame)⟩

/-- The age is exact, unless the insertion was inside a leap second. -/
theorem age_of_lookup_after {lifetime : Duration} {operations : List (Operation κ α)} {k : κ}
    {t : Instant} {v : α} {age : Duration}
    (h : (after lifetime operations).lookup k t = .expired v age) :
    ∃ i later, LastInsertion lifetime operations k i later ∧
      (i.time.leap = false → (age.nanos : Int) = t.nanosSince i.time) := by
  obtain ⟨i, later, hlast, _, hexpired, _, hage⟩ := lookup_after_eq_expired_iff.mp h
  refine ⟨i, later, hlast, fun hleap => ?_⟩
  have hpast : i.time ≤ t := (Instant.le_addCapped hleap i.lifetime).trans hexpired
  rw [hage, max_eq_right (Instant.nanosSince_nonneg hpast hleap)]

/-! ## Counting keys -/

/-- The size of a cache is the number of its keys that are not missing. -/
theorem encard_present (c : ExpiringCache κ α) (t : Instant) :
    {k | c.lookup k t ≠ .missing}.encard = c.size := by
  have hkeys : {k | c.lookup k t ≠ .missing} = (c.entries.keys.toFinset : Set κ) := by
    ext k
    simp only [Set.mem_ofPred_eq, ne_eq, lookup_eq_missing_iff, List.coe_toFinset,
      Table.mem_keys_iff, ← Option.isSome_iff_exists, Option.isSome_iff_ne_none]
  rw [hkeys, Set.encard_coe_eq_coe_finsetCard, List.toFinset_card_of_nodup (Table.nodup_keys _)]
  simp only [Table.keys, List.length_map, size, Table.size]

/-- A cache that has lost keys, and got none, is smaller by their number. -/
theorem encard_lost {c c' : ExpiringCache κ α} {t : Instant}
    (hsub : ∀ k, c.lookup k t = .missing → c'.lookup k t = .missing) :
    {k | c.lookup k t ≠ .missing ∧ c'.lookup k t = .missing}.encard =
      (c.size - c'.size : Nat) := by
  have hdiff : {k | c.lookup k t ≠ .missing ∧ c'.lookup k t = .missing} =
      {k | c.lookup k t ≠ .missing} \ {k | c'.lookup k t ≠ .missing} := by
    ext k
    simp only [Set.mem_sdiff, Set.mem_ofPred_eq, not_not]
  have hfinite : {k | c'.lookup k t ≠ .missing}.Finite := by
    rw [← Set.encard_lt_top_iff, encard_present]
    exact ENat.natCast_lt_top _
  have hkept : {k | c'.lookup k t ≠ .missing} ⊆ {k | c.lookup k t ≠ .missing} := by
    intro k hk hmissing
    exact hk (hsub k hmissing)
  rw [hdiff, Set.encard_sdiff hkept hfinite, encard_present, encard_present, ENat.natCast_sub]

theorem encard_lost_sweep (c : ExpiringCache κ α) (now t : Instant) :
    {k | c.lookup k t ≠ .missing ∧ (c.sweep now).2.lookup k t = .missing}.encard =
      (c.sweep now).1 := by
  apply encard_lost
  intro k hmissing
  rw [lookup_eq_missing_iff] at hmissing
  rw [lookup_sweep, hmissing]

theorem encard_lost_clear (c : ExpiringCache κ α) (t : Instant) :
    {k | c.lookup k t ≠ .missing ∧ c.clear.2.lookup k t = .missing}.encard = c.clear.1 := by
  apply encard_lost
  intro k _
  exact lookup_clear c k t

/-! ## Every answer -/

/-- What a cache answers after any operations at any times. With the last insertion of a key
    since the last clearing:

    * the key is missing just if there is no such insertion, or a sweep at its expiry or later
      has followed it;
    * otherwise it is fresh, with the value, before the expiry, and else expired, with the value
      and the time since the insertion, or zero where that is negative; it never is negative
      after an insertion outside leap seconds;
    * a read finds just the fresh keys, and the fresh entries list each of them once;
    * the size is the number of keys that are not missing, and a sweep and clearing tell the
      number of keys that go missing with them. -/
theorem after_refines_history (lifetime : Duration) (operations : List (Operation κ α)) :
    (∀ k t, (after lifetime operations).lookup k t = .missing ↔
      (¬ ∃ i later, LastInsertion lifetime operations k i later) ∨
        ∃ i later, LastInsertion lifetime operations k i later ∧ i.Swept later) ∧
    (∀ k t v, (after lifetime operations).lookup k t = .fresh v ↔
      ∃ i later, LastInsertion lifetime operations k i later ∧ ¬ i.Swept later ∧
        t < i.expiry ∧ i.value = v) ∧
    (∀ k t v age, (after lifetime operations).lookup k t = .expired v age ↔
      ∃ i later, LastInsertion lifetime operations k i later ∧ ¬ i.Swept later ∧
        i.expiry ≤ t ∧ i.value = v ∧ (age.nanos : Int) = max 0 (t.nanosSince i.time)) ∧
    (∀ k t v age, (after lifetime operations).lookup k t = .expired v age →
      ∃ i later, LastInsertion lifetime operations k i later ∧
        (i.time.leap = false → (age.nanos : Int) = t.nanosSince i.time)) ∧
    (∀ k t v, (after lifetime operations).get? k t = some v ↔
      (after lifetime operations).lookup k t = .fresh v) ∧
    (∀ t, (((after lifetime operations).freshEntries t).map Prod.fst).Nodup) ∧
    (∀ t k v, (k, v) ∈ (after lifetime operations).freshEntries t ↔
      (after lifetime operations).lookup k t = .fresh v) ∧
    (∀ t, {k | (after lifetime operations).lookup k t ≠ .missing}.encard =
      (after lifetime operations).size) ∧
    (∀ now t, {k | (after lifetime operations).lookup k t ≠ .missing ∧
        (after lifetime (operations ++ [.sweep now])).lookup k t = .missing}.encard =
      ((after lifetime operations).sweep now).1) ∧
    (∀ t, {k | (after lifetime operations).lookup k t ≠ .missing ∧
        (after lifetime (operations ++ [.clear])).lookup k t = .missing}.encard =
      (after lifetime operations).clear.1) := by
  refine ⟨?missing, ?fresh, ?expired, ?age, ?read, ?once, ?listed, encard_present _, ?swept, ?cleared⟩
  case missing => exact fun k t => lookup_after_eq_missing_iff
  case fresh => exact fun k t v => lookup_after_eq_fresh_iff
  case expired => exact fun k t v age => lookup_after_eq_expired_iff
  case age => exact fun k t v age => age_of_lookup_after
  case read => exact fun k t v => lookup_eq_fresh_iff.symm
  case once =>
    intro t
    exact (sorted_freshEntries _ t).imp Key.ne_of_before
  case listed =>
    intro t k v
    rw [mem_freshEntries_iff, lookup_eq_fresh_iff]
  case swept =>
    intro now t
    rw [after_snoc]
    exact encard_lost_sweep _ now t
  case cleared =>
    intro t
    rw [after_snoc]
    exact encard_lost_clear _ t

/-- Half a second into a leap second that ends a day, a value is put in for a fifth of a second. At
    midnight it has expired, and its age is told as zero: across midnight the leap second is not
    counted, and the time since the insertion comes out negative. -/
theorem expired_with_no_age :
    let inserted : Instant := ⟨86399500000000, true, by decide⟩
    let midnight : Instant := ⟨86400000000000, false, by decide⟩
    let operations : List (Operation Nat Nat) := [.insert 1 7 inserted]
    LastInsertion (.ofMillis 200) operations 1 ⟨7, inserted, .ofMillis 200⟩ [] ∧
    inserted.addCapped (.ofMillis 200) ≤ midnight ∧
    (after (.ofMillis 200) operations).lookup 1 midnight = .expired 7 .zero ∧
    midnight.nanosSince inserted = -500000000 ∧
    (Duration.zero.nanos : Int) ≠ midnight.nanosSince inserted := by
  refine ⟨⟨[], _, rfl, rfl, ?_, ?_⟩, ?_, ?_, ?_, ?_⟩
  · exact List.not_mem_nil
  · exact fun op hop => absurd hop List.not_mem_nil
  all_goals decide

-- The clock runs back: what is put in at eight seconds counts, and not what was put in at twenty.
example :
    let clock (n : Nat) := Instant.epoch.addCapped (.ofSecs n)
    let c : ExpiringCache Nat Nat := after (.ofSecs 10)
      [.insert 1 7 (clock 20), .insertFor 1 9 (.ofSecs 5) (clock 8), .sweep (clock 12)]
    c.lookup 1 (clock 12) = .fresh 9 ∧ c.lookup 1 (clock 14) = .expired 9 (.ofSecs 6) := by decide

end LightCone.ExpiringCache
