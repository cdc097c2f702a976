import LightCone.Table
import LightCone.Time.Instant

/-!
Caches whose entries expire.

An entry is fresh before its expiry and stays in place, expired, until it is swept, cleared
or replaced; a read looks at the expiry, so sweeping never changes what is fresh. The cache
has no clock: every operation is told the time. This file

1. defines insertion with a lifetime; an expiry past the calendar counts as its last instant;
2. tells fresh, expired and missing keys apart (`lookup`);
3. sweeps expired entries (`sweep`) and says what a sweep and an insertion do to lookups.
-/
namespace LightCone

/-- A value with the time it was put in and the time it expires. -/
structure Stamped (α : Type) where
  value : α
  insertedAt : Instant
  expiresAt : Instant

/-- Whether an entry may still be used. -/
def Stamped.isFresh {α : Type} (e : Stamped α) (now : Instant) : Bool := now < e.expiresAt

/-- Entries with the lifetime that insertions give by default. -/
structure ExpiringCache (κ : Type) [Key κ] (α : Type) where
  lifetime : Duration
  entries : Table κ (Stamped α)

inductive Found (α : Type) where
  | fresh (value : α)
  /-- Still stored past its expiry; `age` is the time since insertion, or zero where
      that is negative. -/
  | expired (value : α) (age : Duration)
  | missing
  deriving DecidableEq

def Stamped.found {α : Type} (e : Stamped α) (now : Instant) : Found α :=
  if e.isFresh now then .fresh e.value
  else .expired e.value ((now.since? e.insertedAt).getD .zero)

namespace ExpiringCache

variable {κ α : Type} [Key κ] [DecidableEq κ]

def empty (lifetime : Duration) : ExpiringCache κ α := ⟨lifetime, .empty⟩

/-- Stores a value for a lifetime of its own, in place of any other. -/
def insertFor (c : ExpiringCache κ α) (k : κ) (v : α) (lifetime : Duration) (now : Instant) :
    ExpiringCache κ α :=
  { c with entries := c.entries.insert k ⟨v, now, now.addCapped lifetime⟩ }

/-- Stores a value for the lifetime of the cache. -/
def insert (c : ExpiringCache κ α) (k : κ) (v : α) (now : Instant) : ExpiringCache κ α :=
  c.insertFor k v c.lifetime now

def lookup (c : ExpiringCache κ α) (k : κ) (now : Instant) : Found α :=
  match c.entries.find? k with
  | none => .missing
  | some e => e.found now

def get? (c : ExpiringCache κ α) (k : κ) (now : Instant) : Option α :=
  match c.lookup k now with
  | .fresh v => some v
  | _ => none

/-- The number of stored entries, fresh or not. -/
def size (c : ExpiringCache κ α) : Nat := c.entries.size

/-- The cache without its expired entries, and how many they were. -/
def sweep (c : ExpiringCache κ α) (now : Instant) : Nat × ExpiringCache κ α :=
  let kept := c.entries.filter fun _ e => e.isFresh now
  (c.size - kept.size, { c with entries := kept })

/-- The cache without entries, and how many there were. -/
def clear (c : ExpiringCache κ α) : Nat × ExpiringCache κ α :=
  (c.size, { c with entries := .empty })

def freshEntries (c : ExpiringCache κ α) (now : Instant) : List (κ × α) :=
  (c.entries.entries.filter fun e => e.2.isFresh now).map fun e => (e.1, e.2.value)

/-! ## Lookups after an operation -/

theorem lookup_insertFor (c : ExpiringCache κ α) (k j : κ) (v : α) (lifetime : Duration)
    (now t : Instant) :
    (c.insertFor k v lifetime now).lookup j t =
      if k = j then (Stamped.mk v now (now.addCapped lifetime)).found t else c.lookup j t := by
  by_cases h : k = j <;> simp [insertFor, lookup, Table.find?_insert, h]

/-- A sweep forgets what has expired by its time and leaves every other key as it was. -/
theorem lookup_sweep (c : ExpiringCache κ α) (k : κ) (now t : Instant) :
    (c.sweep now).2.lookup k t =
      match c.entries.find? k with
      | none => .missing
      | some e => if e.isFresh now then e.found t else .missing := by
  simp only [sweep, lookup, Table.find?_filter]
  cases c.entries.find? k with
  | none => rfl
  | some e => by_cases h : e.isFresh now <;> simp [Option.filter, h]

theorem lookup_clear (c : ExpiringCache κ α) (k : κ) (t : Instant) :
    c.clear.2.lookup k t = .missing := rfl

end ExpiringCache
end LightCone
