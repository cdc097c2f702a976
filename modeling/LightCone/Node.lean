import LightCone.Position
import LightCone.Table
import LightCone.Time.Instant

/-!
Nodes, and unordered pairs of them.

A pair names its two nodes in text order, so both directions between them are one pair and no
other nodes share it (`NodePair.of_eq_of_iff`). Pairs are ordered by their first name, then by
the second.
-/
namespace LightCone

/-- A node as the directory records it. -/
structure Node where
  id : String
  position : Position
  active : Bool
  lastSeen : Instant
  deriving DecidableEq

structure NodePair where
  first : String
  second : String
  deriving DecidableEq

namespace NodePair

/-- The pair of two nodes, whichever is named first. -/
def of (a b : String) : NodePair := if b < a then ⟨b, a⟩ else ⟨a, b⟩

def contains (p : NodePair) (id : String) : Bool := p.first = id || p.second = id

def text (p : NodePair) : String := p.first ++ "|" ++ p.second

/-- Pairs are ordered by first name, then by second. -/
def before (p q : NodePair) : Bool :=
  decide (p.first < q.first) || (decide (p.first = q.first) && decide (p.second < q.second))

theorem before_iff {p q : NodePair} :
    p.before q = true ↔ p.first < q.first ∨ p.first = q.first ∧ p.second < q.second := by
  simp [before]

instance : Key NodePair where
  before := before
  irrefl p := by
    rw [Bool.eq_false_iff, Ne, before_iff]
    simp
  trans := by
    intro p q r hpq hqr
    rw [before_iff] at hpq hqr ⊢
    rcases hpq with h | ⟨h, h'⟩ <;> rcases hqr with g | ⟨g, g'⟩
    · exact .inl (String.lt_trans h g)
    · exact .inl (g ▸ h)
    · exact .inl (h ▸ g)
    · exact .inr ⟨h.trans g, String.lt_trans h' g'⟩
  total p q := by
    rw [before_iff, before_iff]
    rcases Std.lt_trichotomy p.first q.first with h | h | h
    · exact .inl (.inl h)
    · rcases Std.lt_trichotomy p.second q.second with g | g | g
      · exact .inl (.inr ⟨h, g⟩)
      · obtain ⟨p1, p2⟩ := p
        obtain ⟨q1, q2⟩ := q
        subst h g
        exact .inr (.inl rfl)
      · exact .inr (.inr (.inr ⟨h.symm, g⟩))
    · exact .inr (.inr (.inl h))

theorem of_comm (a b : String) : of a b = of b a := by
  unfold of
  rcases Std.lt_trichotomy a b with h | h | h
  · rw [if_neg (String.lt_asymm h), if_pos h]
  · subst h; rfl
  · rw [if_pos h, if_neg (String.lt_asymm h)]

end NodePair

/-- Two ids, in one order or the other. -/
def SamePair (a b x y : String) : Prop := (a = x ∧ b = y) ∨ (a = y ∧ b = x)

theorem NodePair.of_eq_of_iff {a b x y : String} : of a b = of x y ↔ SamePair a b x y := by
  refine ⟨?_, ?_⟩
  · intro h
    simp only [of] at h
    split at h <;> split at h
    all_goals
      rw [NodePair.mk.injEq] at h
      obtain ⟨hfirst, hsecond⟩ := h
    · exact .inl ⟨hsecond, hfirst⟩
    · exact .inr ⟨hsecond, hfirst⟩
    · exact .inr ⟨hfirst, hsecond⟩
    · exact .inl ⟨hfirst, hsecond⟩
  · intro hcases
    rcases hcases with ⟨rfl, rfl⟩ | ⟨rfl, rfl⟩
    · rfl
    · exact of_comm a b

end LightCone
