import LightCone.Text.Digits

/-!
Quorums and the faults they survive.

Of `n` validators up to `(n - 1) / 3` may lie and up to `(n - 1) / 2` may stop; a quorum is two
thirds of them, rounded down, and at least one. Numbers are 64-bit words: doubling past the
largest word gives the largest word.
-/
namespace LightCone

/-- What a set of validators can absorb. -/
structure FaultTolerance where
  total : Nat
  byzantine : Nat
  crash : Nat
  quorum : Nat
  deriving DecidableEq

/-- Twice a number, held to 64 bits. -/
def doubledWord (n : Nat) : Nat := min (n * 2) (wordLimit - 1)

namespace FaultTolerance

def of (n : Nat) : FaultTolerance where
  total := n
  byzantine := (n - 1) / 3
  crash := (n - 1) / 2
  quorum := min (max (doubledWord n / 3) 1) (max n 1)

def toleratesByzantine (t : FaultTolerance) (faulty : Nat) : Bool := faulty ≤ t.byzantine

def hasQuorum (t : FaultTolerance) (votes : Nat) : Bool := t.quorum ≤ votes

end FaultTolerance
end LightCone
