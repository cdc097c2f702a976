import LightCone.Proofs.WorstDelay

/-!
A service over two nodes, one straight above the other.

It is small enough to be followed by hand, so that what is proved of every run can be seen at
work in one. This file

1. puts the two nodes into a directory (`TwoNodes.ofList_eq`) and opens a service over it with
   the default settings (`TwoNodes.start_eq`);
2. answers its lookups, and follows its first evaluation of a delay and its first timing.
-/
namespace LightCone

/-- The history of asking for the delay of two ids that resolve is its evaluation. -/
theorem Service.history_delay {s : Service} {source target : String} {a b : Node}
    (ha : s.env.answer source = .ok a) (hb : s.env.answer target = .ok b) :
    s.history (.delay source target) = [s.memory.evaluation s.env a b] := by
  simp only [history, jobHistory, delayJob, Job.trace, ha, hb]

namespace TwoNodes

/-- A position above the point of zero degrees north and east. -/
def above (meters : Binary64) (h : meters.isMagnitude = true) : Position :=
  ⟨0, 0, meters, by decide +kernel, by decide +kernel, h⟩

theorem ground_ok : (0 : Binary64).isMagnitude = true := by decide +kernel

/-- The node on the ground. -/
def lower : Node := ⟨"a", above 0 ground_ok, true, .epoch⟩

variable {meters : Binary64} {h : meters.isMagnitude = true}

/-- The node above it. -/
def upper (meters : Binary64) (h : meters.isMagnitude = true) : Node :=
  ⟨"b", above meters h, true, .epoch⟩

theorem high_ok : (20000000 : Binary64).isMagnitude = true := by decide +kernel

theorem finite_ground :
    (lower.position.distance (upper 0 ground_ok).position).isFinite = true := by decide +kernel

theorem finite_high :
    (lower.position.distance (upper 20000000 high_ok).position).isFinite = true := by decide +kernel

def directory (meters : Binary64) (h : meters.isMagnitude = true) : Directory :=
  ⟨(Table.empty.insert "a" lower).insert "b" (upper meters h)⟩

def service (meters : Binary64) (h : meters.isMagnitude = true) : Service :=
  ⟨⟨{}, directory meters h, {}, .epoch⟩, .initial {} none⟩

/-- A service over the two nodes with any settings. -/
def tuned (settings : Settings) (meters : Binary64) (h : meters.isMagnitude = true) : Service :=
  ⟨⟨settings, directory meters h, {}, .epoch⟩, .initial settings none⟩

theorem ofList_eq : Directory.ofList [lower, upper meters h] = .ok (directory meters h) := by
  have hlower : blankText lower.id = false := by decide +kernel
  have hupper : blankText "b" = false := by decide +kernel
  simp only [Directory.ofList, Directory.upsertAll, Directory.upsert, hlower, upper, hupper]
  rfl

theorem check_defaults : Settings.check {} = .ok () :=
  Settings.check_eq_ok_iff.mpr (by constructor <;> decide +kernel)

theorem start_tuned {settings : Settings} (hcheck : settings.check = .ok ()) :
    Service.start settings (directory meters h) {} .epoch none = .ok (tuned settings meters h) := by
  rw [Service.start, hcheck]
  rfl

theorem start_eq :
    Service.start {} (directory meters h) {} .epoch none = .ok (service meters h) :=
  start_tuned check_defaults

theorem answer_lower : (service meters h).env.answer "a" = .ok lower := rfl

theorem answer_upper : (service meters h).env.answer "b" = .ok (upper meters h) := rfl

/-- The first evaluation is computed. -/
theorem evaluate_first (hfinite : (lower.position.distance (upper meters h).position).isFinite = true) :
    ∃ computed, ((service meters h).memory.evaluate (service meters h).env lower (upper meters h)).1 =
      .ok (Memory.answerStored lower (upper meters h) computed false) :=
  ⟨_, Memory.evaluate_of_missing rfl hfinite⟩

variable {settings : Settings}

theorem keyed : (tuned settings meters h).env.Keyed :=
  Environment.keyed_of_directory (Directory.Keyed.ofList ofList_eq)

theorem resolved_eq : (tuned settings meters h).env.resolved (distinctIds ["a", "b"]) =
    [lower, upper meters h] := by
  have hids : distinctIds ["a", "b"] = ["a", "b"] := by decide +kernel
  rw [hids]
  rfl

/-- The timing of the two nodes is derived from the delay between them. -/
theorem consensusTiming_tuned (settings : Settings)
    (hfinite : (lower.position.distance (upper meters h).position).isFinite = true) :
    ((tuned settings meters h).consensusTiming ["a", "b"]).1 =
      .ok (.derive ((tuned settings meters h).env.longestBetween .zero [(lower, upper meters h)]) 2
        (fingerprint ["a", "b"]) .epoch settings.consensus) := by
  rw [consensusTiming_eq_ok_iff rfl (Memory.faithful_initial _ _ _ _) keyed, resolved_eq]
  refine ⟨Nat.le_refl 2, ?_, rfl⟩
  intro p hp
  rw [List.mem_singleton.mp hp]
  exact hfinite

theorem consensusTiming_ok
    (hfinite : (lower.position.distance (upper meters h).position).isFinite = true) :
    ((service meters h).consensusTiming ["a", "b"]).1 =
      .ok (.derive ((service meters h).env.longestBetween .zero [(lower, upper meters h)]) 2
        (fingerprint ["a", "b"]) .epoch {}) :=
  consensusTiming_tuned {} hfinite

end TwoNodes
end LightCone
