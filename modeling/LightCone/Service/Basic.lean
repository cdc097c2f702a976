import LightCone.Service.Batch

/-!
The timing service.

A service is its environment together with its memory. This file

1. opens a service with settings that pass their check, and empty memory (`Service.start`);
2. changes its clock and its directory from outside;
3. runs jobs in it (`Service.perform`).
-/
namespace LightCone

structure Service where
  env : Environment
  memory : Memory

namespace Service

/-- A service over a directory, at a time; fails for settings that it cannot run with. -/
def start (settings : Settings) (directory : Directory) (access : Access) (now : Instant)
    (metrics : Option Metrics) : Except Fault Service :=
  match settings.check with
  | .ok () => .ok ⟨⟨settings, directory, access, now⟩, .initial settings metrics⟩
  | .error fault => .error (.configuration fault.message)

def settings (s : Service) : Settings := s.env.settings

def now (s : Service) : Instant := s.env.now

def setNow (s : Service) (now : Instant) : Service := { s with env := { s.env with now := now } }

def setDirectory (s : Service) (directory : Directory) : Service :=
  { s with env := { s.env with directory := directory } }

def upsert (s : Service) (node : Node) : Except Fault (Option Node × Service) :=
  match s.env.directory.upsert node with
  | .ok (previous, directory) => .ok (previous, s.setDirectory directory)
  | .error fault => .error fault

def remove (s : Service) (id : String) : Option Node × Service :=
  let (previous, directory) := s.env.directory.remove id
  (previous, s.setDirectory directory)

def setActive (s : Service) (id : String) (active : Bool) (seen : Instant) : Bool × Service :=
  let (known, directory) := s.env.directory.setActive id active seen
  (known, s.setDirectory directory)

def count (s : Service) (e : Event) : Service := { s with memory := s.memory.count e }

def perform {α : Type} (s : Service) (job : Job α) : α × Service :=
  let (value, memory) := job.run s.env s.memory
  (value, { s with memory := memory })

def performWithin {α : Type} (s : Service) (deadline : Duration) (job : Job α) :
    Option α × Service :=
  let (value, memory) := job.runWithin s.env deadline s.memory
  (value, { s with memory := memory })

def performAll {κ ν : Type} [Key κ] [DecidableEq κ] (s : Service) (jobs : Pool κ ν) (most : Nat)
    (cancel : Cancellation) : BatchRun κ ν × Service :=
  let (batch, memory) := fanOut s.env jobs most cancel s.memory
  (batch, { s with memory := memory })

/-- The shares of lookups that hit. -/
def hitRatio (s : Service) (kind : CacheKind) : Binary64 := s.memory.tally.hitRatio kind

end Service
end LightCone
