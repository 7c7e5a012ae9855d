import FlowHistory.Fault

/-!
The control block that a run shares with those who steer it.

A run calculates or is paused until it has completed, been stopped or failed. Clients pause, continue
and stop it; the worker asks at a checkpoint before every step, counts its steps, and in the end
publishes its result or reports its fault.
-/
namespace FlowHistory

structure Controller (α : Type) where
  state : Lifecycle
  published : Publication
  result? : Option α
  fault? : Option Fault
  progress : Nat
  deriving DecidableEq, Repr

inductive Command where
  | pause | resume | stop
  deriving DecidableEq, Repr

/-- What a worker is told at a checkpoint. -/
inductive Verdict where
  | proceed | wait | halt
  deriving DecidableEq, Repr

namespace Controller

variable {α : Type}

def start : Controller α := ⟨.calculating, .noResult, none, none, 0⟩

/-- Suspends the run before its next step; a completed run is left as it is. -/
def pause (c : Controller α) : Except Fault (Controller α) :=
  match c.state with
  | .calculating | .paused => .ok { c with state := .paused }
  | .completed => .ok c
  | .stopped | .failed => .error (.cannotPause c.state)

/-- Lets a paused run go on; a calculating or completed run is left as it is. -/
def resume (c : Controller α) : Except Fault (Controller α) :=
  match c.state with
  | .paused => .ok { c with state := .calculating }
  | .calculating | .completed => .ok c
  | .stopped | .failed => .error (.cannotContinue c.state)

/-- Ends the run before its next step; a stopped run is left as it is. -/
def stop (c : Controller α) : Except Fault (Controller α) :=
  match c.state with
  | .calculating | .paused => .ok { c with state := .stopped }
  | .stopped => .ok c
  | .completed | .failed => .error (.cannotStop c.state)

def obey (c : Controller α) : Command → Except Fault (Controller α)
  | .pause => c.pause
  | .resume => c.resume
  | .stop => c.stop

/-- The result, or the fault that ended the run. -/
def result (c : Controller α) : Except Fault α :=
  match c.fault?, c.result? with
  | some f, _ => .error f
  | none, some a => .ok a
  | none, none => .error .nothingPublished

/-- What a client that waits is given; nothing as long as there is neither a result nor a fault. -/
def wait (c : Controller α) : Option (Except Fault α) :=
  if c.result?.isNone && c.fault?.isNone then none else some c.result

/-- Whether the worker may take another step. -/
def checkpoint (c : Controller α) : Verdict :=
  match c.state with
  | .calculating => .proceed
  | .paused => .wait
  | .completed | .stopped | .failed => .halt

/-- Counts a recorded step. -/
def advance (c : Controller α) : Controller α := { c with progress := c.progress + 1 }

/-- Publishes the result of the worker, as an intermediate one if the run was stopped. -/
def publish (c : Controller α) (a : α) : Except Fault (Controller α) :=
  match c.result? with
  | some _ => .error .alreadyPublished
  | none =>
    if c.state = .stopped then .ok { c with published := .intermediate, result? := some a }
    else .ok { c with state := .completed, published := .final, result? := some a }

/-- Reports the fault that ended the run. -/
def fail (c : Controller α) (f : Fault) : Controller α :=
  { c with state := .failed, fault? := some f }

def render (c : Controller α) : String :=
  "Controller \x7b state: " ++ c.state.render ++ ", result_state: " ++ c.published.render ++
    ", progress: " ++ toString c.progress ++ " \x7d"

end Controller

end FlowHistory
