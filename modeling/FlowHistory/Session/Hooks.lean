import FlowHistory.Session.Worker

/-!
Sessions with commands that are due at given moments.

A hook names a command and a number; the command is given right after that many instructions have
been executed, before the worker's next checkpoint. The worker goes on by itself until it has
finished or is suspended.
-/
namespace FlowHistory

structure Hook where
  due : Nat
  command : Command
  deriving DecidableEq, Repr

structure Steering (V : Type) where
  session : Session V
  hooks : List Hook
  /-- instructions executed so far -/
  executed : Nat
  /-- hooks in the order in which they were given, each with its refusal if it was refused -/
  fired : List (Hook × Option Fault)

namespace Steering

variable {V : Type}

def create (s : Session V) (hooks : List Hook) : Steering V := ⟨s, hooks, 0, []⟩

/-- Gives the command of a hook; a refused command changes nothing. -/
def fire (t : Steering V) (h : Hook) : Steering V :=
  match t.session.command h.command with
  | .ok session => { t with session, fired := t.fired ++ [(h, none)] }
  | .error f => { t with fired := t.fired ++ [(h, some f)] }

/-- Whether the last recorded step executed an instruction. -/
def executedLast (e : Engine V) : Bool :=
  match e.snapshots.back? with
  | some s => (e.history.site? s).isSome
  | none => false

/-- Counts an instruction that was executed and gives the commands that are now due. -/
def fireDue (t : Steering V) : Steering V :=
  match t.session.worker with
  | .counting e =>
    if executedLast e then
      let executed := t.executed + 1
      (t.hooks.filter fun h => h.due == executed).foldl fire { t with executed }
    else t
  | _ => t

variable [DecidableEq V] [LatticeValue V]

/-- One action of the worker, followed by the commands that it makes due. -/
def tick (t : Steering V) : Steering V :=
  { t with session := t.session.tick }.fireDue

/-- Lets the worker go on, for at most the given number of ticks. -/
def settle : Nat → Steering V → Steering V
  | 0, t => t
  | n + 1, t => if t.session.canTick then settle n t.tick else t

/-- Lets the worker go on until it has finished or is suspended. -/
def proceed (t : Steering V) : Steering V := t.settle t.session.tickBudget

/-- Starts the worker. -/
def launch (t : Steering V) : Steering V :=
  { t with session := t.session.launch }.proceed

/-- A command of a client. -/
def command (t : Steering V) (c : Command) : Except Fault (Steering V) := do
  let session ← t.session.command c
  return { t with session }.proceed

end Steering

end FlowHistory
