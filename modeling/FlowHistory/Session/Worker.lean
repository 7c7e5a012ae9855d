import FlowHistory.Engine.Run
import FlowHistory.Session.Controller

/-!
A run steered while it goes on.

The worker alternates between a checkpoint, one elementary step of its own, and counting that step;
each of these is one tick. Commands of clients can come before the worker is started and between any
two ticks, so the states that a session can reach are those of all interleavings of the two.
-/
namespace FlowHistory

/-- What the worker does next, with what it has recorded so far. -/
inductive Worker (V : Type) where
  | idle
  | checking (e : Engine V)
  | stepping (e : Engine V)
  | counting (e : Engine V)
  | publishing (h : History V)
  | failing (f : Fault)
  | finished (outcome : Except Fault (History V))

structure Session (V : Type) where
  analysis : Analysis V
  graph : Flowgraph
  /-- the list that orders the visits, empty at first -/
  queue : Worklist
  controller : Controller (History V)
  worker : Worker V

namespace Session

variable {V : Type}

/-- A session whose visits are ordered by a list that is empty at first. -/
def ofQueue (a : Analysis V) (g : Flowgraph) (queue : Worklist) : Session V :=
  ⟨a, g, queue, .start, .idle⟩

def create (a : Analysis V) (g : Flowgraph) (c : Config) : Session V := ofQueue a g c.worklist

/-- Starts the worker, which first prepares its run and reports a fault of that at once. -/
def launch (s : Session V) : Session V :=
  match s.worker with
  | .idle =>
    match Problem.create s.analysis s.graph with
    | .ok p => { s with worker := .checking (.start p s.queue) }
    | .error f => { s with worker := .failing f }
  | _ => s

/-- A command of a client. -/
def command (s : Session V) (c : Command) : Except Fault (Session V) := do
  let controller ← s.controller.obey c
  return { s with controller }

/-- The worker waits at its checkpoint for a paused run to go on. -/
def isSuspended (s : Session V) : Bool :=
  match s.worker with
  | .checking _ => s.controller.checkpoint == .wait
  | _ => false

def isFinished (s : Session V) : Bool :=
  match s.worker with
  | .finished _ => true
  | _ => false

def isIdle (s : Session V) : Bool :=
  match s.worker with
  | .idle => true
  | _ => false

/-- The worker can do something. -/
def canTick (s : Session V) : Bool := !s.isIdle && !s.isFinished && !s.isSuspended

variable [DecidableEq V] [LatticeValue V]

/-- One action of the worker. -/
def tick (s : Session V) : Session V :=
  match s.worker with
  | .idle | .finished _ => s
  | .checking e =>
    match s.controller.checkpoint with
    | .proceed => { s with worker := .stepping e }
    | .wait => s
    | .halt => { s with worker := .publishing e.history }
  | .stepping e =>
    match e.step with
    | .recorded e => { s with worker := .counting e }
    | .settled => { s with worker := .publishing e.history }
    | .failed f => { s with worker := .failing f }
  | .counting e => { s with controller := s.controller.advance, worker := .checking e }
  | .publishing h =>
    match s.controller.publish h with
    | .ok controller => { s with controller, worker := .finished (.ok h) }
    | .error f => { s with worker := .finished (.error f) }
  | .failing f => { s with controller := s.controller.fail f, worker := .finished (.error f) }

/-- What can happen next in a session. -/
inductive Action where
  | launch
  | work
  | order (c : Command)
  deriving DecidableEq, Repr

/-- The start of the worker, a tick of it, or a command; a refused command changes nothing. -/
def act (s : Session V) : Action → Session V
  | .launch => s.launch
  | .work => s.tick
  | .order c =>
    match s.command c with
    | .ok s' => s'
    | .error _ => s

/-- An interleaving of what the worker does and of commands. -/
def actAll (s : Session V) (actions : List Action) : Session V := actions.foldl act s

/-- More ticks than a worker can make. -/
def tickBudget (s : Session V) : Nat := 3 * s.analysis.budget s.graph + 4

end Session

end FlowHistory
