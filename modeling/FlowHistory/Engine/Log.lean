import FlowHistory.Engine.Run

/-!
The log of a run, read off what the run recorded: a line for each block visited, for each
instruction executed, and for the way the run ended.
-/
namespace FlowHistory

/-- Severities, the most severe first. -/
inductive Level where
  | error | warn | info | debug | trace
  deriving DecidableEq, Repr

namespace Level

def rank : Level → Nat
  | .error => 0
  | .warn => 1
  | .info => 2
  | .debug => 3
  | .trace => 4

def render : Level → String
  | .error => "ERROR"
  | .warn => "WARN"
  | .info => "INFO"
  | .debug => "DEBUG"
  | .trace => "TRACE"

/-- Whether a log kept at level `l` has the messages of level `m`. -/
def admits (l m : Level) : Bool := m.rank ≤ l.rank

end Level

inductive Event (V : Type) where
  | visit (blockStep block pending : Nat)
  | applied (block : Nat) (site : Site) (after : Env V)
  | completed (steps blockSteps : Nat)
  | failed (f : Fault)

namespace Event

variable {V : Type}

def level : Event V → Level
  | .visit _ _ _ => .debug
  | .applied _ _ _ => .trace
  | .completed _ _ => .info
  | .failed _ => .warn

def text [LatticeValue V] : Event V → String
  | .visit blockStep block pending =>
    "block step " ++ toString blockStep ++ " visits " ++ renderBlockId block ++ " (" ++
      toString pending ++ " pending)"
  | .applied block site after =>
    renderBlockId block ++ " [" ++ toString site.id ++ "] " ++ site.instruction.render ++ " -> " ++
      after.render
  | .completed steps blockSteps =>
    "recorded " ++ toString steps ++ " steps in " ++ toString blockSteps ++ " block steps"
  | .failed f => "precalculation failed: " ++ f.message

/-- The severity, the analysis and the text. -/
def line [LatticeValue V] (name : String) (e : Event V) : String :=
  e.level.render ++ " " ++ name ++ ": " ++ e.text

end Event

namespace History

variable {V : Type}

/-- The number of waiting blocks just before a step. At first the boundary block waits. -/
def waitingBefore (h : History V) (step : Nat) : Nat :=
  match step with
  | 0 => 1
  | s + 1 => ((h.snapshot? s).map fun s => s.worklist.length).getD 0

/-- What is logged of one recorded step: the visit that it begins, if it begins one, and the
instruction that it executed, if it executed one. -/
def stepEvents (h : History V) (step : Nat) : List (Event V) :=
  match h.snapshot? step with
  | none => []
  | some s =>
    let visit := if h.beginsBlock step
      then [.visit (h.blockStepOf step) s.cursor.block (h.waitingBefore step - 1)] else []
    let applied := match h.site? s, s.current? with
      | some site, some state => [.applied s.cursor.block site state.output]
      | _, _ => []
    visit ++ applied

def events (h : History V) : List (Event V) := (List.range h.size).flatMap h.stepEvents

end History

namespace Run

variable {V : Type}

/-- The visit that a failing step began. -/
def failedVisit (r : Run V) : List (Event V) :=
  match r.engine.walk, r.engine.queue.peek with
  | none, some b => [.visit r.engine.blockStarts.size b (r.engine.queue.length - 1)]
  | _, _ => []

/-- The log of a run. -/
def events (r : Run V) : List (Event V) :=
  let h := r.engine.history
  h.events ++ match r.ending with
    | .failed f => r.failedVisit ++ [.failed f]
    | _ => [.completed h.size h.blockStepCount]

end Run

/-- The log of an attempt to run an analysis, which may fail before any step. -/
def Analysis.events {V : Type} [DecidableEq V] [LatticeValue V] (a : Analysis V) (g : Flowgraph)
    (c : Config) : List (Event V) :=
  match Problem.create a g with
  | .error f => [.failed f]
  | .ok p => (Run.ofProblem p c).events

/-- The lines of the log at a level. -/
def Analysis.logLines {V : Type} [DecidableEq V] [LatticeValue V] (a : Analysis V) (g : Flowgraph)
    (c : Config) (l : Level) : List String :=
  ((a.events g c).filter fun e => l.admits e.level).map fun e => e.line a.name

end FlowHistory
