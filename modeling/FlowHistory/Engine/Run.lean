import FlowHistory.Analysis.Catalogue
import FlowHistory.Engine.Step

/-!
Runs from the start to the fixpoint.

The number of elementary steps is bounded in advance: a result can grow only as often as the values
of its locals can, each growth and each first visit puts a block's targets on the worklist once, and
a visit takes at most as many steps as there are instructions, or one.
-/
namespace FlowHistory

/-- The order in which waiting blocks are visited. -/
structure Config where
  policy : Policy
  seed : Option UInt64
  deriving DecidableEq, Repr

def Config.worklist (c : Config) : Worklist := .create c.policy c.seed

/-- How a run ended: at the fixpoint, with a fault, or before either. -/
inductive Ending where
  | settled
  | failed (f : Fault)
  | unfinished
  deriving DecidableEq, Repr

namespace Analysis

variable {V : Type}

/-- More elementary steps than a run on `g` can take. -/
def budget (a : Analysis V) (g : Flowgraph) : Nat :=
  let growths := (a.locals g).toList.length * a.height g.instructionCount
  (1 + (growths + 1) * g.edgeCount) * (g.instructionCount + 1) + 1

end Analysis

namespace Engine

variable {V : Type} [DecidableEq V] [LatticeValue V]

/-- Takes at most the given number of steps, and gives the last state with the way it ended. -/
def drive : Nat → Engine V → Engine V × Ending
  | 0, e => (e, .unfinished)
  | n + 1, e =>
    match e.step with
    | .recorded e' => drive n e'
    | .settled => (e, .settled)
    | .failed f => (e, .failed f)

end Engine

/-- A run with all that it recorded, also if it failed. -/
structure Run (V : Type) where
  engine : Engine V
  ending : Ending

namespace Run

variable {V : Type} [DecidableEq V] [LatticeValue V]

/-- The run whose visits are ordered by a list that is empty at first. -/
def ofQueue (p : Problem V) (queue : Worklist) : Run V :=
  let (engine, ending) := (Engine.start p queue).drive (p.analysis.budget p.graph)
  ⟨engine, ending⟩

def ofProblem (p : Problem V) (c : Config) : Run V := ofQueue p c.worklist

def outcome (r : Run V) : Except Fault (History V) :=
  match r.ending with
  | .failed f => .error f
  | _ => .ok r.engine.history

end Run

namespace Analysis

variable {V : Type} [DecidableEq V] [LatticeValue V]

/-- Runs an analysis on a graph, in the order of a list that is empty at first, and gives the
history of the run. -/
def runFrom (a : Analysis V) (g : Flowgraph) (queue : Worklist) : Except Fault (History V) := do
  let p ← Problem.create a g
  (Run.ofQueue p queue).outcome

def run (a : Analysis V) (g : Flowgraph) (c : Config) : Except Fault (History V) :=
  a.runFrom g c.worklist

end Analysis

/-- Runs every analysis on a graph, in their order. -/
def analyzeAll (g : Flowgraph) (c : Config) :
    List ((k : AnalysisKind) × Except Fault (History k.Value)) :=
  AnalysisKind.all.map fun k => ⟨k, k.analysis.run g c⟩

end FlowHistory
