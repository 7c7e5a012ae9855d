import FlowHistory.Env
import FlowHistory.Flowgraph.Basic

/-!
What an analysis consists of, and the states from which it starts.
-/
namespace FlowHistory

/-- An analysis with values in `V`. The number of instructions of the program is passed to the parts
that depend on it. -/
structure Analysis (V : Type) where
  kind : AnalysisKind
  /-- whether a local takes part -/
  tracks : Local → Bool
  /-- the value of a local where control has not arrived -/
  bottom : Local → V
  /-- the value of a local where the analysis starts -/
  fresh : (sites : Nat) → Local → V
  /-- the effect of one instruction -/
  transfer : (sites : Nat) → Site → Env V → Except Fault (Env V)
  /-- how many times a value can grow -/
  height : (sites : Nat) → Nat

/-- The states before and after a block, in the direction of the analysis. -/
structure BlockState (V : Type) where
  input : Env V
  output : Env V
  deriving DecidableEq

namespace Analysis

variable {V : Type}

def direction (a : Analysis V) : Direction := a.kind.direction

def name (a : Analysis V) : String := a.kind.render

/-- The locals of a program that take part. -/
def locals (a : Analysis V) (g : Flowgraph) : LocalSet := g.locals.filter a.tracks

def bottomEnv (a : Analysis V) (g : Flowgraph) : Env V := Env.ofFn (a.locals g) a.bottom

def freshEnv (a : Analysis V) (g : Flowgraph) : Env V :=
  Env.ofFn (a.locals g) (a.fresh g.instructionCount)

/-- The seeded state before a block: fresh at the boundary, nothing elsewhere. -/
def seed (a : Analysis V) (g : Flowgraph) (boundary b : Nat) : Env V :=
  if b = boundary then a.freshEnv g else a.bottomEnv g

/-- One state per block, before the first step. -/
def seededStates (a : Analysis V) (g : Flowgraph) (boundary : Nat) : List (BlockState V) :=
  g.blockIds.map fun b => ⟨a.seed g boundary b, a.bottomEnv g⟩

end Analysis

end FlowHistory
