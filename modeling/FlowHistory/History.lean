import FlowHistory.Analysis.Basic

/-!
Recorded runs: a snapshot after every elementary step, and the steps at which blocks were entered.
-/
namespace FlowHistory

/-- How a block stands at a moment of a run. -/
inductive Color where
  | current | notVisited | onWorklist | visited
  deriving DecidableEq, Repr

namespace Color

def all : List Color := [.current, .notVisited, .onWorklist, .visited]

def render : Color → String
  | .current => "Current"
  | .notVisited => "NotVisited"
  | .onWorklist => "OnWorklist"
  | .visited => "VisitedNotOnWorklist"

end Color

/-- A block and a position in it, in program order. -/
structure Cursor where
  block : Nat
  index : Nat
  deriving DecidableEq, Repr

/-- Everything about a run after one elementary step. -/
structure Snapshot (V : Type) where
  worklist : List Nat
  colors : List Color
  states : List (BlockState V)
  cursor : Cursor
  deriving DecidableEq

namespace Snapshot

variable {V : Type}

def color? (s : Snapshot V) (b : Nat) : Option Color := s.colors[b]?

def state? (s : Snapshot V) (b : Nat) : Option (BlockState V) := s.states[b]?

/-- The states of the block under the cursor. -/
def current? (s : Snapshot V) : Option (BlockState V) := s.state? s.cursor.block

end Snapshot

structure History (V : Type) where
  kind : AnalysisKind
  graph : Flowgraph
  snapshots : Array (Snapshot V)
  /-- first elementary step of each block step -/
  blockStarts : Array Nat

namespace History

variable {V : Type}

/-- The number of elementary steps. -/
def size (h : History V) : Nat := h.snapshots.size

def isEmpty (h : History V) : Bool := h.snapshots.isEmpty

def blockStepCount (h : History V) : Nat := h.blockStarts.size

def snapshot? (h : History V) (step : Nat) : Option (Snapshot V) := h.snapshots[step]?

def last? (h : History V) : Option (Snapshot V) := h.snapshots.back?

def blockStart? (h : History V) (blockStep : Nat) : Option Nat := h.blockStarts[blockStep]?

/-- The block step that an elementary step belongs to: the last one that starts no later. -/
def blockStepOf (h : History V) (step : Nat) : Nat :=
  (h.blockStarts.toList.takeWhile (· ≤ step)).length - 1

/-- Whether a step is the first of its block step. -/
def beginsBlock (h : History V) (step : Nat) : Bool :=
  h.blockStart? (h.blockStepOf step) == some step

/-- The instruction that a step executed; a step of an empty block executed none. -/
def site? (h : History V) (s : Snapshot V) : Option Site :=
  h.graph.siteAt? s.cursor.block s.cursor.index

end History

end FlowHistory
