import FlowHistory.History
import FlowHistory.Worklist

/-!
The fixpoint iteration, one elementary step at a time.

A block step takes a block off the worklist, joins the results of the blocks that flow into it, and
walks its instructions in the direction of the analysis; each instruction is one elementary step, and
so is an empty block. When the last instruction leaves a result that differs from the one before, or
on the first visit, the blocks that it flows into are put on the worklist. Every elementary step adds
a snapshot to the record.
-/
namespace FlowHistory

/-- An analysis of a graph, with the block where it starts. -/
structure Problem (V : Type) where
  analysis : Analysis V
  graph : Flowgraph
  boundary : Nat

namespace Problem

variable {V : Type}

def create (a : Analysis V) (g : Flowgraph) : Except Fault (Problem V) := do
  let boundary ← g.boundary a.direction
  return ⟨a, g, boundary⟩

def direction (p : Problem V) : Direction := p.analysis.direction

def sources (p : Problem V) (b : Nat) : List Nat := p.graph.sources p.direction b

def targets (p : Problem V) (b : Nat) : List Nat := p.graph.targets p.direction b

def apply (p : Problem V) (s : Site) (e : Env V) : Except Fault (Env V) :=
  p.analysis.transfer p.graph.instructionCount s e

/-- The instructions of a block in the order in which they are walked, each with its position. -/
def walkOrder (p : Problem V) (b : Block) : List (Nat × Site) :=
  let inOrder := b.sites.zipIdx.map fun q => (q.2, q.1)
  match p.direction with
  | .forward => inOrder
  | .backward => inOrder.reverse

/-- The state before a block, with the states of all blocks given: seeded if nothing flows into it,
else the join of what does. -/
def inputOf [LatticeValue V] (p : Problem V) (states : List (BlockState V)) (b : Nat) :
    Except Fault (Env V) :=
  match p.sources b with
  | [] => .ok (p.analysis.seed p.graph p.boundary b)
  | sources => Env.joinAll ((sources.filterMap fun s => states[s]?).map BlockState.output)

end Problem

/-- A block step under way. -/
structure Walk (V : Type) where
  block : Nat
  input : Env V
  /-- result of the block before this visit -/
  before : Env V
  firstVisit : Bool
  /-- the state after the instructions walked so far -/
  current : Env V
  /-- the instruction that comes next -/
  next : Nat × Site
  /-- the instructions after it -/
  rest : List (Nat × Site)

/-- The state of the iteration, with all that has been recorded. -/
structure Engine (V : Type) where
  problem : Problem V
  states : List (BlockState V)
  visited : List Bool
  queue : Worklist
  walk : Option (Walk V)
  snapshots : Array (Snapshot V)
  blockStarts : Array Nat

/-- What one elementary step comes to. -/
inductive Step (V : Type) where
  | recorded (e : Engine V)
  | settled
  | failed (f : Fault)

namespace Engine

variable {V : Type}

/-- The seeded states, with only the boundary block waiting. -/
def start (p : Problem V) (queue : Worklist) : Engine V where
  problem := p
  states := p.analysis.seededStates p.graph p.boundary
  visited := p.graph.blockIds.map fun _ => false
  queue := (queue.add p.boundary).2
  walk := none
  snapshots := #[]
  blockStarts := #[]

def history (e : Engine V) : History V :=
  ⟨e.problem.analysis.kind, e.problem.graph, e.snapshots, e.blockStarts⟩

def colorOf (e : Engine V) (current b : Nat) : Color :=
  if b = current then .current
  else if e.queue.contains b then .onWorklist
  else if e.visited[b]?.getD false then .visited
  else .notVisited

/-- Adds a snapshot of the present state. -/
def record (e : Engine V) (cursor : Cursor) : Engine V :=
  let snapshot : Snapshot V :=
    ⟨e.queue.toList, e.problem.graph.blockIds.map (e.colorOf cursor.block), e.states, cursor⟩
  { e with snapshots := e.snapshots.push snapshot }

/-- Stores the states of a block, and with a new final result puts its targets on the worklist. -/
def store (e : Engine V) (b : Nat) (s : BlockState V) (renewed : Bool) : Engine V :=
  { e with
    states := e.states.set b s
    queue := if renewed then e.queue.addAll (e.problem.targets b) else e.queue }

variable [DecidableEq V]

/-- Executes the next instruction of a block step. -/
def advance (e : Engine V) (w : Walk V) : Step V :=
  match e.problem.apply w.next.2 w.current with
  | .error f => .failed f
  | .ok current =>
    let renewed := w.rest.isEmpty && (w.firstVisit || current != w.before)
    let stored := (e.store w.block ⟨w.input, current⟩ renewed).record ⟨w.block, w.next.1⟩
    match w.rest with
    | [] => .recorded { stored with walk := none }
    | next :: rest => .recorded { stored with walk := some { w with current, next, rest } }

variable [LatticeValue V]

/-- Begins the visit of a block taken off the worklist. -/
def enter (e : Engine V) (b : Nat) (queue : Worklist) : Step V :=
  match e.problem.graph.block b with
  | .error f => .failed f
  | .ok block =>
    match e.problem.inputOf e.states b with
    | .error f => .failed f
    | .ok input =>
      let firstVisit := !(e.visited[b]?.getD false)
      let before := ((e.states[b]?).map BlockState.output).getD input
      let entered := { e with
        queue
        visited := e.visited.set b true
        blockStarts := e.blockStarts.push e.snapshots.size }
      match e.problem.walkOrder block with
      | [] =>
        let renewed := firstVisit || input != before
        .recorded ((entered.store b ⟨input, input⟩ renewed).record ⟨b, 0⟩)
      | next :: rest =>
        entered.advance
          { block := b, input, before, firstVisit, current := input, next, rest }

/-- One elementary step: the next instruction of the block step under way, or the first one of the
next waiting block. -/
def step (e : Engine V) : Step V :=
  match e.walk with
  | some w => e.advance w
  | none =>
    match e.queue.poll with
    | none => .settled
    | some (b, queue) => e.enter b queue

end Engine

end FlowHistory
