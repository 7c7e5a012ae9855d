import FlowHistory.Flowgraph.Basic

/-!
Flow graphs in the making: blocks, edges and declarations are added one by one, and `build` brings
the result to a single entry and at most one exit.
-/
namespace FlowHistory

structure Draft where
  graph : Digraph Block
  declared : List Local

namespace Draft

def empty : Draft := ⟨Digraph.empty, []⟩

def instructionCount (d : Draft) : Nat := Block.total d.graph.nodes

/-- The number that the next block gets. -/
def nextBlock (d : Draft) : Nat := d.graph.nodeCount

/-- Adds a block, whose instructions are numbered on from those before. -/
def addBlock (d : Draft) (instructions : List Instruction) : Draft :=
  { d with graph := d.graph.addNode ⟨d.instructionCount, instructions, false⟩ }

/-- Adds an edge, unless it is there already. -/
def addEdge (d : Draft) (source target : Nat) : Except Fault Draft := do
  let (graph, _) ← d.graph.addEdge source target
  return { d with graph }

def declare (d : Draft) (x : Local) : Draft := { d with declared := d.declared ++ [x] }

/-- Blocks without predecessors, in order. -/
def entries (d : Draft) : List Nat := d.graph.ids.filter fun b => d.graph.inDegree b == 0

/-- Blocks without successors, in order. -/
def exits (d : Draft) : List Nat := d.graph.ids.filter fun b => d.graph.outDegree b == 0

/-- The empty block that is put before several entries or after several exits. -/
def syntheticBlock (d : Draft) : Block := ⟨d.instructionCount, [], true⟩

/-- The graph and its entry, put before the blocks `several` if there is more than one. -/
def enter (graph : Digraph Block) (extra : Block) : List Nat → Except Fault (Digraph Block × Nat)
  | [] => .error .noEntry
  | [b] => .ok (graph, b)
  | several => .ok (graph.addSource extra several, graph.nodeCount)

/-- The graph and its exit, put after the blocks `several` if there is more than one. -/
def leave (graph : Digraph Block) (extra : Block) : List Nat → Digraph Block × Option Nat
  | [] => (graph, none)
  | [b] => (graph, some b)
  | several => (graph.addSink extra several, some graph.nodeCount)

/-- Normalises the graph. Which blocks are entries and exits is settled before any block is added,
and a new entry is numbered before a new exit. -/
def build (d : Draft) : Except Fault Flowgraph :=
  if d.graph.isEmpty then .error .noBlocks
  else do
    let (graph, entry) ← enter d.graph d.syntheticBlock d.entries
    let (graph, exit) := leave graph d.syntheticBlock d.exits
    return ⟨graph, entry, exit, LocalSet.ofList (d.declared ++ d.graph.nodes.flatMap Block.locals)⟩

end Draft

end FlowHistory
