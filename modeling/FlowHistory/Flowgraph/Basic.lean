import FlowHistory.Digraph

/-!
Flow graphs: blocks of instructions with one entry and at most one exit.

Instructions are numbered through all blocks, in the order of the blocks. A block that was added to
give the graph its single entry or exit is marked as synthetic and holds no instructions.
-/
namespace FlowHistory

structure Block where
  /-- number of the first instruction -/
  first : Nat
  instructions : List Instruction
  synthetic : Bool
  deriving DecidableEq, Repr

namespace Block

def size (b : Block) : Nat := b.instructions.length

def isEmpty (b : Block) : Bool := b.instructions.isEmpty

/-- The numbered instructions, in program order. -/
def sites (b : Block) : List Site :=
  (b.instructions.zipIdx b.first).map fun p => ⟨p.2, p.1⟩

def locals (b : Block) : List Local := b.instructions.flatMap Instruction.locals

/-- The number of instructions of several blocks. -/
def total : List Block → Nat
  | [] => 0
  | b :: rest => b.size + total rest

@[simp] theorem total_append (l m : List Block) : total (l ++ m) = total l + total m := by
  induction l with
  | nil => simp [total]
  | cons b l ih => simp [total, ih, Nat.add_assoc]

/-- The number of the block, then one line per instruction. -/
def render (b : Block) (id : Nat) : String :=
  String.join ((renderBlockId id ++ ":") :: b.instructions.map fun i => "\n  " ++ i.render)

end Block

structure Flowgraph where
  graph : Digraph Block
  entry : Nat
  exit : Option Nat
  /-- the locals declared for the program or mentioned by an instruction -/
  locals : LocalSet

namespace Flowgraph

def blocks (g : Flowgraph) : List Block := g.graph.nodes
def blockCount (g : Flowgraph) : Nat := g.graph.nodeCount
def edgeCount (g : Flowgraph) : Nat := g.graph.edgeCount
def blockIds (g : Flowgraph) : List Nat := g.graph.ids
def successors (g : Flowgraph) (b : Nat) : List Nat := g.graph.successors b
def predecessors (g : Flowgraph) (b : Nat) : List Nat := g.graph.predecessors b
def block? (g : Flowgraph) (b : Nat) : Option Block := g.graph.node? b

def block (g : Flowgraph) (b : Nat) : Except Fault Block :=
  match g.block? b with
  | some block => .ok block
  | none => .error (.unknownBlock b g.blockCount)

/-- All numbered instructions, in block order. -/
def sites (g : Flowgraph) : List Site := g.blocks.flatMap Block.sites

def instructionCount (g : Flowgraph) : Nat := Block.total g.blocks

def site? (g : Flowgraph) (id : Nat) : Option Site := g.sites.find? fun s => s.id == id

/-- The site at a position of a block. -/
def siteAt? (g : Flowgraph) (b index : Nat) : Option Site :=
  (g.block? b).bind fun block => block.sites[index]?

/-- The blocks whose result flows into `b`. -/
def sources (g : Flowgraph) : Direction → Nat → List Nat
  | .forward, b => g.predecessors b
  | .backward, b => g.successors b

/-- The blocks into which the result of `b` flows. -/
def targets (g : Flowgraph) : Direction → Nat → List Nat
  | .forward, b => g.successors b
  | .backward, b => g.predecessors b

/-- The block where an analysis of the given direction starts: the only one without sources. -/
def boundary (g : Flowgraph) (d : Direction) : Except Fault Nat :=
  match g.blockIds.filter fun b => (g.sources d b).isEmpty with
  | [] => .error (.noBoundary d)
  | [b] => .ok b
  | several => .error (.severalBoundaries d several.length)

end Flowgraph

/-- Marks on instructions, by number. -/
structure Breakpoints where
  marks : List Bool
  deriving DecidableEq, Repr

namespace Breakpoints

/-- No marks on the instructions of `g`. -/
def unset (g : Flowgraph) : Breakpoints := ⟨List.replicate g.instructionCount false⟩

def isSet (b : Breakpoints) (id : Nat) : Bool := b.marks[id]?.getD false

/-- Sets or clears a mark. -/
def put (b : Breakpoints) (id : Nat) (mark : Bool) : Except Fault Breakpoints :=
  if id < b.marks.length then .ok ⟨b.marks.set id mark⟩
  else .error (.unknownInstruction id b.marks.length)

/-- Flips a mark, if there is such an instruction, and gives the new setting. -/
def toggle? (b : Breakpoints) (id : Nat) : Option (Bool × Breakpoints) :=
  (b.marks[id]?).map fun mark => (!mark, ⟨b.marks.set id (!mark)⟩)

/-- The marked instructions in ascending order. -/
def toList (b : Breakpoints) : List Nat := (List.range b.marks.length).filter b.isSet

end Breakpoints

end FlowHistory
