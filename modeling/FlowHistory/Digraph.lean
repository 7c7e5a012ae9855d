import FlowHistory.Fault

/-!
Directed graphs with labelled nodes and at most one edge from a node to another.

Nodes are numbered from zero in the order in which they are added. The edges are kept as one list in
the order in which they are added, and the neighbours of a node are read off it; so the two views of
an edge, from its source and from its target, cannot disagree.
-/
namespace FlowHistory

structure Digraph (α : Type) where
  nodes : List α
  edges : List (Nat × Nat)
  deriving DecidableEq, Repr

namespace Digraph

variable {α : Type}

def empty : Digraph α := ⟨[], []⟩

def nodeCount (g : Digraph α) : Nat := g.nodes.length

def edgeCount (g : Digraph α) : Nat := g.edges.length

def isEmpty (g : Digraph α) : Bool := g.nodes.isEmpty

def node? (g : Digraph α) (n : Nat) : Option α := g.nodes[n]?

def ids (g : Digraph α) : List Nat := List.range g.nodeCount

/-- Adds a node; its number is the number of nodes before. -/
def addNode (g : Digraph α) (a : α) : Digraph α := { g with nodes := g.nodes ++ [a] }

def hasEdge (g : Digraph α) (source target : Nat) : Bool := (source, target) ∈ g.edges

/-- Adds an edge and says whether it is new. The source is looked up before the target. -/
def addEdge (g : Digraph α) (source target : Nat) : Except Fault (Digraph α × Bool) :=
  if g.nodeCount ≤ source then .error (.unknownEdgeEnd .source source g.nodeCount)
  else if g.nodeCount ≤ target then .error (.unknownEdgeEnd .target target g.nodeCount)
  else if g.hasEdge source target then .ok (g, false)
  else .ok ({ g with edges := g.edges ++ [(source, target)] }, true)

/-- Adds a node with edges to the given nodes. -/
def addSource (g : Digraph α) (a : α) (targets : List Nat) : Digraph α :=
  ⟨g.nodes ++ [a], g.edges ++ targets.map fun t => (g.nodeCount, t)⟩

/-- Adds a node with edges from the given nodes. -/
def addSink (g : Digraph α) (a : α) (sources : List Nat) : Digraph α :=
  ⟨g.nodes ++ [a], g.edges ++ sources.map fun s => (s, g.nodeCount)⟩

/-- Targets of the edges that leave `n`, in the order in which the edges were added. -/
def successors (g : Digraph α) (n : Nat) : List Nat :=
  (g.edges.filter fun e => e.1 == n).map Prod.snd

/-- Sources of the edges that reach `n`, in the order in which the edges were added. -/
def predecessors (g : Digraph α) (n : Nat) : List Nat :=
  (g.edges.filter fun e => e.2 == n).map Prod.fst

def successors? (g : Digraph α) (n : Nat) : Option (List Nat) :=
  if n < g.nodeCount then some (g.successors n) else none

def predecessors? (g : Digraph α) (n : Nat) : Option (List Nat) :=
  if n < g.nodeCount then some (g.predecessors n) else none

def outDegree (g : Digraph α) (n : Nat) : Nat := (g.successors n).length

def inDegree (g : Digraph α) (n : Nat) : Nat := (g.predecessors n).length

/-- One line per node: its number in two spellings, and its label. -/
def listing (g : Digraph String) : List String :=
  g.nodes.zipIdx.map fun p =>
    "NodeId(" ++ toString p.2 ++ ") " ++ renderBlockId p.2 ++ " " ++ p.1

@[simp] theorem mem_successors {g : Digraph α} {s t : Nat} :
    t ∈ g.successors s ↔ (s, t) ∈ g.edges := by
  simp [successors]

@[simp] theorem mem_predecessors {g : Digraph α} {s t : Nat} :
    s ∈ g.predecessors t ↔ (s, t) ∈ g.edges := by
  simp [predecessors]

end Digraph

end FlowHistory
