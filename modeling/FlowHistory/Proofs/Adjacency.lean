import FlowHistory.Proofs.BuiltGraph
import Mathlib.Algebra.BigOperators.Ring.List
import Mathlib.Algebra.Ring.Nat
import Mathlib.Data.List.Induction
import Mathlib.Data.List.Nodup

/-!
# Neighbours of nodes

Nodes and edges are added in any order, and edges also between nodes that are not there or for a second
time. The calls alone say what the graph holds then: the edges asked for between nodes that were there,
each at its first time. So a node lists its neighbours in the order in which they first came, none twice
and none that is no node, and it is on the list of each of them.

The neighbours may also be kept as such, in a table for each of the two directions and with a counter
beside them. The three are then changed one by one, and only the table of successors is asked whether an
edge is there; they stay what is read off the graph.
-/
namespace FlowHistory

namespace Digraph

variable {α : Type}

inductive Call (α : Type) where
  | node (a : α)
  | edge (source target : Nat)

/-- The graph after a call. A refused edge leaves it as it was. -/
def call (g : Digraph α) : Call α → Digraph α
  | .node a => g.addNode a
  | .edge source target =>
    match g.addEdge source target with
    | .ok (g', _) => g'
    | .error _ => g

def ofCalls (calls : List (Call α)) : Digraph α := calls.foldl call empty

/-- The edges asked for between nodes that are there, where `n` nodes are there before the calls. -/
def asked (n : Nat) : List (Call α) → List (Nat × Nat)
  | [] => []
  | .node _ :: calls => asked (n + 1) calls
  | .edge s t :: calls => if s < n ∧ t < n then (s, t) :: asked n calls else asked n calls

def nodesOf (calls : List (Call α)) : List α :=
  calls.filterMap fun
    | .node a => some a
    | .edge _ _ => none

section Calls

variable {calls : List (Call α)} {g : Digraph α} {s t : Nat}

@[simp] theorem nodesOf_concat_node (a : α) : nodesOf (calls ++ [.node a]) = nodesOf calls ++ [a] := by
  simp [nodesOf]

@[simp] theorem nodesOf_concat_edge : nodesOf (calls ++ [.edge s t]) = nodesOf calls := by
  simp [nodesOf]

theorem asked_concat_node (n : Nat) (calls : List (Call α)) (a : α) :
    asked n (calls ++ [.node a]) = asked n calls := by
  induction calls generalizing n with
  | nil => rfl
  | cons c calls ih => cases c <;> simp [asked, ih]

theorem asked_concat_edge (n : Nat) (calls : List (Call α)) (s t : Nat) :
    asked n (calls ++ [.edge s t]) = asked n calls ++
      if s < n + (nodesOf calls).length ∧ t < n + (nodesOf calls).length then [(s, t)] else [] := by
  induction calls generalizing n with
  | nil => simp [asked, nodesOf]
  | cons c calls ih =>
    cases c with
    | node a =>
      have hlen : n + (nodesOf (.node a :: calls)).length = n + 1 + (nodesOf calls).length := by
        simp only [nodesOf, List.filterMap_cons, List.length_cons]
        omega
      rw [List.cons_append, asked, ih, hlen, asked]
    | edge s' t' =>
      have hnodes : nodesOf (.edge s' t' :: calls) = nodesOf calls := rfl
      rw [List.cons_append, asked, ih, hnodes, asked]
      split <;> rfl

/-- One more is kept if it was not there before. -/
theorem eraseDups_concat {β : Type} [BEq β] [LawfulBEq β] (l : List β) (x : β) :
    (l ++ [x]).eraseDups = l.eraseDups ++ if x ∈ l then [] else [x] := by
  rw [List.eraseDups_append]
  by_cases h : x ∈ l <;> simp [List.removeAll, List.eraseDups_cons, h]

theorem addEdge_of_present (hs : s < g.nodeCount) (ht : t < g.nodeCount) (h : (s, t) ∈ g.edges) :
    g.addEdge s t = .ok (g, false) := by
  simp [addEdge, hasEdge, Nat.not_le.2 hs, Nat.not_le.2 ht, h]

theorem addEdge_of_unknown (h : ¬ (s < g.nodeCount ∧ t < g.nodeCount)) : ∃ f, g.addEdge s t = .error f := by
  rw [addEdge]
  by_cases hs : g.nodeCount ≤ s
  · exact ⟨_, if_pos hs⟩
  · have ht : g.nodeCount ≤ t := by omega
    exact ⟨_, by rw [if_neg hs, if_pos ht]⟩

theorem addEdge_eq_true_iff : (∃ g', g.addEdge s t = .ok (g', true)) ↔
    s < g.nodeCount ∧ t < g.nodeCount ∧ t ∉ g.successors s := by
  rw [mem_successors, ← and_assoc]
  by_cases hlt : s < g.nodeCount ∧ t < g.nodeCount
  · by_cases hedge : (s, t) ∈ g.edges
    · simp [addEdge_of_present hlt.1 hlt.2 hedge, hedge]
    · simp [addEdge_of_absent hlt.1 hlt.2 hedge, hlt, hedge]
  · obtain ⟨f, hf⟩ := addEdge_of_unknown hlt
    simp [hf, hlt]

theorem addEdge_eq_false_iff (h : g.Closed) {g' : Digraph α} :
    g.addEdge s t = .ok (g', false) ↔ t ∈ g.successors s ∧ g' = g := by
  rw [mem_successors]
  by_cases hedge : (s, t) ∈ g.edges
  · have hlt := h _ hedge
    simp [addEdge_of_present hlt.1 hlt.2 hedge, hedge, eq_comm]
  · by_cases hlt : s < g.nodeCount ∧ t < g.nodeCount
    · simp [addEdge_of_absent hlt.1 hlt.2 hedge, hedge]
    · obtain ⟨f, hf⟩ := addEdge_of_unknown hlt
      simp [hf, hedge]

theorem addEdge_eq_error_iff : (∃ f, g.addEdge s t = .error f) ↔ ¬ (s < g.nodeCount ∧ t < g.nodeCount) := by
  refine ⟨?_, addEdge_of_unknown⟩
  rintro ⟨f, hf⟩ hlt
  by_cases hedge : (s, t) ∈ g.edges
  · rw [addEdge_of_present hlt.1 hlt.2 hedge] at hf
    cases hf
  · rw [addEdge_of_absent hlt.1 hlt.2 hedge] at hf
    cases hf

/-- What a graph holds after some calls. -/
structure Holds (calls : List (Call α)) (g : Digraph α) : Prop where
  nodes_eq : g.nodes = nodesOf calls
  edges_eq : g.edges = (asked 0 calls).eraseDups
  nodup : g.edges.Nodup
  closed : g.Closed

theorem Holds.node (h : Holds calls g) (a : α) : Holds (calls ++ [.node a]) (g.addNode a) where
  nodes_eq := by simp [addNode, h.nodes_eq]
  edges_eq := by rw [asked_concat_node, ← h.edges_eq, addNode]
  nodup := h.nodup
  closed := closed_addNode h.closed a

theorem Holds.edge (h : Holds calls g) (s t : Nat) : Holds (calls ++ [.edge s t]) (g.call (.edge s t)) := by
  have hcount : 0 + (nodesOf calls).length = g.nodeCount := by rw [nodeCount, h.nodes_eq, Nat.zero_add]
  have hasked := asked_concat_edge 0 calls s t
  rw [hcount] at hasked
  by_cases hlt : s < g.nodeCount ∧ t < g.nodeCount
  · rw [if_pos hlt] at hasked
    have hmem : (s, t) ∈ asked 0 calls ↔ (s, t) ∈ g.edges := by rw [h.edges_eq, List.mem_eraseDups]
    by_cases hthere : (s, t) ∈ g.edges
    · have hadd := addEdge_of_present hlt.1 hlt.2 hthere
      refine ⟨?_, ?_, ?_, ?_⟩ <;> simp only [call, hadd]
      · simpa using h.nodes_eq
      · rw [hasked, eraseDups_concat, if_pos (hmem.2 hthere), List.append_nil, h.edges_eq]
      · exact h.nodup
      · exact h.closed
    · have hadd := addEdge_of_absent hlt.1 hlt.2 hthere
      refine ⟨?_, ?_, ?_, ?_⟩ <;> simp only [call, hadd]
      · simpa using h.nodes_eq
      · rw [hasked, eraseDups_concat, if_neg (mt hmem.1 hthere), h.edges_eq]
      · rw [← List.concat_eq_append]
        exact h.nodup.concat hthere
      · exact closed_addEdge h.closed hadd
  · rw [if_neg hlt, List.append_nil] at hasked
    obtain ⟨f, hf⟩ := addEdge_of_unknown hlt
    refine ⟨?_, ?_, ?_, ?_⟩ <;> simp only [call, hf]
    · simpa using h.nodes_eq
    · rw [hasked, h.edges_eq]
    · exact h.nodup
    · exact h.closed

theorem holds_ofCalls (calls : List (Call α)) : Holds calls (ofCalls calls) := by
  induction calls using List.reverseRecOn with
  | nil => exact ⟨rfl, rfl, List.nodup_nil, fun e he => by cases he⟩
  | append_singleton calls c ih =>
    rw [ofCalls, List.foldl_concat]
    cases c with
    | node a => exact ih.node a
    | edge s t => exact ih.edge s t

end Calls

/-! What the nodes list. Both directions are one reading of the edges, by one end or by the other. -/

section Lists

variable {g : Digraph α} {s t : Nat}

/-- The other ends of the edges whose end under `key` is `n`. -/
def listed (key other : Nat × Nat → Nat) (edges : List (Nat × Nat)) (n : Nat) : List Nat :=
  (edges.filter fun e => key e == n).map other

theorem successors_eq_listed (g : Digraph α) : g.successors = listed Prod.fst Prod.snd g.edges := rfl

theorem predecessors_eq_listed (g : Digraph α) : g.predecessors = listed Prod.snd Prod.fst g.edges := rfl

variable {key other : Nat × Nat → Nat}

theorem listed_concat (edges : List (Nat × Nat)) (e : Nat × Nat) (n : Nat) :
    listed key other (edges ++ [e]) n = listed key other edges n ++ if key e = n then [other e] else [] := by
  by_cases h : key e = n <;> simp [listed, h]

theorem mem_listed (hinj : ∀ e e', key e = key e' → other e = other e' → e = e') {edges : List (Nat × Nat)}
    (e : Nat × Nat) : other e ∈ listed key other edges (key e) ↔ e ∈ edges := by
  simp only [listed, List.mem_map, List.mem_filter, beq_iff_eq]
  constructor
  · rintro ⟨e', ⟨hmem, hkey⟩, hother⟩
    rwa [← hinj e' e hkey hother]
  · intro hmem
    exact ⟨e, ⟨hmem, rfl⟩, rfl⟩

/-- First times among edges are first times among the neighbours of a node. -/
theorem listed_eraseDups (hinj : ∀ e e', key e = key e' → other e = other e' → e = e')
    (edges : List (Nat × Nat)) (n : Nat) :
    listed key other edges.eraseDups n = (listed key other edges n).eraseDups := by
  induction edges using List.reverseRecOn with
  | nil => rfl
  | append_singleton edges e ih =>
    rw [eraseDups_concat, listed_concat]
    by_cases hkey : key e = n
    · subst hkey
      rw [if_pos rfl, eraseDups_concat]
      by_cases hmem : e ∈ edges
      · rw [if_pos hmem, if_pos ((mem_listed hinj e).2 hmem), List.append_nil, List.append_nil, ih]
      · rw [if_neg hmem, if_neg (mt (mem_listed hinj e).1 hmem), listed_concat, if_pos rfl, ih]
    · rw [if_neg hkey, List.append_nil, ← ih]
      split
      · rw [List.append_nil]
      · rw [listed_concat, if_neg hkey, List.append_nil]

theorem nodup_listed (hinj : ∀ e e', key e = key e' → other e = other e' → e = e') {edges : List (Nat × Nat)}
    (h : edges.Nodup) (n : Nat) : (listed key other edges n).Nodup := by
  refine (h.filter _).map_on fun e he e' he' hother => ?_
  have hkey : key e = key e' := by
    rw [beq_iff_eq.1 (List.mem_filter.1 he).2, beq_iff_eq.1 (List.mem_filter.1 he').2]
  exact hinj e e' hkey hother

theorem sum_length_ite (l : List Nat) (k m : Nat) :
    (l.map fun b => (if k = b then [m] else []).length).sum = l.count k := by
  induction l with
  | nil => rfl
  | cons b l ih =>
    rw [List.map_cons, List.sum_cons, ih, List.count_cons]
    by_cases h : k = b
    · simp [h, Nat.add_comm]
    · simp [h, Ne.symm h]

/-- The edges are counted by one of their ends, as far as it is below `n`. -/
theorem sum_length_listed (key other : Nat × Nat → Nat) (n : Nat) (edges : List (Nat × Nat)) :
    ((List.range n).map fun b => (listed key other edges b).length).sum =
      (edges.filter fun e => key e < n).length := by
  induction edges using List.reverseRecOn with
  | nil => simp [listed]
  | append_singleton edges e ih =>
    simp only [listed_concat, List.length_append, List.sum_map_add, ih, sum_length_ite, List.nodup_range.count,
      List.filter_append, List.mem_range]
    by_cases h : key e < n <;> simp [h]

end Lists

/-! The neighbours kept in tables. -/

/-- A table of successors, a table of predecessors and the number of edges. -/
structure Tables where
  outgoing : List (List Nat)
  incoming : List (List Nat)
  edgeCount : Nat

namespace Tables

def empty : Tables := ⟨[], [], 0⟩

def addNode (a : Tables) : Tables := { a with outgoing := a.outgoing ++ [[]], incoming := a.incoming ++ [[]] }

/-- Says whether an edge is new, and gives the tables after it. -/
def addEdge (a : Tables) (source target : Nat) : Except Fault Bool × Tables :=
  if a.outgoing.length ≤ source then (.error (.unknownEdgeEnd .source source a.outgoing.length), a)
  else if a.outgoing.length ≤ target then (.error (.unknownEdgeEnd .target target a.outgoing.length), a)
  else if target ∈ a.outgoing.getD source [] then (.ok false, a)
  else
    (.ok true, ⟨a.outgoing.modify source (· ++ [target]), a.incoming.modify target (· ++ [source]), a.edgeCount + 1⟩)

def call (a : Tables) : Call α → Tables
  | .node _ => a.addNode
  | .edge source target => (a.addEdge source target).2

def ofCalls (calls : List (Call α)) : Tables := calls.foldl call empty

end Tables

/-- The tables that belong to a graph. -/
def tables (g : Digraph α) : Tables := ⟨g.ids.map g.successors, g.ids.map g.predecessors, g.edgeCount⟩

/-- A new node has no neighbours. -/
theorem tables_addNode {g : Digraph α} (h : g.Closed) (a : α) : (g.addNode a).tables = g.tables.addNode := by
  have hsuccessors : g.successors g.nodeCount = [] := by
    rw [List.eq_nil_iff_forall_not_mem]
    intro t ht
    have hlt := (h _ (mem_successors.1 ht)).1
    exact Nat.lt_irrefl _ hlt
  have hpredecessors : g.predecessors g.nodeCount = [] := by
    rw [List.eq_nil_iff_forall_not_mem]
    intro s hs
    have hlt := (h _ (mem_predecessors.1 hs)).2
    exact Nat.lt_irrefl _ hlt
  have hids : (g.addNode a).ids = g.ids ++ [g.nodeCount] := by
    simp [ids, nodeCount, addNode, List.range_succ]
  simp only [tables, Tables.addNode, hids, List.map_append, List.map_singleton]
  exact congrArg₂ (Tables.mk · · _) (congrArg (_ ++ [·]) hsuccessors) (congrArg (_ ++ [·]) hpredecessors)

theorem map_listed_concat (key other : Nat × Nat → Nat) (edges : List (Nat × Nat)) (e : Nat × Nat) (n : Nat) :
    (List.range n).map (listed key other (edges ++ [e])) =
      ((List.range n).map (listed key other edges)).modify (key e) (· ++ [other e]) := by
  refine List.ext_getElem (by simp) fun b hb _ => ?_
  rw [List.getElem_modify]
  by_cases h : key e = b <;> simp [listed_concat, h]

/-- A new edge is one entry in each of the tables. -/
theorem tables_concat (g : Digraph α) (s t : Nat) : tables ⟨g.nodes, g.edges ++ [(s, t)]⟩ =
    ⟨g.tables.outgoing.modify s (· ++ [t]), g.tables.incoming.modify t (· ++ [s]), g.tables.edgeCount + 1⟩ := by
  have hout := map_listed_concat Prod.fst Prod.snd g.edges (s, t) g.nodeCount
  have hin := map_listed_concat Prod.snd Prod.fst g.edges (s, t) g.nodeCount
  rw [tables, successors_eq_listed, predecessors_eq_listed, Tables.mk.injEq]
  exact ⟨hout, hin, by simp [tables, edgeCount]⟩

/-- The tables of a graph take an edge as the graph does. -/
theorem addEdge_tables (g : Digraph α) (s t : Nat) : g.tables.addEdge s t =
    match g.addEdge s t with
    | .ok (g', new) => (.ok new, g'.tables)
    | .error f => (.error f, g.tables) := by
  have hlen : g.tables.outgoing.length = g.nodeCount := by simp [tables, ids]
  simp only [Tables.addEdge, addEdge, hlen]
  by_cases hs : g.nodeCount ≤ s
  · rw [if_pos hs, if_pos hs]
  · by_cases ht : g.nodeCount ≤ t
    · rw [if_neg hs, if_neg hs, if_pos ht, if_pos ht]
    · have hrow : g.tables.outgoing.getD s [] = g.successors s := by
        simp [tables, ids, Nat.lt_of_not_le hs]
      simp only [if_neg hs, if_neg ht, hrow, mem_successors, hasEdge, decide_eq_true_eq]
      by_cases hedge : (s, t) ∈ g.edges
      · rw [if_pos hedge, if_pos hedge]
      · rw [if_neg hedge, if_neg hedge, ← tables_concat]

theorem tables_call {g : Digraph α} (h : g.Closed) (c : Call α) : (g.call c).tables = g.tables.call c := by
  cases c with
  | node a => exact tables_addNode h a
  | edge s t =>
    rw [Tables.call, addEdge_tables, call]
    cases g.addEdge s t <;> rfl

theorem tables_ofCalls (calls : List (Call α)) : (ofCalls calls).tables = Tables.ofCalls calls := by
  induction calls using List.reverseRecOn with
  | nil => rfl
  | append_singleton calls c ih =>
    rw [ofCalls, Tables.ofCalls, List.foldl_concat, List.foldl_concat, ← Tables.ofCalls, ← ih]
    exact tables_call (holds_ofCalls calls).closed c

/-- The neighbours that the nodes of a graph list fit together, and so do the answers to a further edge,
where `asked` are the edges that were asked for between nodes that were there. -/
structure Consistent (asked : List (Nat × Nat)) (g : Digraph α) : Prop where
  mem_successors_iff {s t : Nat} : t ∈ g.successors s ↔ s ∈ g.predecessors t
  nodup_successors (s : Nat) : (g.successors s).Nodup
  nodup_predecessors (t : Nat) : (g.predecessors t).Nodup
  successors_known {s t : Nat} : t ∈ g.successors s → s < g.nodeCount ∧ t < g.nodeCount
  sum_outDegree : (g.ids.map g.outDegree).sum = g.edgeCount
  sum_inDegree : (g.ids.map g.inDegree).sum = g.edgeCount
  -- neighbours come in the order of their first times
  successors_eq (s : Nat) : g.successors s = ((asked.filter fun e => e.1 == s).map Prod.snd).eraseDups
  predecessors_eq (t : Nat) : g.predecessors t = ((asked.filter fun e => e.2 == t).map Prod.fst).eraseDups
  -- what is answered to an edge
  addEdge_true_iff {s t : Nat} : (∃ g', g.addEdge s t = .ok (g', true)) ↔
    s < g.nodeCount ∧ t < g.nodeCount ∧ t ∉ g.successors s
  addEdge_false_iff {s t : Nat} {g' : Digraph α} :
    g.addEdge s t = .ok (g', false) ↔ t ∈ g.successors s ∧ g' = g
  addEdge_error_iff {s t : Nat} : (∃ f, g.addEdge s t = .error f) ↔ ¬ (s < g.nodeCount ∧ t < g.nodeCount)

theorem Holds.consistent {calls : List (Call α)} {g : Digraph α} (h : Holds calls g) :
    g.Consistent (asked 0 calls) where
  mem_successors_iff := mem_successors.trans mem_predecessors.symm
  nodup_successors := nodup_listed (fun e e' => Prod.ext) h.nodup
  nodup_predecessors := nodup_listed (fun e e' hsnd hfst => Prod.ext hfst hsnd) h.nodup
  successors_known ht := h.closed _ (mem_successors.1 ht)
  sum_outDegree := by
    have hall : (g.edges.filter fun e => e.1 < g.nodeCount) = g.edges :=
      List.filter_eq_self.2 fun e he => decide_eq_true (h.closed e he).1
    exact (sum_length_listed _ _ g.nodeCount g.edges).trans (congrArg List.length hall)
  sum_inDegree := by
    have hall : (g.edges.filter fun e => e.2 < g.nodeCount) = g.edges :=
      List.filter_eq_self.2 fun e he => decide_eq_true (h.closed e he).2
    exact (sum_length_listed _ _ g.nodeCount g.edges).trans (congrArg List.length hall)
  successors_eq s := by
    rw [successors_eq_listed, h.edges_eq]
    exact listed_eraseDups (fun e e' => Prod.ext) _ s
  predecessors_eq t := by
    rw [predecessors_eq_listed, h.edges_eq]
    exact listed_eraseDups (fun e e' hsnd hfst => Prod.ext hfst hsnd) _ t
  addEdge_true_iff := addEdge_eq_true_iff
  addEdge_false_iff := addEdge_eq_false_iff h.closed
  addEdge_error_iff := addEdge_eq_error_iff

/-- Whatever is called on an empty graph, its nodes list their neighbours consistently. Two tables and a
counter that are changed by the same calls hold just these lists and their number, and answer an edge in
the same way; they do not change with an edge that is refused or there already. -/
theorem neighbours_consistent (calls : List (Call α)) :
    (ofCalls calls).Consistent (asked 0 calls) ∧ Tables.ofCalls calls = (ofCalls calls).tables ∧
      ∀ s t, (Tables.ofCalls calls).addEdge s t =
        match (ofCalls calls).addEdge s t with
        | .ok (g', new) => (.ok new, g'.tables)
        | .error f => (.error f, Tables.ofCalls calls) := by
  refine ⟨(holds_ofCalls calls).consistent, (tables_ofCalls calls).symm, fun s t => ?_⟩
  rw [← tables_ofCalls]
  exact addEdge_tables _ s t

end Digraph

end FlowHistory
