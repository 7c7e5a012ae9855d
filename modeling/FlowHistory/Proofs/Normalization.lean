import FlowHistory.Proofs.Adjacency
import Mathlib.Data.Finset.Card
import Mathlib.Data.List.Induction

/-!
# Normalised graphs, read off the calls that made them

A draft is made by a list of calls, of which some edges may be refused. The list alone says what the graph
built from it looks like: which blocks it has and what they hold, which of them are joined, which block was
added to give the graph its entry or its exit and how it is joined to the others, how the instructions are
numbered and which locals the program has.
-/
namespace FlowHistory

namespace Block

/-- Blocks that hold the given instructions, numbered on from `first`. -/
def layout (first : Nat) : List (List Instruction) → List Block
  | [] => []
  | l :: rest => ⟨first, l, false⟩ :: layout (first + l.length) rest

variable {first : Nat} {ls : List (List Instruction)}

@[simp] theorem length_layout : (layout first ls).length = ls.length := by
  induction ls generalizing first with
  | nil => rfl
  | cons l rest ih => simp [layout, ih]

@[simp] theorem total_layout : total (layout first ls) = ls.flatten.length := by
  induction ls generalizing first with
  | nil => rfl
  | cons l rest ih => simp [layout, total, size, ih]

@[simp] theorem total_replicate (n : Nat) (b : Block) : total (List.replicate n b) = n * b.size := by
  induction n with
  | zero => simp [total]
  | succ n ih => simp [List.replicate_succ, total, ih, Nat.succ_mul, Nat.add_comm]

theorem layout_concat (l : List Instruction) :
    layout first (ls ++ [l]) = layout first ls ++ [⟨first + ls.flatten.length, l, false⟩] := by
  induction ls generalizing first with
  | nil => simp [layout]
  | cons m rest ih => simp [layout, ih, Nat.add_assoc]

theorem getElem?_layout (first : Nat) {b : Nat} {l : List Instruction} (h : ls[b]? = some l) :
    ∃ n, (layout first ls)[b]? = some ⟨n, l, false⟩ := by
  induction ls generalizing first b with
  | nil => cases h
  | cons m rest ih =>
    cases b with
    | zero =>
      cases h
      exact ⟨first, rfl⟩
    | succ b => exact ih (first + m.length) h

/-- Block by block or all at once, the instructions get the same numbers. -/
theorem sites_layout :
    (layout first ls).flatMap sites = (ls.flatten.zipIdx first).map fun p => ⟨p.2, p.1⟩ := by
  induction ls generalizing first with
  | nil => rfl
  | cons l rest ih =>
    rw [layout, List.flatMap_cons, ih, List.flatten_cons, List.zipIdx_append, List.map_append]
    rfl

theorem mem_locals_layout {x : Local} :
    x ∈ (layout first ls).flatMap locals ↔ ∃ l ∈ ls, ∃ i ∈ l, x ∈ i.locals := by
  induction ls generalizing first with
  | nil => simp [layout]
  | cons l rest ih =>
    rw [layout, List.flatMap_cons, List.mem_append, ih, List.exists_mem_cons_iff, locals, List.mem_flatMap]

end Block

namespace Draft

/-- A call that adds to a draft. -/
inductive Call
  | block (instructions : List Instruction)
  | edge (source target : Nat)
  | declare (x : Local)

/-- What a call makes of a draft. A refused edge leaves it as it was. -/
def call (d : Draft) : Call → Draft
  | .block instructions => d.addBlock instructions
  | .edge source target =>
    match d.addEdge source target with
    | .ok d' => d'
    | .error _ => d
  | .declare x => d.declare x

def ofCalls (calls : List Call) : Draft := calls.foldl call empty

theorem ofCalls_concat (calls : List Call) (c : Call) : ofCalls (calls ++ [c]) = (ofCalls calls).call c := by
  rw [ofCalls, List.foldl_concat, ofCalls]

/-- The blocks among the calls, in order. -/
def blocksOf (calls : List Call) : List (List Instruction) :=
  calls.filterMap fun c => match c with
    | .block instructions => some instructions
    | _ => none

/-- The edge was asked for when both of its ends had been added. -/
def Accepted (calls : List Call) (s t : Nat) : Prop :=
  ∃ before after, calls = before ++ .edge s t :: after ∧
    s < (blocksOf before).length ∧ t < (blocksOf before).length

variable {calls : List Call} {d : Draft} {c : Call} {s t : Nat}

@[simp] theorem blocksOf_concat_block (l : List Instruction) :
    blocksOf (calls ++ [.block l]) = blocksOf calls ++ [l] := by
  simp [blocksOf]

@[simp] theorem blocksOf_concat_edge : blocksOf (calls ++ [.edge s t]) = blocksOf calls := by
  simp [blocksOf]

@[simp] theorem blocksOf_concat_declare (x : Local) : blocksOf (calls ++ [.declare x]) = blocksOf calls := by
  simp [blocksOf]

theorem mem_blocksOf {l : List Instruction} : l ∈ blocksOf calls ↔ .block l ∈ calls := by
  rw [blocksOf, List.mem_filterMap]
  constructor
  · rintro ⟨c, hc, hl⟩
    cases c with
    | block instructions =>
      cases hl
      exact hc
    | edge source target => cases hl
    | declare x => cases hl
  · intro hl
    exact ⟨_, hl, rfl⟩

theorem accepted_concat : Accepted (calls ++ [c]) s t ↔ Accepted calls s t ∨
    (c = .edge s t ∧ s < (blocksOf calls).length ∧ t < (blocksOf calls).length) := by
  constructor
  · rintro ⟨before, after, heq, hlt⟩
    rcases List.eq_nil_or_concat' after with rfl | ⟨after, last, rfl⟩
    · obtain ⟨rfl, hc⟩ := List.append_inj' heq rfl
      exact .inr ⟨List.head_eq_of_cons_eq hc, hlt⟩
    · rw [← List.cons_append, ← List.append_assoc] at heq
      exact .inl ⟨before, after, (List.append_inj' heq rfl).1, hlt⟩
  · rintro (⟨before, after, rfl, hlt⟩ | ⟨rfl, hlt⟩)
    · exact ⟨before, after ++ [c], by simp, hlt⟩
    · exact ⟨calls, [], rfl, hlt⟩

/-- An edge between two blocks is added, unless it is there. -/
theorem addEdge_of_lt (hs : s < d.graph.nodeCount) (ht : t < d.graph.nodeCount) : d.addEdge s t =
    .ok ⟨⟨d.graph.nodes, if (s, t) ∈ d.graph.edges then d.graph.edges else d.graph.edges ++ [(s, t)]⟩,
      d.declared⟩ := by
  by_cases he : (s, t) ∈ d.graph.edges
  · rw [addEdge, Digraph.addEdge_of_present hs ht he, if_pos he]
    rfl
  · rw [addEdge, Digraph.addEdge_of_absent hs ht he, if_neg he]
    rfl

/-- Any other edge is refused. -/
theorem addEdge_of_not_lt (h : ¬ (s < d.graph.nodeCount ∧ t < d.graph.nodeCount)) :
    ∃ f, d.addEdge s t = .error f := by
  obtain ⟨f, hf⟩ := Digraph.addEdge_of_unknown h
  exact ⟨f, by rw [addEdge, hf]; rfl⟩

theorem exists_addEdge_iff :
    (∃ d', d.addEdge s t = .ok d') ↔ s < d.graph.nodeCount ∧ t < d.graph.nodeCount := by
  constructor
  · rintro ⟨d', hd'⟩
    by_contra hlt
    obtain ⟨f, hf⟩ := addEdge_of_not_lt hlt
    rw [hf] at hd'
    cases hd'
  · rintro ⟨hs, ht⟩
    exact ⟨_, addEdge_of_lt hs ht⟩

theorem Made.call (h : d.Made) (c : Call) : (d.call c).Made := by
  cases c with
  | block instructions => exact h.addBlock instructions
  | edge source target =>
    simp only [Draft.call]
    split
    · rename_i hadd
      exact h.addEdge hadd
    · exact h
  | declare x => exact h.declare x

theorem made_ofCalls (calls : List Call) : (ofCalls calls).Made := by
  induction calls using List.reverseRecOn with
  | nil => exact .empty
  | append_singleton calls c ih =>
    rw [ofCalls_concat]
    exact ih.call c

/-- What a draft holds after some calls. -/
structure Holds (calls : List Call) (d : Draft) : Prop where
  nodes_eq : d.graph.nodes = Block.layout 0 (blocksOf calls)
  mem_edges {s t : Nat} : (s, t) ∈ d.graph.edges ↔ Accepted calls s t
  nodup : d.graph.edges.Nodup
  mem_declared {x : Local} : x ∈ d.declared ↔ .declare x ∈ calls

theorem Holds.nodeCount_eq (h : Holds calls d) : d.graph.nodeCount = (blocksOf calls).length := by
  rw [Digraph.nodeCount, h.nodes_eq, Block.length_layout]

theorem Holds.addBlock (h : Holds calls d) (l : List Instruction) :
    Holds (calls ++ [.block l]) (d.addBlock l) := by
  have hcount : d.instructionCount = 0 + (blocksOf calls).flatten.length := by
    rw [instructionCount, h.nodes_eq, Block.total_layout, Nat.zero_add]
  refine ⟨?_, ?_, h.nodup, ?_⟩
  · rw [blocksOf_concat_block, Block.layout_concat, ← h.nodes_eq, ← hcount]
    rfl
  · intro s t
    rw [accepted_concat, ← h.mem_edges]
    simp [Draft.addBlock, Digraph.addNode]
  · intro x
    simp [Draft.addBlock, h.mem_declared]

theorem Holds.edge (h : Holds calls d) (s t : Nat) :
    Holds (calls ++ [.edge s t]) (d.call (.edge s t)) := by
  by_cases hlt : s < d.graph.nodeCount ∧ t < d.graph.nodeCount
  · rw [Draft.call, addEdge_of_lt hlt.1 hlt.2]
    refine ⟨by simpa using h.nodes_eq, ?_, ?_, by simp [h.mem_declared]⟩
    · intro a b
      rw [accepted_concat, ← h.nodeCount_eq, ← h.mem_edges, Call.edge.injEq]
      split <;> grind
    · have hnodup := h.nodup
      split <;> grind
  · obtain ⟨f, hf⟩ := addEdge_of_not_lt hlt
    rw [Draft.call, hf]
    refine ⟨by simpa using h.nodes_eq, ?_, h.nodup, by simp [h.mem_declared]⟩
    intro a b
    rw [accepted_concat, ← h.nodeCount_eq, ← h.mem_edges, Call.edge.injEq]
    grind

theorem Holds.declare (h : Holds calls d) (x : Local) : Holds (calls ++ [.declare x]) (d.declare x) := by
  refine ⟨by simpa [Draft.declare] using h.nodes_eq, ?_, h.nodup, ?_⟩
  · intro s t
    rw [accepted_concat, ← h.mem_edges]
    simp [Draft.declare]
  · intro y
    simp [Draft.declare, h.mem_declared]

theorem Holds.call (h : Holds calls d) (c : Call) : Holds (calls ++ [c]) (d.call c) := by
  cases c with
  | block instructions => exact h.addBlock instructions
  | edge source target => exact h.edge source target
  | declare x => exact h.declare x

theorem holds_ofCalls (calls : List Call) : Holds calls (ofCalls calls) := by
  induction calls using List.reverseRecOn with
  | nil =>
    refine ⟨rfl, ?_, List.nodup_nil, ?_⟩
    · intro s t
      simp [ofCalls, empty, Digraph.empty, Accepted]
    · intro x
      simp [ofCalls, empty]
  | append_singleton calls c ih =>
    rw [ofCalls_concat]
    exact ih.call c

/-! What normalising makes of a draft. -/

/-- The number of blocks put before or after the given ones: one, if there are several. -/
def spare (several : List Nat) : Nat := if 1 < several.length then 1 else 0

theorem spare_cases (several : List Nat) :
    (1 < several.length ∧ spare several = 1) ∨ (¬ 1 < several.length ∧ spare several = 0) := by
  unfold spare
  split <;> simp_all

/-- The single block of the list, or else a new one with the given number. -/
def Joint (several : List Nat) (new b : Nat) : Prop := several = [b] ∨ (1 < several.length ∧ b = new)

variable {graph graph' : Digraph Block} {extra : Block} {several : List Nat}

theorem enter_eq_ok {entry : Nat} (h : enter graph extra several = .ok (graph', entry)) :
    Joint several graph.nodeCount entry ∧ graph'.nodes = graph.nodes ++ List.replicate (spare several) extra ∧
    graph'.edges = graph.edges ++
      if 1 < several.length then several.map (fun t => (graph.nodeCount, t)) else [] := by
  match several, h with
  | [b], h =>
    cases h
    simp [Joint, spare]
  | b :: b' :: rest, h =>
    cases h
    simp [Joint, spare, Digraph.addSource]

theorem leave_spec (graph : Digraph Block) (extra : Block) (several : List Nat) :
    (∀ b, (leave graph extra several).2 = some b ↔ Joint several graph.nodeCount b) ∧
    (leave graph extra several).1.nodes = graph.nodes ++ List.replicate (spare several) extra ∧
    (leave graph extra several).1.edges = graph.edges ++
      if 1 < several.length then several.map (fun s => (s, graph.nodeCount)) else [] := by
  match several with
  | [] => simp [leave, Joint, spare]
  | [b] => simp [leave, Joint, spare]
  | b :: b' :: rest => simp [leave, Joint, spare, Digraph.addSink, eq_comm]

/-- The graph that comes of a draft: its own blocks and edges, and blocks for several entries or exits. -/
structure Finished (d : Draft) (g : Flowgraph) : Prop where
  entry : Joint d.entries d.graph.nodeCount g.entry
  exit {b : Nat} : g.exit = some b ↔ Joint d.exits (d.graph.nodeCount + spare d.entries) b
  blocks_eq : g.blocks = d.graph.nodes ++ List.replicate (spare d.entries + spare d.exits) d.syntheticBlock
  edges_eq : g.graph.edges = d.graph.edges ++
    (if 1 < d.entries.length then d.entries.map (fun t => (d.graph.nodeCount, t)) else []) ++
    if 1 < d.exits.length then d.exits.map (fun s => (s, d.graph.nodeCount + spare d.entries)) else []
  locals_eq : g.locals = LocalSet.ofList (d.declared ++ d.graph.nodes.flatMap Block.locals)

theorem finished_of_build {g : Flowgraph} (h : d.build = .ok g) : Finished d g := by
  simp only [build] at h
  split at h
  · cases h
  · obtain ⟨⟨graph, entry⟩, henter, h⟩ := bind_eq_ok.1 h
    simp only [pure_eq_ok] at h
    subst h
    obtain ⟨hentry, hnodes, hedges⟩ := enter_eq_ok henter
    obtain ⟨hexit, hnodes', hedges'⟩ := leave_spec graph d.syntheticBlock d.exits
    have hcount : graph.nodeCount = d.graph.nodeCount + spare d.entries := by
      simp [Digraph.nodeCount, hnodes]
    rw [hcount] at hedges'
    refine ⟨hentry, ?_, ?_, ?_, rfl⟩
    · intro b
      rw [← hcount]
      exact hexit b
    · exact hnodes'.trans (by rw [hnodes, List.append_assoc, List.replicate_append_replicate])
    · exact hedges'.trans (by rw [hedges])

theorem build_of_nodes_eq_nil (h : d.graph.nodes = []) : d.build = .error .noBlocks := by
  simp [build, Digraph.isEmpty, h]

theorem build_of_entries_eq_nil (h : d.graph.nodes ≠ []) (hentries : d.entries = []) :
    d.build = .error .noEntry := by
  simp [build, Digraph.isEmpty, h, hentries, enter, bind, Except.bind]

theorem exists_enter (graph : Digraph Block) (extra : Block) (h : several ≠ []) :
    ∃ r, enter graph extra several = .ok r := by
  cases several with
  | nil => exact absurd rfl h
  | cons b rest =>
    cases rest with
    | nil => exact ⟨_, rfl⟩
    | cons b' rest => exact ⟨_, rfl⟩

theorem exists_build (h : d.graph.nodes ≠ []) (hentries : d.entries ≠ []) : ∃ g, d.build = .ok g := by
  obtain ⟨r, hr⟩ := exists_enter d.graph d.syntheticBlock hentries
  simp [build, Digraph.isEmpty, h, hr, bind, Except.bind, pure, Except.pure]

theorem build_eq_error_iff {f : Fault} : d.build = .error f ↔
    (d.graph.nodes = [] ∧ f = .noBlocks) ∨ (d.graph.nodes ≠ [] ∧ d.entries = [] ∧ f = .noEntry) := by
  by_cases hnodes : d.graph.nodes = []
  · rw [build_of_nodes_eq_nil hnodes, Except.error.injEq]
    simp only [hnodes, true_and, ne_eq, not_true, false_and, or_false]
    exact eq_comm
  · by_cases hentries : d.entries = []
    · rw [build_of_entries_eq_nil hnodes hentries, Except.error.injEq]
      simp only [hnodes, hentries, false_and, ne_eq, not_false_eq_true, true_and, false_or]
      exact eq_comm
    · obtain ⟨g, hg⟩ := exists_build hnodes hentries
      simp [hg, hnodes, hentries]

/-- No accepted edge reaches the block. -/
def IsEntry (calls : List Call) (b : Nat) : Prop :=
  b < (blocksOf calls).length ∧ ∀ a, ¬ Accepted calls a b

/-- No accepted edge leaves the block. -/
def IsExit (calls : List Call) (b : Nat) : Prop :=
  b < (blocksOf calls).length ∧ ∀ a, ¬ Accepted calls b a

theorem Holds.mem_entries (h : Holds calls d) {b : Nat} : b ∈ d.entries ↔ IsEntry calls b := by
  simp only [mem_entries_iff, IsSource, IsEntry, h.nodeCount_eq, h.mem_edges]

theorem Holds.mem_exits (h : Holds calls d) {b : Nat} : b ∈ d.exits ↔ IsExit calls b := by
  simp only [mem_exits_iff, IsSink, IsExit, h.nodeCount_eq, h.mem_edges]

theorem Holds.nodes_eq_nil_iff (h : Holds calls d) : d.graph.nodes = [] ↔ blocksOf calls = [] := by
  rw [← List.length_eq_zero_iff, ← List.length_eq_zero_iff, h.nodes_eq, Block.length_layout]

theorem Holds.entries_eq_nil_iff (h : Holds calls d) :
    d.entries = [] ↔ ∀ b < (blocksOf calls).length, ∃ a, Accepted calls a b := by
  simp only [List.eq_nil_iff_forall_not_mem, h.mem_entries, IsEntry, not_and, not_forall, not_not]

theorem Joint.of_le {n new b : Nat} (h : Joint several new b) (hlt : ∀ c ∈ several, c < n) (hb : n ≤ b) :
    1 < several.length ∧ b = new := by
  rcases h with rfl | h
  · have := hlt b (List.mem_singleton_self b)
    omega
  · exact h

theorem Joint.of_several {new b : Nat} (h : Joint several new b) (hseveral : 1 < several.length) : b = new := by
  rcases h with rfl | h
  · simp at hseveral
  · exact h.2

theorem entries_nodup (d : Draft) : d.entries.Nodup := List.nodup_range.filter _

theorem exits_nodup (d : Draft) : d.exits.Nodup := List.nodup_range.filter _

/-- The edges of a new entry may be added one by one: each is new, and its ends are blocks. -/
theorem enter_eq_foldlM (hclosed : d.graph.Closed) (hseveral : 1 < d.entries.length) (extra : Block) :
    enter d.graph extra d.entries = (·, d.graph.nodeCount) <$>
      d.entries.foldlM (fun g b => Prod.fst <$> g.addEdge d.graph.nodeCount b) (d.graph.addNode extra) := by
  rw [Digraph.foldlM_addEdge_source hclosed extra (fun _ => entries_lt) d.entries_nodup]
  match d.entries, hseveral with
  | _ :: _ :: _, _ => rfl

/-- The edges of a new exit may be added one by one, also after a new entry. -/
theorem leave_eq_foldlM {graph : Digraph Block} (hclosed : graph.Closed)
    (hle : d.graph.nodeCount ≤ graph.nodeCount) (hseveral : 1 < d.exits.length) (extra : Block) :
    .ok (leave graph extra d.exits) = (·, some graph.nodeCount) <$>
      d.exits.foldlM (fun g b => Prod.fst <$> g.addEdge b graph.nodeCount) (graph.addNode extra) := by
  have hlt : ∀ b ∈ d.exits, b < graph.nodeCount := fun b hb => Nat.lt_of_lt_of_le (exits_lt hb) hle
  rw [Digraph.foldlM_addEdge_sink hclosed extra hlt d.exits_nodup]
  match d.exits, hseveral with
  | _ :: _ :: _, _ => rfl

theorem one_lt_length_iff (hnodup : several.Nodup) :
    1 < several.length ↔ ∃ a b, a ≠ b ∧ a ∈ several ∧ b ∈ several := by
  rw [← List.toFinset_card_of_nodup hnodup, Finset.one_lt_card]
  simp only [List.mem_toFinset]
  grind

end Draft

namespace Flowgraph

open Draft

/-- The graph is the one that the calls describe. -/
structure Normalized (calls : List Call) (g : Flowgraph) : Prop where
  -- one entry and at most one exit
  predecessors_nil_iff {b : Nat} : b < g.blockCount ∧ g.predecessors b = [] ↔ b = g.entry
  boundary_forward : g.boundary .forward = .ok g.entry
  successors_nil_iff {b : Nat} : b < g.blockCount ∧ g.successors b = [] ↔ g.exit = some b
  boundary_backward_iff {b : Nat} : g.boundary .backward = .ok b ↔ g.exit = some b
  -- the blocks and edges that were asked for
  original {b : Nat} {l : List Instruction} : (blocksOf calls)[b]? = some l →
    ∃ block, g.block? b = some block ∧ block.instructions = l ∧ block.synthetic = false
  edges_nodup : g.graph.edges.Nodup
  mem_successors {a b : Nat} : a < (blocksOf calls).length → b < (blocksOf calls).length →
    (b ∈ g.successors a ↔ Accepted calls a b)
  -- the blocks that were added, only where several blocks are entries or exits
  blockCount_le : g.blockCount ≤ (blocksOf calls).length + 2
  synthetic {b : Nat} {block : Block} : (blocksOf calls).length ≤ b → g.block? b = some block →
    block.instructions = [] ∧ block.synthetic = true ∧ (b = g.entry ∨ g.exit = some b)
  entry_synthetic_iff : (blocksOf calls).length ≤ g.entry ↔
    ∃ a b, a ≠ b ∧ IsEntry calls a ∧ IsEntry calls b
  mem_successors_entry {b : Nat} : (blocksOf calls).length ≤ g.entry →
    (b ∈ g.successors g.entry ↔ IsEntry calls b)
  exit_synthetic_iff : (∃ e, g.exit = some e ∧ (blocksOf calls).length ≤ e) ↔
    ∃ a b, a ≠ b ∧ IsExit calls a ∧ IsExit calls b
  mem_predecessors_exit {e b : Nat} : g.exit = some e → (blocksOf calls).length ≤ e →
    (b ∈ g.predecessors e ↔ IsExit calls b)
  -- instructions and locals
  ids_eq : g.sites.map Site.id = List.range g.instructionCount
  instructions_eq : g.sites.map Site.instruction = (blocksOf calls).flatten
  ordered : g.locals.toList.Pairwise (· < ·)
  mem_locals {x : Local} : x ∈ g.locals ↔
    .declare x ∈ calls ∨ ∃ l, .block l ∈ calls ∧ ∃ i ∈ l, x ∈ i.used ∨ i.defined? = some x

theorem Built.boundary_backward_iff {g : Flowgraph} (h : g.Built) {b : Nat} :
    g.boundary .backward = .ok b ↔ g.exit = some b := by
  cases hexit : g.exit with
  | none => simp [h.boundary_backward_none hexit]
  | some e => simp [h.boundary_backward hexit]

end Flowgraph

namespace Draft

variable {g : Flowgraph}

theorem Finished.mem_edges (h : Finished d g) : (s, t) ∈ g.graph.edges ↔ (s, t) ∈ d.graph.edges ∨
    (1 < d.entries.length ∧ s = d.graph.nodeCount ∧ t ∈ d.entries) ∨
    (1 < d.exits.length ∧ t = d.graph.nodeCount + spare d.entries ∧ s ∈ d.exits) := by
  rw [h.edges_eq, List.mem_append, List.mem_append, or_assoc]
  split <;> split <;> grind

/-- The new edges start at the new entry or end at the new exit, and no edge of the draft does. -/
theorem Finished.edges_nodup (h : Finished d g) (hclosed : d.graph.Closed) (hnodup : d.graph.edges.Nodup) :
    g.graph.edges.Nodup := by
  rw [h.edges_eq]
  apply List.Nodup.append
  · apply List.Nodup.append hnodup
    · split
      · exact d.entries_nodup.map fun _ _ he => (Prod.mk.inj he).2
      · exact List.nodup_nil
    · intro e he hnew
      have hlt := hclosed e he
      grind
  · split
    · exact d.exits_nodup.map fun _ _ he => (Prod.mk.inj he).1
    · exact List.nodup_nil
  · intro e he hnew
    have hlt : ∀ b ∈ d.entries, b < d.graph.nodeCount := fun b => entries_lt
    have hlt' : ∀ b ∈ d.exits, b < d.graph.nodeCount := fun b => exits_lt
    rcases List.mem_append.1 he with he | he
    · have := hclosed e he
      grind
    · grind

theorem Finished.blockCount_eq (h : Finished d g) :
    g.blockCount = d.graph.nodeCount + (spare d.entries + spare d.exits) := by
  have hlength := congrArg List.length h.blocks_eq
  rwa [List.length_append, List.length_replicate] at hlength

theorem Finished.sites_eq (h : Finished d g) : g.sites = d.graph.nodes.flatMap Block.sites := by
  simp [Flowgraph.sites, h.blocks_eq, List.flatMap_append, List.flatMap_replicate, syntheticBlock, Block.sites]

theorem Finished.instructionCount_eq (h : Finished d g) : g.instructionCount = d.instructionCount := by
  simp [Flowgraph.instructionCount, h.blocks_eq, instructionCount, syntheticBlock, Block.size]

section

variable (hh : Holds calls d) (hf : Finished d g)
include hh hf

/-- The blocks of the calls come first. -/
theorem Finished.block?_of_lt {b : Nat} {l : List Instruction} (hl : (blocksOf calls)[b]? = some l) :
    ∃ block, g.block? b = some block ∧ block.instructions = l ∧ block.synthetic = false := by
  obtain ⟨n, hn⟩ := Block.getElem?_layout 0 hl
  rw [← hh.nodes_eq] at hn
  refine ⟨⟨n, l, false⟩, ?_, rfl, rfl⟩
  change g.blocks[b]? = _
  rw [hf.blocks_eq, List.getElem?_append_left (List.getElem?_eq_some_iff.1 hn).1, hn]

/-- Whatever comes after them is an empty block that serves as entry or exit. -/
theorem Finished.block?_of_le {b : Nat} {block : Block} (hb : (blocksOf calls).length ≤ b)
    (hblock : g.block? b = some block) :
    block.instructions = [] ∧ block.synthetic = true ∧ (b = g.entry ∨ g.exit = some b) := by
  have hlt : b < g.blockCount := (List.getElem?_eq_some_iff.1 hblock).1
  rw [hf.blockCount_eq] at hlt
  change g.blocks[b]? = _ at hblock
  rw [← hh.nodeCount_eq] at hb
  rw [hf.blocks_eq, List.getElem?_append_right hb] at hblock
  obtain rfl : block = d.syntheticBlock := List.eq_of_mem_replicate (List.mem_of_getElem? hblock)
  refine ⟨rfl, rfl, ?_⟩
  rcases spare_cases d.entries with ⟨hentries, hone⟩ | ⟨hentries, hnone⟩
  · have hentry := (hf.entry.of_several hentries)
    by_cases hb' : b = d.graph.nodeCount
    · exact .inl (hb'.trans hentry.symm)
    · rcases spare_cases d.exits with ⟨hexits, _⟩ | ⟨_, hexits⟩
      · exact .inr (hf.exit.2 (.inr ⟨hexits, by omega⟩))
      · omega
  · rcases spare_cases d.exits with ⟨hexits, _⟩ | ⟨_, hexits⟩
    · exact .inr (hf.exit.2 (.inr ⟨hexits, by omega⟩))
    · omega

theorem Finished.mem_successors {a b : Nat} (ha : a < (blocksOf calls).length)
    (hb : b < (blocksOf calls).length) : b ∈ g.successors a ↔ Accepted calls a b := by
  rw [Flowgraph.successors, Digraph.mem_successors, hf.mem_edges, hh.mem_edges]
  rw [← hh.nodeCount_eq] at ha hb
  constructor
  · rintro (h | h | h)
    · exact h
    · omega
    · omega
  · exact .inl

theorem Finished.mem_successors_entry (hclosed : d.graph.Closed) {b : Nat}
    (hentry : (blocksOf calls).length ≤ g.entry) : b ∈ g.successors g.entry ↔ IsEntry calls b := by
  rw [← hh.nodeCount_eq] at hentry
  obtain ⟨hseveral, hnew⟩ := hf.entry.of_le (fun c => entries_lt) hentry
  rw [Flowgraph.successors, Digraph.mem_successors, hf.mem_edges, ← hh.mem_entries]
  constructor
  · rintro (h | h | h)
    · have := (hclosed _ h).1
      omega
    · exact h.2.2
    · have := exits_lt h.2.2
      omega
  · intro h
    exact .inr (.inl ⟨hseveral, hnew, h⟩)

theorem Finished.mem_predecessors_exit (hclosed : d.graph.Closed) {b e : Nat} (hexit : g.exit = some e)
    (he : (blocksOf calls).length ≤ e) : b ∈ g.predecessors e ↔ IsExit calls b := by
  rw [← hh.nodeCount_eq] at he
  obtain ⟨hseveral, hnew⟩ := (hf.exit.1 hexit).of_le (fun c => exits_lt) he
  rw [Flowgraph.predecessors, Digraph.mem_predecessors, hf.mem_edges, ← hh.mem_exits]
  constructor
  · rintro (h | h | h)
    · have := (hclosed _ h).2
      omega
    · have := entries_lt h.2.2
      omega
    · exact h.2.2
  · intro h
    exact .inr (.inr ⟨hseveral, hnew, h⟩)

theorem Finished.entry_synthetic_iff : (blocksOf calls).length ≤ g.entry ↔
    ∃ a b, a ≠ b ∧ IsEntry calls a ∧ IsEntry calls b := by
  simp only [← hh.nodeCount_eq, ← hh.mem_entries]
  rw [← one_lt_length_iff d.entries_nodup]
  constructor
  · intro hle
    exact (hf.entry.of_le (fun c => entries_lt) hle).1
  · intro hseveral
    exact (hf.entry.of_several hseveral).ge

theorem Finished.exit_synthetic_iff : (∃ e, g.exit = some e ∧ (blocksOf calls).length ≤ e) ↔
    ∃ a b, a ≠ b ∧ IsExit calls a ∧ IsExit calls b := by
  simp only [← hh.nodeCount_eq, ← hh.mem_exits]
  rw [← one_lt_length_iff d.exits_nodup]
  constructor
  · rintro ⟨e, hexit, hle⟩
    exact ((hf.exit.1 hexit).of_le (fun c => exits_lt) hle).1
  · intro hseveral
    exact ⟨_, hf.exit.2 (.inr ⟨hseveral, rfl⟩), Nat.le_add_right _ _⟩

theorem Finished.sites_eq_zipIdx :
    g.sites = ((blocksOf calls).flatten.zipIdx).map fun p => ⟨p.2, p.1⟩ := by
  rw [hf.sites_eq, hh.nodes_eq, Block.sites_layout]

theorem Finished.mem_locals {x : Local} : x ∈ g.locals ↔
    .declare x ∈ calls ∨ ∃ l, .block l ∈ calls ∧ ∃ i ∈ l, x ∈ i.used ∨ i.defined? = some x := by
  rw [hf.locals_eq, LocalSet.mem_ofList, List.mem_append, hh.mem_declared, hh.nodes_eq,
    Block.mem_locals_layout]
  simp only [mem_blocksOf, Instruction.locals, List.mem_append, Option.mem_toList]

theorem Finished.normalized (hg : g.Built) (hclosed : d.graph.Closed) : g.Normalized calls where
  predecessors_nil_iff := hg.predecessors_nil_iff
  boundary_forward := hg.boundary_forward
  successors_nil_iff := hg.successors_nil_iff
  boundary_backward_iff := hg.boundary_backward_iff
  original := hf.block?_of_lt hh
  edges_nodup := hf.edges_nodup hclosed hh.nodup
  mem_successors := hf.mem_successors hh
  blockCount_le := by
    rw [hf.blockCount_eq, hh.nodeCount_eq]
    have hentries := spare_cases d.entries
    have hexits := spare_cases d.exits
    omega
  synthetic := hf.block?_of_le hh
  entry_synthetic_iff := hf.entry_synthetic_iff hh
  mem_successors_entry := hf.mem_successors_entry hh hclosed
  exit_synthetic_iff := hf.exit_synthetic_iff hh
  mem_predecessors_exit := hf.mem_predecessors_exit hh hclosed
  ids_eq := by
    rw [hf.sites_eq_zipIdx hh, hf.instructionCount_eq, instructionCount, hh.nodes_eq, Block.total_layout,
      List.map_map, List.range_eq_range']
    exact List.zipIdx_map_snd 0 _
  instructions_eq := by
    rw [hf.sites_eq_zipIdx hh, List.map_map]
    exact List.zipIdx_map_fst 0 _
  ordered := g.locals.ordered
  mem_locals := hf.mem_locals hh

end

/-- After any calls, an edge is refused unless both of its ends have been added. Building fails exactly if
there is no block or every block has a predecessor, and else gives the graph that the calls describe. -/
theorem build_normalizes (calls : List Call) :
    (∀ s t, (∃ d, (ofCalls calls).addEdge s t = .ok d) ↔
      s < (blocksOf calls).length ∧ t < (blocksOf calls).length) ∧
    (∀ f, (ofCalls calls).build = .error f ↔
      (blocksOf calls = [] ∧ f = .noBlocks) ∨
      (blocksOf calls ≠ [] ∧ (∀ b < (blocksOf calls).length, ∃ a, Accepted calls a b) ∧ f = .noEntry)) ∧
    ∀ g, (ofCalls calls).build = .ok g → g.Normalized calls := by
  have hh := holds_ofCalls calls
  have hmade := made_ofCalls calls
  refine ⟨fun s t => ?_, fun f => ?_, fun g hbuild => ?_⟩
  · rw [exists_addEdge_iff, hh.nodeCount_eq]
  · rw [build_eq_error_iff, ne_eq, hh.nodes_eq_nil_iff, hh.entries_eq_nil_iff]
  · exact (finished_of_build hbuild).normalized hh ⟨_, hmade, hbuild⟩ hmade.sane.closed

/-- Two blocks that no edge joins, and an edge asked for too early: the new entry and the new exit both
stand next to both blocks. -/
theorem build_normalizes_apart :
    ∃ g, (ofCalls [.edge 0 1, .block [.nop], .block [.ret none], .edge 0 7]).build = .ok g ∧
      g.Normalized [.edge 0 1, .block [.nop], .block [.ret none], .edge 0 7] ∧
      g.entry = 2 ∧ g.exit = some 3 ∧ g.graph.edges = [(2, 0), (2, 1), (0, 3), (1, 3)] :=
  ⟨_, rfl, (build_normalizes _).2.2 _ rfl, rfl, rfl, rfl⟩

end Draft

end FlowHistory
