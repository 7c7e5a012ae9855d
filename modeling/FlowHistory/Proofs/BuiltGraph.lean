import FlowHistory.Flowgraph.Draft
import FlowHistory.Proofs.Order
import Mathlib.Data.List.Nodup
import Mathlib.Logic.Relation

/-!
# Graphs that come out of a draft

Whatever calls made a draft, the graph built from it has edges only between its blocks, numbers its
instructions without leaving its count, and lists every local that an instruction mentions. Its entry is
its only block without predecessors, and its exit, where it has one, its only block without successors.
-/
namespace FlowHistory

namespace Digraph

variable {α : Type}

/-- Every edge joins two nodes of the graph. -/
def Closed (g : Digraph α) : Prop := ∀ e ∈ g.edges, e.1 < g.nodeCount ∧ e.2 < g.nodeCount

theorem closed_addNode {g : Digraph α} (h : g.Closed) (a : α) : (g.addNode a).Closed := by
  intro e he
  have := h e he
  simp only [addNode, nodeCount, List.length_append, List.length_singleton] at this ⊢
  omega

theorem closed_addEdge {g g' : Digraph α} {s t : Nat} {new : Bool} (h : g.Closed)
    (hadd : g.addEdge s t = .ok (g', new)) : g'.Closed := by
  simp only [addEdge] at hadd
  split at hadd
  · cases hadd
  · split at hadd
    · cases hadd
    · split at hadd
      · cases hadd
        exact h
      · cases hadd
        intro e he
        rcases List.mem_append.1 he with he | he
        · exact h e he
        · rw [List.mem_singleton.1 he]
          exact ⟨by simpa [nodeCount] using ‹¬ g.nodeCount ≤ s›, by simpa [nodeCount] using ‹¬ g.nodeCount ≤ t›⟩

/-- A node may come with edges whose ends are old nodes or itself. -/
theorem closed_append {g : Digraph α} (h : g.Closed) (a : α) {edges : List (Nat × Nat)}
    (hedges : ∀ e ∈ edges, e.1 ≤ g.nodeCount ∧ e.2 ≤ g.nodeCount) :
    Closed ⟨g.nodes ++ [a], g.edges ++ edges⟩ := by
  intro e he
  have hcount : nodeCount ⟨g.nodes ++ [a], g.edges ++ edges⟩ = g.nodeCount + 1 := by simp [nodeCount]
  rw [hcount]
  rcases List.mem_append.1 he with he | he
  · have := h e he
    omega
  · have := hedges e he
    omega

theorem closed_addSource {g : Digraph α} (h : g.Closed) (a : α) {targets : List Nat}
    (ht : ∀ t ∈ targets, t < g.nodeCount) : (g.addSource a targets).Closed := by
  refine closed_append h a fun e he => ?_
  obtain ⟨t, hmem, rfl⟩ := List.mem_map.1 he
  exact ⟨Nat.le_refl _, Nat.le_of_lt (ht t hmem)⟩

theorem closed_addSink {g : Digraph α} (h : g.Closed) (a : α) {sources : List Nat}
    (hs : ∀ s ∈ sources, s < g.nodeCount) : (g.addSink a sources).Closed := by
  refine closed_append h a fun e he => ?_
  obtain ⟨s, hmem, rfl⟩ := List.mem_map.1 he
  exact ⟨Nat.le_of_lt (hs s hmem), Nat.le_refl _⟩

theorem addEdge_of_absent {g : Digraph α} {s t : Nat} (hs : s < g.nodeCount) (ht : t < g.nodeCount)
    (h : (s, t) ∉ g.edges) : g.addEdge s t = .ok (⟨g.nodes, g.edges ++ [(s, t)]⟩, true) := by
  simp [addEdge, hasEdge, Nat.not_le.2 hs, Nat.not_le.2 ht, h]

/-- New edges between nodes of the graph are added one by one; none is refused and none is there already. -/
theorem foldlM_addEdge {g : Digraph α} {edges : List (Nat × Nat)}
    (hnodes : ∀ e ∈ edges, e.1 < g.nodeCount ∧ e.2 < g.nodeCount) (hnew : ∀ e ∈ edges, e ∉ g.edges)
    (hnodup : edges.Nodup) :
    edges.foldlM (fun g e => Prod.fst <$> g.addEdge e.1 e.2) g = .ok ⟨g.nodes, g.edges ++ edges⟩ := by
  induction edges generalizing g with
  | nil => rw [List.append_nil]; rfl
  | cons e edges ih =>
    rw [List.forall_mem_cons] at hnodes hnew
    obtain ⟨hhead, htail⟩ := List.nodup_cons.1 hnodup
    have hadd := addEdge_of_absent hnodes.1.1 hnodes.1.2 hnew.1
    have hrest : ∀ e' ∈ edges, e' ∉ g.edges ++ [e] := by
      intro e' he' hmem
      rcases List.mem_append.1 hmem with hmem | hmem
      · exact hnew.2 e' he' hmem
      · exact hhead (List.mem_singleton.1 hmem ▸ he')
    rw [List.foldlM_cons, hadd]
    refine (ih (g := ⟨g.nodes, g.edges ++ [e]⟩) hnodes.2 hrest htail).trans ?_
    rw [List.append_assoc, List.singleton_append]

/-- A node added on its own and then edge by edge, each between it and another one of the old nodes. -/
theorem foldlM_addEdge_addNode {g : Digraph α} (h : g.Closed) (a : α) {others : List Nat}
    (hlt : ∀ n ∈ others, n < g.nodeCount) (hnodup : others.Nodup) {edge : Nat → Nat × Nat}
    (hinj : Function.Injective edge)
    (hends : ∀ n, edge n = (g.nodeCount, n) ∨ edge n = (n, g.nodeCount)) :
    others.foldlM (fun g n => Prod.fst <$> g.addEdge (edge n).1 (edge n).2) (g.addNode a) =
      .ok ⟨g.nodes ++ [a], g.edges ++ others.map edge⟩ := by
  have hcount : (g.addNode a).nodeCount = g.nodeCount + 1 := by simp [addNode, nodeCount]
  have hedges : ∀ e ∈ others.map edge,
      (e.1 < (g.addNode a).nodeCount ∧ e.2 < (g.addNode a).nodeCount) ∧ e ∉ g.edges := by
    intro e he
    obtain ⟨n, hmem, rfl⟩ := List.mem_map.1 he
    have hn := hlt n hmem
    rcases hends n with hedge | hedge <;> rw [hedge, hcount]
    · exact ⟨⟨by omega, by omega⟩, fun hthere => Nat.lt_irrefl _ (h _ hthere).1⟩
    · exact ⟨⟨by omega, by omega⟩, fun hthere => Nat.lt_irrefl _ (h _ hthere).2⟩
  have hloop := foldlM_addEdge (fun e he => (hedges e he).1) (fun e he => (hedges e he).2)
    (hnodup.map hinj)
  rwa [List.foldlM_map] at hloop

theorem foldlM_addEdge_source {g : Digraph α} (h : g.Closed) (a : α) {targets : List Nat}
    (ht : ∀ t ∈ targets, t < g.nodeCount) (hnodup : targets.Nodup) :
    targets.foldlM (fun g' t => Prod.fst <$> g'.addEdge g.nodeCount t) (g.addNode a) =
      .ok (g.addSource a targets) :=
  foldlM_addEdge_addNode h a ht hnodup (fun _ _ heq => (Prod.mk.inj heq).2) fun _ => .inl rfl

theorem foldlM_addEdge_sink {g : Digraph α} (h : g.Closed) (a : α) {sources : List Nat}
    (hs : ∀ s ∈ sources, s < g.nodeCount) (hnodup : sources.Nodup) :
    sources.foldlM (fun g' s => Prod.fst <$> g'.addEdge s g.nodeCount) (g.addNode a) =
      .ok (g.addSink a sources) :=
  foldlM_addEdge_addNode h a hs hnodup (fun _ _ heq => (Prod.mk.inj heq).1) fun _ => .inr rfl

theorem nodeCount_addSource (g : Digraph α) (a : α) (targets : List Nat) :
    (g.addSource a targets).nodeCount = g.nodeCount + 1 := by
  simp [nodeCount, addSource]

theorem nodeCount_addSink (g : Digraph α) (a : α) (sources : List Nat) :
    (g.addSink a sources).nodeCount = g.nodeCount + 1 := by
  simp [nodeCount, addSink]

theorem mem_edges_addSource {g : Digraph α} {a : α} {targets : List Nat} {s t : Nat} :
    (s, t) ∈ (g.addSource a targets).edges ↔ (s, t) ∈ g.edges ∨ (t ∈ targets ∧ g.nodeCount = s) := by
  simp only [addSource, List.mem_append, List.mem_map, Prod.mk.injEq]
  refine or_congr_right ⟨?_, ?_⟩
  · rintro ⟨t', ht', hs, rfl⟩
    exact ⟨ht', hs⟩
  · rintro ⟨ht, hs⟩
    exact ⟨t, ht, hs, rfl⟩

theorem mem_edges_addSink {g : Digraph α} {a : α} {sources : List Nat} {s t : Nat} :
    (s, t) ∈ (g.addSink a sources).edges ↔ (s, t) ∈ g.edges ∨ (s ∈ sources ∧ g.nodeCount = t) := by
  simp only [addSink, List.mem_append, List.mem_map, Prod.mk.injEq]
  refine or_congr_right ⟨?_, ?_⟩
  · rintro ⟨s', hs', rfl, ht⟩
    exact ⟨hs', ht⟩
  · rintro ⟨hs, ht⟩
    exact ⟨s, hs, rfl, ht⟩

end Digraph

/-- The end of every block's numbering is within the number of instructions of all blocks. -/
def Numbered (blocks : List Block) : Prop :=
  ∀ b ∈ blocks, b.first + b.size ≤ Block.total blocks

theorem numbered_append {blocks : List Block} (h : Numbered blocks) {b : Block}
    (hb : b.first = Block.total blocks) : Numbered (blocks ++ [b]) := by
  intro c hc
  simp only [Block.total_append, Block.total]
  rcases List.mem_append.1 hc with hc | hc
  · have := h c hc
    omega
  · rw [List.mem_singleton.1 hc]
    omega

theorem size_le_of_numbered {blocks : List Block} {b : Block} (h : Numbered blocks) (hb : b ∈ blocks) :
    b.size ≤ Block.total blocks := by
  have := h b hb
  omega

namespace Draft

/-- Drafts made from nothing by adding blocks, edges and declarations. A refused edge leaves the draft
as it was. -/
inductive Made : Draft → Prop
  | empty : Made Draft.empty
  | addBlock {d : Draft} (instructions : List Instruction) : Made d → Made (d.addBlock instructions)
  | addEdge {d d' : Draft} {source target : Nat} :
    Made d → d.addEdge source target = .ok d' → Made d'
  | declare {d : Draft} (x : Local) : Made d → Made (d.declare x)

/-- What every call keeps: edges between blocks only, and instructions numbered on from block to
block. -/
structure Sane (d : Draft) : Prop where
  closed : d.graph.Closed
  numbered : Numbered d.graph.nodes

theorem Made.sane {d : Draft} (h : d.Made) : d.Sane := by
  induction h with
  | empty => exact ⟨fun e he => by simp [Draft.empty, Digraph.empty] at he,
      fun b hb => by simp [Draft.empty, Digraph.empty] at hb⟩
  | addBlock instructions _ ih =>
    exact ⟨Digraph.closed_addNode ih.closed _, numbered_append ih.numbered rfl⟩
  | @addEdge d d' source target _ hadd ih =>
    simp only [Draft.addEdge, bind_eq_ok, pure_eq_ok] at hadd
    obtain ⟨⟨graph, new⟩, hgraph, rfl⟩ := hadd
    refine ⟨Digraph.closed_addEdge ih.closed hgraph, ?_⟩
    have hnodes : graph.nodes = d.graph.nodes := by
      simp only [Digraph.addEdge] at hgraph
      split at hgraph
      · cases hgraph
      · split at hgraph
        · cases hgraph
        · split at hgraph <;> cases hgraph <;> rfl
    rw [hnodes]
    exact ih.numbered
  | declare x _ ih => exact ⟨ih.closed, ih.numbered⟩

theorem entries_lt {d : Draft} {b : Nat} (h : b ∈ d.entries) : b < d.graph.nodeCount :=
  List.mem_range.1 (List.mem_filter.1 h).1

theorem exits_lt {d : Draft} {b : Nat} (h : b ∈ d.exits) : b < d.graph.nodeCount :=
  List.mem_range.1 (List.mem_filter.1 h).1

/-- What normalising may do to the graph: nothing, or an empty block put before or after some of its
blocks. -/
inductive Extends (extra : Block) (graph : Digraph Block) : Digraph Block → Prop
  | same : Extends extra graph graph
  | source {targets : List Nat} : (∀ t ∈ targets, t < graph.nodeCount) →
    Extends extra graph (graph.addSource extra targets)
  | sink {sources : List Nat} : (∀ s ∈ sources, s < graph.nodeCount) →
    Extends extra graph (graph.addSink extra sources)

theorem extends_enter {graph graph' : Digraph Block} {extra : Block} {several : List Nat} {entry : Nat}
    (hlt : ∀ b ∈ several, b < graph.nodeCount) (h : enter graph extra several = .ok (graph', entry)) :
    Extends extra graph graph' := by
  match several, h with
  | [_], h => cases h; exact .same
  | _ :: _ :: _, h => cases h; exact .source hlt

theorem extends_leave {graph : Digraph Block} {extra : Block} {several : List Nat}
    (hlt : ∀ b ∈ several, b < graph.nodeCount) :
    Extends extra graph (leave graph extra several).1 := by
  match several with
  | [] => exact .same
  | [_] => exact .same
  | _ :: _ :: _ => exact .sink hlt

theorem Extends.nodeCount_le {extra : Block} {graph graph' : Digraph Block}
    (h : Extends extra graph graph') : graph.nodeCount ≤ graph'.nodeCount := by
  cases h <;> simp [Digraph.nodeCount, Digraph.addSource, Digraph.addSink]

theorem Extends.closed {extra : Block} {graph graph' : Digraph Block} (h : Extends extra graph graph')
    (hc : graph.Closed) : graph'.Closed := by
  cases h with
  | same => exact hc
  | source ht => exact Digraph.closed_addSource hc extra ht
  | sink hs => exact Digraph.closed_addSink hc extra hs

theorem Extends.mem_nodes {extra : Block} {graph graph' : Digraph Block}
    (h : Extends extra graph graph') {b : Block} (hb : b ∈ graph'.nodes) :
    b ∈ graph.nodes ∨ b = extra := by
  cases h with
  | same => exact .inl hb
  | source _ => simpa [Digraph.addSource] using hb
  | sink _ => simpa [Digraph.addSink] using hb

theorem Extends.total_eq {extra : Block} {graph graph' : Digraph Block}
    (h : Extends extra graph graph') (hextra : extra.size = 0) :
    Block.total graph'.nodes = Block.total graph.nodes := by
  cases h <;> simp [Digraph.addSource, Digraph.addSink, Block.total, hextra]

/-- A node of the graph that no edge reaches. -/
def IsSource (graph : Digraph Block) (b : Nat) : Prop :=
  b < graph.nodeCount ∧ ∀ s, (s, b) ∉ graph.edges

theorem mem_entries_iff {d : Draft} {b : Nat} : b ∈ d.entries ↔ IsSource d.graph b := by
  have hdegree : d.graph.inDegree b = 0 ↔ ∀ s, (s, b) ∉ d.graph.edges := by
    rw [Digraph.inDegree, List.length_eq_zero_iff, List.eq_nil_iff_forall_not_mem]
    simp only [Digraph.mem_predecessors]
  simp only [entries, List.mem_filter, Digraph.ids, List.mem_range, beq_iff_eq, hdegree, IsSource]

/-- Where several blocks have no predecessor, the new entry takes that over from all of them. -/
theorem isSource_enter {graph graph' : Digraph Block} {extra : Block} {several : List Nat} {entry : Nat}
    (hclosed : graph.Closed) (hseveral : ∀ b, b ∈ several ↔ IsSource graph b)
    (h : enter graph extra several = .ok (graph', entry)) {b : Nat} :
    IsSource graph' b ↔ b = entry := by
  match several, h with
  | [c], h =>
    cases h
    rw [← hseveral, List.mem_singleton]
  | c :: c' :: rest, h =>
    cases h
    simp only [IsSource, Digraph.nodeCount_addSource, Digraph.mem_edges_addSource, hseveral, not_or,
      not_and]
    constructor
    · rintro ⟨hlt, hnone⟩
      by_contra hne
      exact (hnone graph.nodeCount).2 ⟨by omega, fun s => (hnone s).1⟩ rfl
    · rintro rfl
      refine ⟨by omega, fun s => ⟨fun hs => ?_, fun hsource => ?_⟩⟩
      · exact Nat.lt_irrefl _ (hclosed _ hs).2
      · exact absurd hsource.1 (Nat.lt_irrefl _)

/-- Other blocks lead to a new exit, and no block loses or gains an edge to it. -/
theorem isSource_leave {graph : Digraph Block} (extra : Block) (several : List Nat) {b : Nat} :
    IsSource (leave graph extra several).1 b ↔ IsSource graph b := by
  match several with
  | [] => rfl
  | [_] => rfl
  | c :: c' :: rest =>
    simp only [IsSource, leave, Digraph.nodeCount_addSink, Digraph.mem_edges_addSink, not_or, not_and]
    constructor
    · rintro ⟨hlt, hnone⟩
      have hne : graph.nodeCount ≠ b := (hnone c).2 (by simp)
      exact ⟨by omega, fun s => (hnone s).1⟩
    · rintro ⟨hlt, hnone⟩
      exact ⟨by omega, fun s => ⟨hnone s, fun _ => by omega⟩⟩

/-- A node of the graph that no edge leaves. -/
def IsSink (graph : Digraph Block) (b : Nat) : Prop :=
  b < graph.nodeCount ∧ ∀ t, (b, t) ∉ graph.edges

theorem mem_exits_iff {d : Draft} {b : Nat} : b ∈ d.exits ↔ IsSink d.graph b := by
  have hdegree : d.graph.outDegree b = 0 ↔ ∀ t, (b, t) ∉ d.graph.edges := by
    rw [Digraph.outDegree, List.length_eq_zero_iff, List.eq_nil_iff_forall_not_mem]
    simp only [Digraph.mem_successors]
  simp only [exits, List.mem_filter, Digraph.ids, List.mem_range, beq_iff_eq, hdegree, IsSink]

/-- A new entry leads to other blocks, and no block gains an edge to it. -/
theorem isSink_enter {graph graph' : Digraph Block} {extra : Block} {several : List Nat} {entry : Nat}
    (h : enter graph extra several = .ok (graph', entry)) {b : Nat} :
    IsSink graph' b ↔ IsSink graph b := by
  match several, h with
  | [_], h => cases h; rfl
  | c :: c' :: rest, h =>
    cases h
    simp only [IsSink, Digraph.nodeCount_addSource, Digraph.mem_edges_addSource, not_or, not_and]
    constructor
    · rintro ⟨hlt, hnone⟩
      have hne : graph.nodeCount ≠ b := (hnone c).2 (by simp)
      exact ⟨by omega, fun t => (hnone t).1⟩
    · rintro ⟨hlt, hnone⟩
      exact ⟨by omega, fun t => ⟨hnone t, fun _ => by omega⟩⟩

/-- Where several blocks have no successor, the new exit takes that over from all of them. -/
theorem isSink_leave {graph graph' : Digraph Block} {extra : Block} {several : List Nat}
    {exit : Option Nat} (hclosed : graph.Closed) (hseveral : ∀ b, b ∈ several ↔ IsSink graph b)
    (h : leave graph extra several = (graph', exit)) {b : Nat} : IsSink graph' b ↔ exit = some b := by
  match several, h with
  | [], h =>
    cases h
    simp [← hseveral]
  | [c], h =>
    cases h
    rw [← hseveral, List.mem_singleton, Option.some.injEq, eq_comm]
  | c :: c' :: rest, h =>
    cases h
    simp only [IsSink, Digraph.nodeCount_addSink, Digraph.mem_edges_addSink, hseveral, not_or, not_and,
      Option.some.injEq]
    constructor
    · rintro ⟨hlt, hnone⟩
      by_contra hne
      exact (hnone graph.nodeCount).2 ⟨by omega, fun t => (hnone t).1⟩ rfl
    · rintro rfl
      refine ⟨by omega, fun t => ⟨fun ht => ?_, fun hsink => ?_⟩⟩
      · exact Nat.lt_irrefl _ (hclosed _ ht).1
      · exact absurd hsink.1 (Nat.lt_irrefl _)

end Draft

namespace Flowgraph

/-- Graphs that the builder gives out. -/
def Built (g : Flowgraph) : Prop := ∃ d : Draft, d.Made ∧ d.build = .ok g

/-- What an analysis may rely on in a graph. -/
structure Sane (g : Flowgraph) : Prop where
  closed : g.graph.Closed
  numbered : Numbered g.blocks
  mentioned {b : Block} {x : Local} : b ∈ g.blocks → x ∈ b.locals → x ∈ g.locals

theorem Built.sane {g : Flowgraph} (h : g.Built) : g.Sane := by
  obtain ⟨d, hmade, hbuild⟩ := h
  have hd := hmade.sane
  simp only [Draft.build] at hbuild
  split at hbuild
  · cases hbuild
  · obtain ⟨⟨g₁, entry⟩, henter, hbuild⟩ := bind_eq_ok.1 hbuild
    simp only [pure_eq_ok] at hbuild
    subst hbuild
    -- two extensions, each by at most one empty block
    have h₁ := Draft.extends_enter (fun b => Draft.entries_lt) henter
    have h₂ : Draft.Extends d.syntheticBlock g₁ (Draft.leave g₁ d.syntheticBlock d.exits).1 :=
      Draft.extends_leave fun b hb => Nat.lt_of_lt_of_le (Draft.exits_lt hb) h₁.nodeCount_le
    have hsize : d.syntheticBlock.size = 0 := rfl
    have htotal := (h₂.total_eq hsize).trans (h₁.total_eq hsize)
    have hnodes : ∀ b ∈ (Draft.leave g₁ d.syntheticBlock d.exits).1.nodes,
        b ∈ d.graph.nodes ∨ b = d.syntheticBlock := by
      intro b hb
      rcases h₂.mem_nodes hb with hb | rfl
      · exact h₁.mem_nodes hb
      · exact .inr rfl
    refine ⟨h₂.closed (h₁.closed hd.closed), fun b hb => ?_, fun {b x} hb hx => ?_⟩
    · simp only [blocks] at hb ⊢
      rw [htotal]
      rcases hnodes b hb with hb | rfl
      · exact hd.numbered b hb
      · simp [Draft.syntheticBlock, Draft.instructionCount, Block.size]
    · rcases hnodes b hb with hb | rfl
      · exact LocalSet.mem_ofList.2 (List.mem_append_right _ (List.mem_flatMap.2 ⟨b, hb, hx⟩))
      · simp [Draft.syntheticBlock, Block.locals] at hx

/-- The entry of a built graph is its only block without predecessors. -/
theorem Built.predecessors_nil_iff {g : Flowgraph} (h : g.Built) {b : Nat} :
    b < g.blockCount ∧ g.predecessors b = [] ↔ b = g.entry := by
  obtain ⟨d, hmade, hbuild⟩ := h
  simp only [Draft.build] at hbuild
  split at hbuild
  · cases hbuild
  · obtain ⟨⟨g₁, entry⟩, henter, hbuild⟩ := bind_eq_ok.1 hbuild
    simp only [pure_eq_ok] at hbuild
    subst hbuild
    have hsource : Draft.IsSource (Draft.leave g₁ d.syntheticBlock d.exits).1 b ↔ b = entry := by
      rw [Draft.isSource_leave]
      exact Draft.isSource_enter hmade.sane.closed (fun b => Draft.mem_entries_iff) henter
    rw [← hsource]
    refine and_congr_right fun _ => ?_
    rw [List.eq_nil_iff_forall_not_mem]
    exact forall_congr' fun s => not_congr Digraph.mem_predecessors

/-- The exit of a built graph, where it has one, is its only block without successors. -/
theorem Built.successors_nil_iff {g : Flowgraph} (h : g.Built) {b : Nat} :
    b < g.blockCount ∧ g.successors b = [] ↔ g.exit = some b := by
  obtain ⟨d, hmade, hbuild⟩ := h
  simp only [Draft.build] at hbuild
  split at hbuild
  · cases hbuild
  · obtain ⟨⟨g₁, entry⟩, henter, hbuild⟩ := bind_eq_ok.1 hbuild
    simp only [pure_eq_ok] at hbuild
    subst hbuild
    have hclosed : g₁.Closed :=
      (Draft.extends_enter (fun b => Draft.entries_lt) henter).closed hmade.sane.closed
    have hexits : ∀ b, b ∈ d.exits ↔ Draft.IsSink g₁ b := fun b => by
      rw [Draft.mem_exits_iff, Draft.isSink_enter henter]
    refine Iff.trans ?_ (Draft.isSink_leave hclosed hexits (Prod.ext rfl rfl))
    refine and_congr_right fun _ => ?_
    rw [List.eq_nil_iff_forall_not_mem]
    exact forall_congr' fun t => not_congr Digraph.mem_successors

theorem mem_blockIds_filter {g : Flowgraph} {d : Direction} {c : Nat} :
    c ∈ g.blockIds.filter (fun c => (g.sources d c).isEmpty) ↔
      c < g.blockCount ∧ g.sources d c = [] := by
  rw [List.mem_filter, List.isEmpty_iff, blockIds, Digraph.ids, List.mem_range]
  rfl

/-- A block that is the only one without sources is the boundary. -/
theorem boundary_of_unique {g : Flowgraph} {d : Direction} {b : Nat}
    (h : ∀ c, c < g.blockCount ∧ g.sources d c = [] ↔ c = b) : g.boundary d = .ok b := by
  have hmem : ∀ c, c ∈ g.blockIds.filter (fun c => (g.sources d c).isEmpty) ↔ c ∈ [b] := by
    intro c
    rw [mem_blockIds_filter, h c, List.mem_singleton]
  have hnodup : (g.blockIds.filter fun c => (g.sources d c).isEmpty).Nodup :=
    List.nodup_range.filter _
  have hperm := (List.perm_ext_iff_of_nodup hnodup (by simp)).2 hmem
  rw [boundary, List.perm_singleton.1 hperm]

/-- Analyses in the direction of control start at the entry of a built graph. -/
theorem Built.boundary_forward {g : Flowgraph} (h : g.Built) : g.boundary .forward = .ok g.entry :=
  boundary_of_unique fun _ => h.predecessors_nil_iff

/-- Analyses against the flow of control start at its exit. -/
theorem Built.boundary_backward {g : Flowgraph} (h : g.Built) {exit : Nat} (hexit : g.exit = some exit) :
    g.boundary .backward = .ok exit := by
  refine boundary_of_unique fun c => h.successors_nil_iff.trans ?_
  rw [hexit, Option.some.injEq, eq_comm]

/-- Without an exit there is nowhere to start. -/
theorem Built.boundary_backward_none {g : Flowgraph} (h : g.Built) (hexit : g.exit = none) :
    g.boundary .backward = .error (.noBoundary .backward) := by
  have hnone : g.blockIds.filter (fun c => (g.sources .backward c).isEmpty) = [] := by
    rw [List.eq_nil_iff_forall_not_mem]
    intro c hc
    have hsome := h.successors_nil_iff.1 (mem_blockIds_filter.1 hc)
    rw [hexit] at hsome
    cases hsome
  rw [boundary, hnone]

variable {g : Flowgraph}

theorem sources_lt (h : g.Sane) {d : Direction} {a b : Nat} (ha : a ∈ g.sources d b) :
    a < g.blockCount := by
  cases d with
  | forward => exact (h.closed _ (Digraph.mem_predecessors.1 ha)).1
  | backward => exact (h.closed _ (Digraph.mem_successors.1 ha)).2

theorem targets_lt (h : g.Sane) {d : Direction} {a b : Nat} (hb : b ∈ g.targets d a) :
    b < g.blockCount := by
  cases d with
  | forward => exact (h.closed _ (Digraph.mem_successors.1 hb)).2
  | backward => exact (h.closed _ (Digraph.mem_predecessors.1 hb)).1

/-- The two views of an edge agree. -/
theorem mem_sources_iff_mem_targets {d : Direction} {a b : Nat} :
    a ∈ g.sources d b ↔ b ∈ g.targets d a := by
  cases d with
  | forward => exact Digraph.mem_predecessors.trans Digraph.mem_successors.symm
  | backward => exact Digraph.mem_successors.trans Digraph.mem_predecessors.symm

theorem block?_eq_some_of_lt {b : Nat} (h : b < g.blockCount) : ∃ block, g.block? b = some block :=
  ⟨_, List.getElem?_eq_getElem h⟩

theorem block_eq_ok {b : Nat} {block : Block} : g.block b = .ok block ↔ g.block? b = some block := by
  simp only [Flowgraph.block]
  split <;> simp_all

theorem mem_blocks_of_block? {b : Nat} {block : Block} (h : g.block? b = some block) : block ∈ g.blocks :=
  List.mem_of_getElem? h

theorem mem_sites_of_block? {b : Nat} {block : Block} (h : g.block? b = some block) {s : Site}
    (hs : s ∈ block.sites) : s ∈ g.sites := List.mem_flatMap.2 ⟨block, mem_blocks_of_block? h, hs⟩

theorem size_le_instructionCount (h : g.Sane) {b : Nat} {block : Block} (hb : g.block? b = some block) :
    block.size ≤ g.instructionCount := size_le_of_numbered h.numbered (mem_blocks_of_block? hb)

/-- The boundary is the only block into which nothing flows. -/
theorem boundary_eq_ok {d : Direction} {b : Nat} (h : g.boundary d = .ok b) :
    b < g.blockCount ∧ ∀ c < g.blockCount, g.sources d c = [] ↔ c = b := by
  simp only [boundary] at h
  split at h
  · cases h
  · rename_i c hc
    cases h
    have hmem : ∀ c, c ∈ g.blockIds.filter (fun b => (g.sources d b).isEmpty) ↔ c = b := by
      intro c
      rw [hc, List.mem_singleton]
    simp only [mem_blockIds_filter] at hmem
    exact ⟨((hmem b).2 rfl).1, fun c hlt => ⟨fun hs => (hmem c).1 ⟨hlt, hs⟩, fun he => ((hmem c).2 he).2⟩⟩
  · cases h

end Flowgraph

end FlowHistory
