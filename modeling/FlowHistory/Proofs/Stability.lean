import FlowHistory.Proofs.BlockStep

/-!
# Stability of the iteration

Between two block steps, every block that was visited and does not wait satisfies its equations. The
reason is local: what a visit changes is the result of one block, and the blocks that read it are
exactly those that a changed result puts on the list. Nothing is asked of the analysis here.
-/
namespace FlowHistory

namespace Problem

variable {V : Type} [LatticeValue V] {p : Problem V}

omit [LatticeValue V] in
theorem Reachable.lt {b : Nat} (hg : p.graph.Sane) (hb : p.boundary < p.graph.blockCount)
    (h : p.Reachable b) : b < p.graph.blockCount := by
  induction h with
  | refl => exact hb
  | tail _ hstep _ => exact Flowgraph.targets_lt hg hstep

omit [LatticeValue V] in
theorem mem_sources_iff {a b : Nat} : a ∈ p.sources b ↔ b ∈ p.targets a :=
  Flowgraph.mem_sources_iff_mem_targets

/-- The results that flow into a block. -/
def incoming (p : Problem V) (states : List (BlockState V)) (b : Nat) : List (Env V) :=
  (p.sources b).filterMap fun s => (states[s]?).map BlockState.output

theorem inputOf_of_sources_nil {states : List (BlockState V)} {b : Nat} (h : p.sources b = []) :
    p.inputOf states b = .ok (p.analysis.seed p.graph p.boundary b) := by
  simp only [inputOf, h]

theorem inputOf_of_sources_ne_nil {states : List (BlockState V)} {b : Nat} (h : p.sources b ≠ []) :
    p.inputOf states b = Env.joinAll (p.incoming states b) := by
  rw [inputOf, incoming, ← List.map_filterMap]
  split
  · rename_i hnil
    exact absurd hnil h
  · rfl

/-- The input of a block depends only on the results of its sources. -/
theorem inputOf_congr {states states' : List (BlockState V)} {b : Nat}
    (h : ∀ s ∈ p.sources b, (states[s]?).map BlockState.output = (states'[s]?).map BlockState.output) :
    p.inputOf states b = p.inputOf states' b := by
  by_cases hs : p.sources b = []
  · rw [inputOf_of_sources_nil hs, inputOf_of_sources_nil hs]
  · rw [inputOf_of_sources_ne_nil hs, inputOf_of_sources_ne_nil hs, incoming, incoming,
      List.filterMap_congr h]

end Problem

namespace Engine

variable {V : Type} [DecidableEq V] [LatticeValue V]

/-- What block steps keep, whatever the analysis. -/
structure Consistent (p : Problem V) (e : Engine V) : Prop where
  problem_eq : e.problem = p
  states_length : e.states.length = p.graph.blockCount
  visited_length : e.visited.length = p.graph.blockCount
  queued_reachable {b : Nat} : b ∈ e.queue.toList → p.Reachable b
  visited_reachable {b : Nat} : e.visited[b]? = some true → p.Reachable b
  boundary_seen : e.visited[p.boundary]? = some true ∨ p.boundary ∈ e.queue.toList
  targets_seen {b t : Nat} : e.visited[b]? = some true → t ∈ p.targets b →
    e.visited[t]? = some true ∨ t ∈ e.queue.toList
  satisfied {b : Nat} : e.visited[b]? = some true → b ∉ e.queue.toList → p.Satisfied e.states b
  recorded {b : Nat} : (∃ s ∈ e.snapshots.toList, s.cursor.block = b) ↔ e.visited[b]? = some true
  shown {last : Snapshot V} : e.snapshots.toList.getLast? = some last →
    last.worklist = e.queue.toList ∧ last.states = e.states

omit [DecidableEq V] [LatticeValue V] in
theorem visited_set {e : Engine V} {b c : Nat} (hb : b < e.visited.length) :
    (e.visited.set b true)[c]? = some true ↔ c = b ∨ e.visited[c]? = some true := by
  rw [List.getElem?_set]
  by_cases h : b = c
  · subst h
    simp [hb]
  · simp [h, Ne.symm h]

section

variable {p : Problem V} {e m : Engine V} {b : Nat} {q : Worklist} {block : Block} {input output : Env V}

/-- What waits after a visit: what waited behind the block, and its targets if the result is passed
on. -/
theorem BlockStep.mem_queue (h : BlockStep e b q block input output m) {c : Nat} :
    c ∈ m.queue.toList ↔
      c ∈ q.toList ∨ (e.renews b input output = true ∧ c ∈ e.problem.targets b) := by
  rw [h.queue_eq]
  split
  · rename_i hr
    simp [Worklist.mem_addAll, hr]
  · rename_i hr
    simp [hr]

/-- A visit that passes nothing on leaves the result of every block as it was. -/
theorem BlockStep.output_eq_of_not_renews (h : BlockStep e b q block input output m)
    (hb : b < e.states.length) (hr : e.renews b input output = false) (c : Nat) :
    (m.states[c]?).map BlockState.output = (e.states[c]?).map BlockState.output := by
  rw [h.states_eq, List.getElem?_set]
  by_cases hc : b = c
  · subst hc
    simp only [renews, Bool.or_eq_false_iff, bne_eq_false_iff_eq, List.getElem?_eq_getElem hb,
      Option.map_some, Option.getD_some] at hr
    simp [hb, hr.2]
  · simp [hc]

/-- After a visit, the input of a block that does not wait is what it was before. -/
theorem BlockStep.inputOf_eq (h : BlockStep e b q block input output m) (hb : b < e.states.length)
    {c : Nat} (hc : c ∉ m.queue.toList) :
    e.problem.inputOf m.states c = e.problem.inputOf e.states c := by
  refine Problem.inputOf_congr fun s hs => ?_
  cases hr : e.renews b input output with
  | false => exact h.output_eq_of_not_renews hb hr s
  | true =>
    -- the block that was visited does not flow into `c`, or else `c` would wait
    have hsb : b ≠ s := by
      rintro rfl
      exact hc (h.mem_queue.2 (.inr ⟨hr, Problem.mem_sources_iff.1 hs⟩))
    rw [h.states_eq, List.getElem?_set_ne hsb]

theorem Consistent.blockStep (hg : p.graph.Sane) (hbound : p.boundary < p.graph.blockCount)
    (hc : Consistent p e) (hperm : (b :: q.toList).Perm e.queue.toList)
    (h : BlockStep e b q block input output m) : Consistent p m := by
  have hp := hc.problem_eq
  have hqueue : ∀ c, c ∈ e.queue.toList ↔ c = b ∨ c ∈ q.toList := fun c => by
    rw [← hperm.mem_iff, List.mem_cons]
  have hreach : p.Reachable b := hc.queued_reachable ((hqueue b).2 (.inl rfl))
  have hlt := hreach.lt hg hbound
  have hbs : b < e.states.length := hc.states_length ▸ hlt
  have hbv : b < e.visited.length := hc.visited_length ▸ hlt
  have hvisited : ∀ c, m.visited[c]? = some true ↔ c = b ∨ e.visited[c]? = some true := fun c => by
    rw [h.visited_eq, visited_set hbv]
  have hstill : ∀ c, c ∈ q.toList → c ∈ m.queue.toList := fun c hcq => h.mem_queue.2 (.inl hcq)
  -- a block seen before the visit, as visited or waiting, is seen after it
  have hseen : ∀ c, e.visited[c]? = some true ∨ c ∈ e.queue.toList →
      m.visited[c]? = some true ∨ c ∈ m.queue.toList := by
    intro c hcs
    rcases hcs with hcs | hcs
    · exact .inl ((hvisited c).2 (.inr hcs))
    · rcases (hqueue c).1 hcs with rfl | hcs
      · exact .inl ((hvisited c).2 (.inl rfl))
      · exact .inr (hstill c hcs)
  refine ⟨h.problem_eq.trans hp, by rw [h.states_eq, List.length_set, hc.states_length],
    by rw [h.visited_eq, List.length_set, hc.visited_length], ?_, ?_, hseen _ hc.boundary_seen, ?_, ?_,
    ?_, ?_⟩
  · intro c hcq
    rcases h.mem_queue.1 hcq with hcq | ⟨-, ht⟩
    · exact hc.queued_reachable ((hqueue c).2 (.inr hcq))
    · exact hreach.tail (hp ▸ ht)
  · intro c hcv
    rcases (hvisited c).1 hcv with rfl | hcv
    · exact hreach
    · exact hc.visited_reachable hcv
  · intro c t hcv ht
    rcases (hvisited c).1 hcv with rfl | hcv
    · -- on the first visit the targets are put on the list, later they have been seen
      cases hv : e.visited[c]? with
      | none =>
        have := List.getElem?_eq_none_iff.1 hv
        omega
      | some v =>
        cases v with
        | true => exact hseen t (hc.targets_seen hv ht)
        | false =>
          refine .inr (h.mem_queue.2 (.inr ⟨?_, hp ▸ ht⟩))
          simp [renews, hv]
    · exact hseen t (hc.targets_seen hcv ht)
  · intro c hcv hcq
    have hin := h.inputOf_eq hbs hcq
    by_cases hcb : c = b
    · subst hcb
      refine ⟨block, ⟨input, output⟩, hp ▸ h.lookup, ?_, ?_, hp ▸ h.flow_eq⟩
      · rw [h.states_eq, List.getElem?_set_self hbs]
      · rw [← hp, hin, h.input_eq]
    · have hcv' : e.visited[c]? = some true := ((hvisited c).1 hcv).resolve_left hcb
      have hcq' : c ∉ e.queue.toList := fun hmem =>
        hcq (hstill c (((hqueue c).1 hmem).resolve_left hcb))
      obtain ⟨blk, s, hblk, hs, hinput, hflow⟩ := hc.satisfied hcv' hcq'
      refine ⟨blk, s, hblk, ?_, ?_, hflow⟩
      · rw [h.states_eq, List.getElem?_set_ne (Ne.symm hcb), hs]
      · rw [← hp, hin, hp, hinput]
  · intro c
    obtain ⟨added, last, hadd, hcur, hlast, -⟩ := h.recorded
    rw [hvisited, hadd]
    simp only [List.mem_append, or_and_right, exists_or]
    rw [hc.recorded, or_comm]
    refine or_congr ⟨?_, ?_⟩ Iff.rfl
    · rintro ⟨s, hs, rfl⟩
      exact hcur s hs
    · rintro rfl
      exact ⟨last, List.mem_of_getLast? hlast, hcur last (List.mem_of_getLast? hlast)⟩
  · intro last hlast
    obtain ⟨added, last', hadd, -, hlast', hw, hs⟩ := h.recorded
    rw [hadd, List.getLast?_append, hlast'] at hlast
    simp only [Option.some_or, Option.some.injEq] at hlast
    exact hlast ▸ ⟨hw, hs⟩

end

omit [DecidableEq V] in
theorem consistent_start (p : Problem V) {q : Worklist} (hq : q.Fresh) : Consistent p (start p q) := by
  have hids : p.graph.blockIds.length = p.graph.blockCount := by
    simp [Flowgraph.blockIds, Digraph.ids, Flowgraph.blockCount]
  have hqueue : ∀ c, c ∈ (start p q).queue.toList ↔ c = p.boundary := by
    intro c
    simp [start, hq.toList_eq]
  have hvisited : ∀ c : Nat, (start p q).visited[c]? ≠ some true := by
    intro c hc
    have hmem := List.mem_of_getElem? hc
    simp [start] at hmem
  refine ⟨rfl, by simp [start, Analysis.seededStates, hids], by simp [start, hids], ?_, ?_, ?_, ?_, ?_,
    ?_, ?_⟩
  · intro b hb
    rw [(hqueue b).1 hb]
    exact .refl
  · intro b hb
    exact absurd hb (hvisited b)
  · exact .inr ((hqueue _).2 rfl)
  · intro b t hb
    exact absurd hb (hvisited b)
  · intro b hb
    exact absurd hb (hvisited b)
  · intro b
    simp only [hvisited, iff_false]
    simp [start]
  · intro last hlast
    simp [start] at hlast

theorem Toured.consistent {p : Problem V} {e m : Engine V} {k : Nat} (hg : p.graph.Sane)
    (hbound : p.boundary < p.graph.blockCount) (he : Consistent p e) (h : Toured e k m) :
    Consistent p m := by
  induction h with
  | refl => exact he
  | tail _ hperm hstep ih => exact ih.blockStep hg hbound hperm hstep

omit [DecidableEq V] in
/-- With nothing left waiting, exactly the blocks that the flow arrives at have been visited. -/
theorem Consistent.visited_iff_reachable {p : Problem V} {e : Engine V} (h : Consistent p e)
    (hempty : e.queue.toList = []) {b : Nat} : e.visited[b]? = some true ↔ p.Reachable b := by
  have hseen : ∀ c : Nat, e.visited[c]? = some true ∨ c ∈ e.queue.toList → e.visited[c]? = some true := by
    intro c hc
    rcases hc with hc | hc
    · exact hc
    · rw [hempty] at hc
      cases hc
  refine ⟨h.visited_reachable, fun hb => ?_⟩
  induction hb with
  | refl => exact hseen _ h.boundary_seen
  | tail _ ht ih => exact hseen _ (h.targets_seen ih ht)

end Engine

end FlowHistory
