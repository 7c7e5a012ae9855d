import FlowHistory.Proofs.Visits

/-!
# From visit to visit, states only grow

Each visit of a block computes the state before the block anew, by a join. It still never falls behind an
earlier visit: the results that flow in have only grown since. What the instructions make of it grows along,
since their effects are monotone on states that control has reached. So two visits of one block can be
compared step by step, and two finished ones by their results.
-/
namespace FlowHistory

namespace History

variable {V : Type} [LatticeValue V]

/-- What flows into a block, at any two steps of an earlier and of a later visit, and what comes of it after
equally many instructions, only grow; so does the result, if the later visit is finished. -/
structure Rising (h : History V) (g : Flowgraph) (d : Direction) : Prop where
  inputs {i j : Nat} {s t : Snapshot V} : i < j → s ∈ h.visit i → t ∈ h.visit j →
    s.cursor.block = t.cursor.block →
    ∃ a b, s.current? = some a ∧ t.current? = some b ∧ a.input.Below b.input
  outputs {i j n : Nat} {s t : Snapshot V} : i < j → (h.visit i)[n]? = some s →
    (h.visit j)[n]? = some t → s.cursor.block = t.cursor.block →
    ∃ a b, s.current? = some a ∧ t.current? = some b ∧ a.output.Below b.output
  results {i j : Nat} {s t : Snapshot V} : i < j → h.Whole g d j → (h.visit i).getLast? = some s →
    (h.visit j).getLast? = some t → s.cursor.block = t.cursor.block →
    ∃ a b, s.current? = some a ∧ t.current? = some b ∧ a.output.Below b.output

end History

theorem Problem.Walks.current? {V : Type} {p : Problem V} {block : Block} {v : Visit V} {n : Nat}
    {snap : Snapshot V} (h : p.Walks block v) (hsnap : v.snapshots[n]? = some snap) :
    ∃ output, snap.current? = some ⟨v.input, output⟩ ∧
      p.applyAll ((p.walkOrder block).take (n + 1)) v.input = .ok output := by
  rw [Snapshot.current?, h.block_of_mem (List.mem_of_getElem? hsnap)]
  exact h.shows hsnap

namespace Engine

variable {V : Type} [DecidableEq V] [LatticeValue V] {p : Problem V} {e m : Engine V}
  {visits visits' : List (Visit V)} {v : Visit V}

omit [DecidableEq V] [LatticeValue V] in
/-- A block with a recorded visit is marked as visited. -/
theorem Charted.visited (h : Charted p e visits) (hnoted : Noted p e) (hv : v ∈ visits) :
    e.visited[v.block]? = some true := by
  obtain ⟨hne, block, hwalks⟩ := h.walks hv
  have hmem : v.snapshots.head hne ∈ e.snapshots.toList := by
    have hsnapshots : e.snapshots.toList = _ := h.divided.snapshots_eq
    rw [hsnapshots]
    exact List.mem_flatten.2 ⟨_, List.mem_map_of_mem hv, List.head_mem hne⟩
  exact hnoted.seen_iff.1 ⟨_, hmem, hwalks.block_of_mem (List.head_mem hne)⟩

variable [LawfulJoin V]

/-- What elementary steps keep of the visits so far, given as blocks with their inputs: later inputs of a
block are above earlier ones, and what is stored for it is above them all. -/
structure Ascending (law : p.analysis.Lawful) (e : Engine V) (occasions : List (Nat × Env V)) : Prop where
  rising : occasions.Pairwise fun a b => a.1 = b.1 → a.2.Below b.2
  reached {b : Nat} {input : Env V} : (b, input) ∈ occasions → law.Reached p.graph input
  stored {b : Nat} {input : Env V} : (b, input) ∈ occasions →
    ∃ s, e.states[b]? = some s ∧ input.Below s.input

variable {law : p.analysis.Lawful} {occasions : List (Nat × Env V)} {b : Nat} {input output : Env V}

omit [DecidableEq V] [LawfulJoin V] in
/-- One more instruction of a visit leaves all inputs as they are. -/
theorem Ascending.onward {w : Walk V} (h : Ascending law e occasions) (hnoted : Noted p e)
    (hw : e.walk = some w) (hstates : m.states = e.states.set w.block ⟨w.input, output⟩) :
    Ascending law m occasions where
  rising := h.rising
  reached := h.reached
  stored {b input} hmem := by
    obtain ⟨s, hs, hbelow⟩ := h.stored hmem
    obtain ⟨-, hwalk⟩ := hnoted.walking hw
    rw [hstates]
    by_cases hb : b = w.block
    · subst hb
      rw [hwalk, Option.some.injEq] at hs
      subst hs
      have hlt := (List.getElem?_eq_some_iff.1 hwalk).1
      exact ⟨_, List.getElem?_set_self hlt, hbelow⟩
    · rw [List.getElem?_set_ne (Ne.symm hb)]
      exact ⟨s, hs, hbelow⟩

omit [DecidableEq V] in
/-- A new visit finds an input above what is stored for its block. -/
theorem Ascending.begun (h : Ascending law e occasions) (hp : p.Sound) (hgrow : Growing law e)
    (hvisited : ∀ a ∈ occasions, e.visited[a.1]? = some true) (hb : b ∈ e.queue.toList)
    (hinput : p.inputOf e.states b = .ok input) (hstates : m.states = e.states.set b ⟨input, output⟩) :
    Ascending law m (occasions ++ [(b, input)]) := by
  have hlt : b < e.states.length := hgrow.states_length ▸ hp.reachable_lt (hgrow.queued_reachable hb)
  have hnew : m.states[b]? = some ⟨input, output⟩ := by rw [hstates, List.getElem?_set_self hlt]
  -- earlier inputs of the block are below what is stored, hence below the new one
  have habove : ∀ old, (b, old) ∈ occasions → old.Below input := by
    intro old hold
    obtain ⟨s, hs, hbelow⟩ := h.stored hold
    exact Env.below_trans hbelow (hgrow.rising (hvisited _ hold) hs hinput)
  constructor
  · rw [List.pairwise_append]
    refine ⟨h.rising, List.pairwise_singleton _ _, ?_⟩
    rintro ⟨c, old⟩ hold a ha hc
    rw [List.mem_singleton.1 ha] at hc ⊢
    obtain rfl : c = b := hc
    exact habove old hold
  · intro c i hmem
    rcases List.mem_append.1 hmem with hmem | hmem
    · exact h.reached hmem
    · cases List.mem_singleton.1 hmem
      exact hgrow.input_reached hp hb hinput
  · intro c i hmem
    by_cases hc : c = b
    · subst hc
      refine ⟨_, hnew, ?_⟩
      rcases List.mem_append.1 hmem with hmem | hmem
      · exact habove i hmem
      · cases List.mem_singleton.1 hmem
        exact Env.below_refl _
    · rcases List.mem_append.1 hmem with hmem | hmem
      · rw [hstates, List.getElem?_set_ne (Ne.symm hc)]
        exact h.stored hmem
      · cases List.mem_singleton.1 hmem
        exact absurd rfl hc

/-- At every moment of every run, the inputs of the visits so far are ascending. -/
theorem Moved.ascending {n : Nat} {q : Worklist} (hp : p.Sound) (law : p.analysis.Lawful) (hq : q.Fresh)
    (h : Moved (start p q) n m) :
    ∃ visits, Charted p m visits ∧ Ascending law m (visits.map Visit.occasion) := by
  induction h with
  | refl => exact ⟨[], charted_start p q, by simp, by simp, by simp⟩
  | @tail n e m hmoved hstep ih =>
    obtain ⟨visits, hcharted, hascending⟩ := ih
    have hnoted := hmoved.noted hp hq
    obtain ⟨visits', hcharted', hextended⟩ := hcharted.step hnoted hstep
    refine ⟨visits', hcharted', ?_⟩
    cases hextended with
    | onward _ hw hstates hoccasions =>
      rw [hoccasions]
      exact hascending.onward hnoted hw hstates
    | begun _ hidle hb hinput hstates hoccasions =>
      obtain ⟨k, htour⟩ := hmoved.toured hp hidle
      have hgrow := htour.growing hp (growing_start law hq)
      rw [hcharted.problem_eq] at hinput
      rw [hoccasions]
      apply hascending.begun hp hgrow ?_ hb hinput hstates
      intro a ha
      obtain ⟨v, hv, rfl⟩ := List.mem_map.1 ha
      exact hcharted.visited hnoted hv

omit [DecidableEq V] [LawfulJoin V] in
/-- Two visits of one block, an earlier and a later one. -/
theorem Ascending.below {i j : Nat} {u : Visit V} (h : Ascending law e (visits.map Visit.occasion))
    (hij : i < j) (hu : visits[i]? = some u) (hv : visits[j]? = some v) (hblock : u.block = v.block) :
    law.Reached p.graph u.input ∧ u.input.Below v.input := by
  obtain ⟨hi, rfl⟩ := List.getElem?_eq_some_iff.1 hu
  obtain ⟨hj, rfl⟩ := List.getElem?_eq_some_iff.1 hv
  refine ⟨h.reached (List.mem_map_of_mem (List.getElem_mem hi)), ?_⟩
  exact List.pairwise_iff_getElem.1 (List.pairwise_map.1 h.rising) i j hi hj hij hblock

omit [DecidableEq V] [LatticeValue V] [LawfulJoin V] in
/-- The visit that a snapshot of a block step belongs to. -/
theorem Charted.visit_of_mem (h : Charted p e visits) {i : Nat} {s : Snapshot V}
    (hs : s ∈ e.history.visit i) : ∃ v block, visits[i]? = some v ∧ e.history.visit i = v.snapshots ∧
      p.Walks block v ∧ s.cursor.block = v.block := by
  obtain ⟨v, hv, hvisit⟩ := h.exists_visit (History.lt_of_mem_visit hs)
  obtain ⟨-, block, hwalks⟩ := h.walks (List.mem_of_getElem? hv)
  exact ⟨v, block, hv, hvisit, hwalks, hwalks.block_of_mem (hvisit ▸ hs)⟩

omit [DecidableEq V] [LawfulJoin V] in
/-- After equally many instructions, a later visit has come to at least as much as an earlier one. -/
theorem Ascending.outputs (h : Ascending law e (visits.map Visit.occasion)) (hcharted : Charted p e visits)
    {i j n : Nat} {s t : Snapshot V} (hij : i < j) (hs : (e.history.visit i)[n]? = some s)
    (ht : (e.history.visit j)[n]? = some t) (hblock : s.cursor.block = t.cursor.block) :
    ∃ a b, s.current? = some a ∧ t.current? = some b ∧ a.input.Below b.input ∧
      a.output.Below b.output := by
  obtain ⟨u, block, hu, hvisit, hwalks, hsu⟩ := hcharted.visit_of_mem (List.mem_of_getElem? hs)
  obtain ⟨v, block', hv, hvisit', hwalks', htv⟩ := hcharted.visit_of_mem (List.mem_of_getElem? ht)
  have huv : u.block = v.block := by rw [← hsu, ← htv, hblock]
  obtain ⟨hreached, hbelow⟩ := h.below hij hu hv huv
  obtain rfl : block = block' := by
    have hlookup := hwalks.lookup
    rw [huv, hwalks'.lookup] at hlookup
    exact (Option.some.inj hlookup).symm
  rw [hvisit] at hs
  rw [hvisit'] at ht
  obtain ⟨output, hcurrent, happly⟩ := hwalks.current? hs
  obtain ⟨output', hcurrent', happly'⟩ := hwalks'.current? ht
  exact ⟨_, _, hcurrent, hcurrent', hbelow, Problem.applyAll_mono law hreached hbelow happly happly'⟩

omit [DecidableEq V] [LawfulJoin V] in
theorem Ascending.inputs (h : Ascending law e (visits.map Visit.occasion)) (hcharted : Charted p e visits)
    {i j : Nat} {s t : Snapshot V} (hij : i < j) (hs : s ∈ e.history.visit i) (ht : t ∈ e.history.visit j)
    (hblock : s.cursor.block = t.cursor.block) :
    ∃ a b, s.current? = some a ∧ t.current? = some b ∧ a.input.Below b.input := by
  obtain ⟨u, block, hu, hvisit, hwalks, hsu⟩ := hcharted.visit_of_mem hs
  obtain ⟨v, block', hv, hvisit', hwalks', htv⟩ := hcharted.visit_of_mem ht
  obtain ⟨-, hbelow⟩ := h.below hij hu hv (by rw [← hsu, ← htv, hblock])
  obtain ⟨n, hn⟩ := List.mem_iff_getElem?.1 (hvisit ▸ hs)
  obtain ⟨n', hn'⟩ := List.mem_iff_getElem?.1 (hvisit' ▸ ht)
  obtain ⟨output, hcurrent, -⟩ := hwalks.current? hn
  obtain ⟨output', hcurrent', -⟩ := hwalks'.current? hn'
  exact ⟨_, _, hcurrent, hcurrent', hbelow⟩

omit [DecidableEq V] [LawfulJoin V] in
theorem Ascending.history_rising (h : Ascending law e (visits.map Visit.occasion))
    (hcharted : Charted p e visits) : e.history.Rising p.graph p.direction where
  inputs hij hs ht hblock := h.inputs hcharted hij hs ht hblock
  outputs hij hs ht hblock := by
    obtain ⟨a, b, ha, hb, -, hbelow⟩ := h.outputs hcharted hij hs ht hblock
    exact ⟨a, b, ha, hb, hbelow⟩
  results {i j s t} hij hj hs ht hblock := by
    have hmem := List.mem_of_getLast? hs
    have hmem' := List.mem_of_getLast? ht
    obtain ⟨v, -, hv, -⟩ := hcharted.visit_of_mem hmem'
    have hlt : i + 1 < e.history.blockStepCount := by
      rw [hcharted.divided.blockStepCount_eq, List.length_map]
      have := (List.getElem?_eq_some_iff.1 hv).1
      omega
    have hi := hcharted.whole (Nat.lt_of_succ_lt hlt) (.inl hlt)
    have hlen := hi.length_eq hj hmem hmem' hblock
    rw [List.getLast?_eq_getElem?] at hs ht
    obtain ⟨a, b, ha, hb, -, hbelow⟩ := h.outputs hcharted hij hs (hlen ▸ ht) hblock
    exact ⟨a, b, ha, hb, hbelow⟩

end Engine

namespace AnalysisKind

variable {k : AnalysisKind} {g : Flowgraph} {p : Problem k.Value}

theorem rising_of_leaves (hg : g.Built) (hp : Problem.create k.analysis g = .ok p) {h : History k.Value}
    (hl : p.Leaves h) : h.Rising g k.direction := by
  obtain ⟨q, n, m, hq, hmoved, rfl⟩ := hl
  have law : p.analysis.Lawful := (Problem.boundary_of_create hp).1 ▸ k.lawful
  obtain ⟨visits, hcharted, hascending⟩ := hmoved.ascending (Problem.sound_of_create hg hp) law hq
  obtain ⟨hgraph, hdir⟩ := direction_of_create hp
  rw [← hgraph, ← hdir]
  exact hascending.history_rising hcharted

/-- In a completed run, of two block steps at one block the state before the block and the result of the
earlier one are below those of the later one. The same holds in whatever a stopped run leaves behind and a
steered session holds or hands out, where a visit that was cut short is compared with an earlier one as far
as it has come. -/
theorem visits_rise (hg : g.Built) (hp : Problem.create k.analysis g = .ok p) :
    (∀ q h, q.Fresh → k.analysis.runFrom g q = .ok h → ∀ i j s t, i < j →
      (h.visit i).getLast? = some s → (h.visit j).getLast? = some t →
      s.cursor.block = t.cursor.block →
      ∃ a b, s.current? = some a ∧ t.current? = some b ∧ a.input.Below b.input ∧
        a.output.Below b.output) ∧
    (∀ q, q.Fresh → ∀ n, ((Engine.start p q).drive n).1.history.Rising g k.direction) ∧
    ∀ q s h, Session.Reached k.analysis g q s →
      s.worker.record? = some h ∨ s.controller.result = .ok h → h.Rising g k.direction := by
  refine ⟨fun q h hq hrun i j s t hij hs ht hblock => ?_, fun q hq n => ?_, fun q s h hs hr => ?_⟩
  · have hwhole := Problem.leavesWhole_of_run k.lawful hg hp hq hrun
    have hrising := rising_of_leaves hg hp hwhole.leaves
    have hj := History.lt_of_mem_visit (List.mem_of_getLast? ht)
    obtain ⟨a, b, ha, hb, houtput⟩ :=
      hrising.results hij ((complete_of_leavesWhole hg hp hwhole).all_whole hj) hs ht hblock
    obtain ⟨a', b', ha', hb', hinput⟩ :=
      hrising.inputs hij (List.mem_of_getLast? hs) (List.mem_of_getLast? ht) hblock
    rw [ha, Option.some.injEq] at ha'
    rw [hb, Option.some.injEq] at hb'
    subst ha'
    subst hb'
    exact ⟨a, b, ha, hb, hinput, houtput⟩
  · exact rising_of_leaves hg hp (Problem.leaves_drive hq n)
  · exact rising_of_leaves hg hp (Problem.leaves_of_session hp hs hr)

/-- From the first to the second visit of the loop, its local goes from a constant to an unknown value. -/
theorem visits_rise_doubling :
    ∃ h s t a b, constantFolding.analysis.run doubling ⟨.naive, none⟩ = .ok h ∧
      (h.visit 1).getLast? = some s ∧ (h.visit 2).getLast? = some t ∧ s.cursor = t.cursor ∧
      s.current? = some a ∧ t.current? = some b ∧ a.output ≠ b.output ∧ a.output.Below b.output := by
  obtain ⟨hrise, -⟩ := visits_rise (k := constantFolding) doubling_built rfl
  obtain ⟨a, b, ha, hb, -, hbelow⟩ := hrise (.naive []) _ .naive rfl 1 2 _ _ (by decide) rfl rfl rfl
  refine ⟨_, _, _, a, b, rfl, rfl, rfl, rfl, ha, hb, ?_, hbelow⟩
  cases ha
  cases hb
  decide

end AnalysisKind

end FlowHistory
