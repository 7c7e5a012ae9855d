import FlowHistory.Proofs.Lawful
import FlowHistory.Proofs.Stability

/-!
# States only grow

Under the laws of an analysis, joins never refuse during a run, a visited block holds no bottom, and
the result of a block never shrinks from one visit to the next. The last is where monotone transfers
are needed: the state before a block grows since the results of its sources do, and the state after it
grows with the state before.
-/
namespace FlowHistory

namespace Problem

variable {V : Type} [LatticeValue V] {p : Problem V}

/-- Instructions keep a reached state reached. -/
theorem applyAll_reached (law : p.analysis.Lawful) {l : List (Nat × Site)} {e e' : Env V}
    (he : law.Reached p.graph e) (h : p.applyAll l e = .ok e') : law.Reached p.graph e' := by
  induction l generalizing e with
  | nil =>
    cases h
    exact he
  | cons s l ih =>
    obtain ⟨f, hs, hrest⟩ := applyAll_cons.1 h
    refine ih ⟨⟨?_, law.transfer_fits he.values hs⟩, law.transfer_reached he.values he.above hs⟩ hrest
    exact (law.transfer_locals hs).trans he.locals_eq

theorem applyAll_mono (law : p.analysis.Lawful) {l : List (Nat × Site)} {e e' f f' : Env V}
    (he : law.Reached p.graph e) (hef : e.Below f) (h : p.applyAll l e = .ok e')
    (h' : p.applyAll l f = .ok f') : e'.Below f' := by
  induction l generalizing e f with
  | nil =>
    cases h
    cases h'
    exact hef
  | cons s l ih =>
    obtain ⟨e₁, hs, hrest⟩ := applyAll_cons.1 h
    obtain ⟨f₁, hs', hrest'⟩ := applyAll_cons.1 h'
    have he₁ := applyAll_reached law he (applyAll_singleton.2 hs)
    exact ih he₁ (law.transfer_mono he.values he.above hef hs hs') hrest hrest'

omit [LatticeValue V] in
theorem boundary_of_create {a : Analysis V} {g : Flowgraph} (h : Problem.create a g = .ok p) :
    p.analysis = a ∧ p.graph = g ∧ g.boundary a.direction = .ok p.boundary := by
  obtain ⟨b, hb, hp⟩ := bind_eq_ok.1 h
  cases hp
  exact ⟨rfl, rfl, hb⟩

/-- A problem whose boundary is the only block into which nothing flows. -/
structure Sound (p : Problem V) : Prop where
  sane : p.graph.Sane
  boundary_lt : p.boundary < p.graph.blockCount
  sources_nil_iff {b : Nat} : b < p.graph.blockCount → (p.sources b = [] ↔ b = p.boundary)

omit [LatticeValue V] in
theorem sound_of_create {a : Analysis V} {g : Flowgraph} (hg : g.Built)
    (h : Problem.create a g = .ok p) : p.Sound := by
  obtain ⟨ha, hgraph, hb⟩ := boundary_of_create h
  subst ha
  subst hgraph
  obtain ⟨hlt, hnil⟩ := Flowgraph.boundary_eq_ok hb
  exact ⟨hg.sane, hlt, fun {c} hc => hnil c hc⟩

omit [LatticeValue V] in
theorem Sound.reachable_lt (hp : p.Sound) {b : Nat} (h : p.Reachable b) : b < p.graph.blockCount :=
  h.lt hp.sane hp.boundary_lt

omit [LatticeValue V] in
theorem seed_boundary : p.analysis.seed p.graph p.boundary p.boundary = p.analysis.freshEnv p.graph :=
  if_pos rfl

omit [LatticeValue V] in
theorem seed_of_ne {b : Nat} (h : b ≠ p.boundary) :
    p.analysis.seed p.graph p.boundary b = p.analysis.bottomEnv p.graph := if_neg h

theorem fits_seed (law : p.analysis.Lawful) (b : Nat) :
    law.Fits p.graph (p.analysis.seed p.graph p.boundary b) := by
  by_cases h : b = p.boundary
  · rw [h, seed_boundary]
    exact law.reached_freshEnv.toFits
  · rw [seed_of_ne h]
    exact law.fits_bottomEnv

omit [LatticeValue V] in
theorem mem_incoming {states : List (BlockState V)} {b : Nat} {e : Env V} :
    e ∈ p.incoming states b ↔ ∃ s ∈ p.sources b, ∃ st, states[s]? = some st ∧ st.output = e := by
  simp [incoming, Option.map_eq_some_iff]

/-- Two tables with entries for all sources, one below the other, flow in side by side. -/
theorem incoming_forall₂ {states states' : List (BlockState V)} {b : Nat}
    (h : ∀ s ∈ p.sources b, ∃ st st', states[s]? = some st ∧ states'[s]? = some st' ∧
      st.output.Below st'.output) :
    List.Forall₂ Env.Below (p.incoming states b) (p.incoming states' b) := by
  simp only [incoming]
  revert h
  induction p.sources b with
  | nil => exact fun _ => .nil
  | cons s l ih =>
    intro h
    obtain ⟨st, st', hst, hst', hbelow⟩ := h s (by simp)
    simp only [List.filterMap_cons, hst, hst', Option.map_some]
    exact .cons hbelow (ih fun s' hs' => h s' (by simp [hs']))

end Problem

namespace Engine

variable {V : Type} [DecidableEq V] [LatticeValue V] [LawfulJoin V] {p : Problem V}

/-- What block steps keep under the laws of the analysis. -/
structure Growing (law : p.analysis.Lawful) (e : Engine V) : Prop extends Consistent p e where
  fits {b : Nat} {s : BlockState V} : e.states[b]? = some s →
    law.Fits p.graph s.input ∧ law.Fits p.graph s.output
  untouched {b : Nat} : e.visited[b]? = some false →
    e.states[b]? = some ⟨p.analysis.seed p.graph p.boundary b, p.analysis.bottomEnv p.graph⟩
  reached {b : Nat} {s : BlockState V} : e.visited[b]? = some true → e.states[b]? = some s →
    law.Reached p.graph s.input ∧ law.Reached p.graph s.output
  flows {b : Nat} {s : BlockState V} {block : Block} : e.visited[b]? = some true →
    e.states[b]? = some s → p.graph.block? b = some block → p.flow block s.input = .ok s.output
  rising {b : Nat} {s : BlockState V} {j : Env V} : e.visited[b]? = some true →
    e.states[b]? = some s → p.inputOf e.states b = .ok j → s.input.Below j
  fed {b : Nat} : b ∈ e.queue.toList → b = p.boundary ∨ ∃ s ∈ p.sources b, e.visited[s]? = some true

variable {law : p.analysis.Lawful} {e m : Engine V} {b : Nat}

omit [DecidableEq V] [LawfulJoin V] in
theorem Growing.exists_state (h : Growing law e) (hb : b < p.graph.blockCount) :
    ∃ s, e.states[b]? = some s :=
  ⟨_, List.getElem?_eq_getElem (h.states_length ▸ hb)⟩

omit [DecidableEq V] [LawfulJoin V] in
/-- A block of the graph has been visited or not. -/
theorem Growing.visited_or (h : Growing law e) (hb : b < p.graph.blockCount) :
    e.visited[b]? = some true ∨ e.visited[b]? = some false := by
  rw [← h.visited_length] at hb
  rw [List.getElem?_eq_getElem hb]
  cases e.visited[b] <;> simp

omit [DecidableEq V] [LawfulJoin V] in
/-- Joins never refuse: every block of the graph has an input that fits. -/
theorem Growing.exists_input (hp : p.Sound) (h : Growing law e) (b : Nat) :
    ∃ j, p.inputOf e.states b = .ok j ∧ law.Fits p.graph j := by
  by_cases hs : p.sources b = []
  · exact ⟨_, Problem.inputOf_of_sources_nil hs, Problem.fits_seed law b⟩
  · rw [Problem.inputOf_of_sources_ne_nil hs]
    have hstate : ∀ s ∈ p.sources b, ∃ st, e.states[s]? = some st := fun s hmem =>
      h.exists_state (Flowgraph.sources_lt hp.sane hmem)
    refine law.fits_joinAll ?_ fun f hf => ?_
    · obtain ⟨s, hmem⟩ := List.exists_mem_of_ne_nil _ hs
      obtain ⟨st, hst⟩ := hstate s hmem
      exact List.ne_nil_of_mem (Problem.mem_incoming.2 ⟨s, hmem, st, hst, rfl⟩)
    · obtain ⟨s, -, st, hst, rfl⟩ := Problem.mem_incoming.1 hf
      exact (h.fits hst).2

omit [DecidableEq V] in
/-- The input of a waiting block is reached, since a visited block flows into it or it is the
boundary. -/
theorem Growing.input_reached (hp : p.Sound) (h : Growing law e) (hb : b ∈ e.queue.toList) {j : Env V}
    (hj : p.inputOf e.states b = .ok j) : law.Reached p.graph j := by
  have hlt := hp.reachable_lt (h.queued_reachable hb)
  rcases h.fed hb with rfl | ⟨s, hs, hv⟩
  · rw [Problem.inputOf_of_sources_nil ((hp.sources_nil_iff hlt).2 rfl), Problem.seed_boundary] at hj
    cases hj
    exact law.reached_freshEnv
  · obtain ⟨st, hst⟩ := h.exists_state (Flowgraph.sources_lt hp.sane hs)
    rw [Problem.inputOf_of_sources_ne_nil (List.ne_nil_of_mem hs)] at hj
    exact law.reached_of_below (h.reached hv hst).2
      (Env.below_joinAll hj (Problem.mem_incoming.2 ⟨s, hs, st, hst, rfl⟩))

section

variable {q : Worklist} {block : Block} {input output : Env V}

/-- A visit finds a reached input and leaves a reached result, above the result of the block before. -/
theorem Growing.visit (hp : p.Sound) (h : Growing law e) (hb : b ∈ e.queue.toList)
    (hstep : BlockStep e b q block input output m) {s : BlockState V} (hs : e.states[b]? = some s) :
    law.Reached p.graph input ∧ law.Reached p.graph output ∧ s.output.Below output := by
  have hprob := h.problem_eq
  have hinput : p.inputOf e.states b = .ok input := hprob ▸ hstep.input_eq
  have hflow : p.flow block input = .ok output := hprob ▸ hstep.flow_eq
  have hin := h.input_reached hp hb hinput
  have hout := Problem.applyAll_reached law hin hflow
  refine ⟨hin, hout, ?_⟩
  rcases h.visited_or (hp.reachable_lt (h.queued_reachable hb)) with hv | hv
  · have hold := h.flows hv hs (hprob ▸ hstep.lookup)
    exact Problem.applyAll_mono law (h.reached hv hs).1 (h.rising hv hs hinput) hold hflow
  · rw [h.untouched hv] at hs
    cases hs
    exact law.bottomEnv_below hout.toFits

/-- A visit raises the result of every block, or leaves it. -/
theorem Growing.output_below (hp : p.Sound) (h : Growing law e) (hb : b ∈ e.queue.toList)
    (hstep : BlockStep e b q block input output m) {c : Nat} {s : BlockState V}
    (hs : e.states[c]? = some s) : ∃ s', m.states[c]? = some s' ∧ s.output.Below s'.output := by
  rw [hstep.states_eq, List.getElem?_set]
  by_cases hbc : b = c
  · subst hbc
    have hlt : b < e.states.length := (List.getElem?_eq_some_iff.1 hs).1
    exact ⟨⟨input, output⟩, by simp [hlt], (h.visit hp hb hstep hs).2.2⟩
  · exact ⟨s, by simpa [hbc] using hs, Env.below_refl _⟩

/-- A visit raises the input of every block, or leaves it. -/
theorem Growing.input_below (hp : p.Sound) (h : Growing law e) (hb : b ∈ e.queue.toList)
    (hstep : BlockStep e b q block input output m) {c : Nat} {j j' : Env V}
    (hj : p.inputOf e.states c = .ok j) (hj' : p.inputOf m.states c = .ok j') : j.Below j' := by
  by_cases hs : p.sources c = []
  · rw [Problem.inputOf_of_sources_nil hs] at hj hj'
    cases hj
    cases hj'
    exact Env.below_refl _
  · rw [Problem.inputOf_of_sources_ne_nil hs] at hj hj'
    refine Env.joinAll_mono (Problem.incoming_forall₂ fun s hmem => ?_) hj hj'
    obtain ⟨st, hst⟩ := h.exists_state (Flowgraph.sources_lt hp.sane hmem)
    obtain ⟨st', hst', hbelow⟩ := h.output_below hp hb hstep hst
    exact ⟨st, st', hst, hst', hbelow⟩

theorem Growing.blockStep (hp : p.Sound) (h : Growing law e)
    (hperm : (b :: q.toList).Perm e.queue.toList) (hstep : BlockStep e b q block input output m) :
    Growing law m := by
  have hprob := h.problem_eq
  have hb : b ∈ e.queue.toList := hperm.subset (by simp)
  have hlt := hp.reachable_lt (h.queued_reachable hb)
  have hbs : b < e.states.length := h.states_length ▸ hlt
  have hbv : b < e.visited.length := h.visited_length ▸ hlt
  obtain ⟨old, hold⟩ := h.exists_state hlt
  obtain ⟨hin, hout, -⟩ := h.visit hp hb hstep hold
  have hinput : p.inputOf e.states b = .ok input := hprob ▸ hstep.input_eq
  have hvisited : ∀ c, m.visited[c]? = some true ↔ c = b ∨ e.visited[c]? = some true := fun c => by
    rw [hstep.visited_eq, visited_set hbv]
  -- the table changes at the visited block only
  have hself : m.states[b]? = some ⟨input, output⟩ := by
    rw [hstep.states_eq, List.getElem?_set_self hbs]
  have hother : ∀ c, c ≠ b → m.states[c]? = e.states[c]? := fun c hc => by
    rw [hstep.states_eq, List.getElem?_set_ne (Ne.symm hc)]
  refine { h.toConsistent.blockStep hp.sane hp.boundary_lt hperm hstep with
    fits := ?_, untouched := ?_, reached := ?_, flows := ?_, rising := ?_, fed := ?_ }
  · intro c s hs
    by_cases hc : c = b
    · subst hc
      rw [hself] at hs
      cases hs
      exact ⟨hin.toFits, hout.toFits⟩
    · exact h.fits (hother c hc ▸ hs)
  · intro c hcv
    have hc : c ≠ b := by
      rintro rfl
      rw [(hvisited c).2 (.inl rfl)] at hcv
      cases hcv
    rw [hother c hc]
    refine h.untouched ?_
    rwa [hstep.visited_eq, List.getElem?_set_ne (Ne.symm hc)] at hcv
  · intro c s hcv hs
    by_cases hc : c = b
    · subst hc
      rw [hself] at hs
      cases hs
      exact ⟨hin, hout⟩
    · exact h.reached (((hvisited c).1 hcv).resolve_left hc) (hother c hc ▸ hs)
  · intro c s blk hcv hs hblk
    by_cases hc : c = b
    · subst hc
      rw [hself] at hs
      cases hs
      have hlookup : p.graph.block? c = some block := hprob ▸ hstep.lookup
      rw [hlookup] at hblk
      cases hblk
      exact hprob ▸ hstep.flow_eq
    · exact h.flows (((hvisited c).1 hcv).resolve_left hc) (hother c hc ▸ hs) hblk
  · intro c s j hcv hs hj
    by_cases hc : c = b
    · subst hc
      rw [hself] at hs
      cases hs
      exact h.input_below hp hb hstep hinput hj
    · have hcv' := ((hvisited c).1 hcv).resolve_left hc
      obtain ⟨i, hi, -⟩ := h.exists_input hp c
      exact Env.below_trans (h.rising hcv' (hother c hc ▸ hs) hi) (h.input_below hp hb hstep hi hj)
  · intro c hcq
    rcases hstep.mem_queue.1 hcq with hcq | ⟨-, ht⟩
    · rcases h.fed (hperm.subset (List.mem_cons_of_mem b hcq)) with hc | ⟨s, hs, hsv⟩
      · exact .inl hc
      · exact .inr ⟨s, hs, (hvisited s).2 (.inr hsv)⟩
    · exact .inr ⟨b, Problem.mem_sources_iff.2 (hprob ▸ ht), (hvisited b).2 (.inl rfl)⟩

end

omit [DecidableEq V] [LatticeValue V] [LawfulJoin V] in
theorem states_start (p : Problem V) (q : Worklist) (b : Nat) :
    (start p q).states[b]? = if b < p.graph.blockCount then
      some ⟨p.analysis.seed p.graph p.boundary b, p.analysis.bottomEnv p.graph⟩ else none := by
  have hids : p.graph.blockIds = List.range p.graph.blockCount := rfl
  simp only [start, Analysis.seededStates, hids, List.getElem?_map]
  by_cases h : b < p.graph.blockCount
  · rw [if_pos h, List.getElem?_range h]
    rfl
  · rw [if_neg h, List.getElem?_eq_none (by rw [List.length_range]; exact Nat.le_of_not_lt h)]
    rfl

omit [DecidableEq V] [LawfulJoin V] in
theorem growing_start (law : p.analysis.Lawful) {q : Worklist} (hq : q.Fresh) :
    Growing law (start p q) := by
  have hvisited : ∀ c : Nat, (start p q).visited[c]? ≠ some true := by
    intro c hc
    have hmem := List.mem_of_getElem? hc
    simp [start] at hmem
  have hstart := consistent_start p hq
  refine { hstart with
    fits := ?_, untouched := ?_, reached := ?_, flows := ?_, rising := ?_, fed := ?_ }
  · intro b s hs
    rw [states_start] at hs
    split at hs
    · cases hs
      exact ⟨Problem.fits_seed law b, law.fits_bottomEnv⟩
    · cases hs
  · intro b hb
    have hlt : b < (start p q).visited.length := (List.getElem?_eq_some_iff.1 hb).1
    rw [hstart.visited_length] at hlt
    rw [states_start, if_pos hlt]
  · intro b s hb
    exact absurd hb (hvisited b)
  · intro b s block hb
    exact absurd hb (hvisited b)
  · intro b s j hb
    exact absurd hb (hvisited b)
  · intro b hb
    simp [start, hq.toList_eq] at hb
    exact .inl hb

theorem Toured.growing {k : Nat} (hp : p.Sound) (he : Growing law e) (h : Toured e k m) :
    Growing law m := by
  induction h with
  | refl => exact he
  | tail _ hperm hstep ih => exact ih.blockStep hp hperm hstep

end Engine

end FlowHistory
