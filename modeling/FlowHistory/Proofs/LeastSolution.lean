import FlowHistory.Proofs.Termination

/-!
# The least solution

Every table that satisfies the equations of all blocks the flow arrives at is above the table of a run,
at every moment of the run. A run that settles satisfies the equations itself, so its final table is
the least such table, and no two orders of visits can end in different ones.

Blocks that the flow never arrives at may still be sources of blocks it does arrive at. A run holds the
bottom there, and a solution may hold anything that can be joined with the rest.
-/
namespace FlowHistory

namespace Problem

variable {V : Type} [LatticeValue V] {p : Problem V}

/-- A state for each block, satisfying the equations of every block that the flow arrives at. -/
structure Solution (p : Problem V) (states : List (BlockState V)) : Prop where
  length_eq : states.length = p.graph.blockCount
  satisfied {b : Nat} : p.Reachable b → p.Satisfied states b

variable {X : List (BlockState V)}

theorem Solution.exists_state (hX : p.Solution X) {b : Nat} (hb : b < p.graph.blockCount) :
    ∃ x, X[b]? = some x := ⟨_, List.getElem?_eq_getElem (hX.length_eq ▸ hb)⟩

theorem Solution.equations (hX : p.Solution X) {b : Nat} (hb : p.Reachable b) {x : BlockState V}
    (hx : X[b]? = some x) : ∃ block, p.graph.block? b = some block ∧ p.inputOf X b = .ok x.input ∧
      p.flow block x.input = .ok x.output := by
  obtain ⟨block, x', hblock, hx', hinput, hflow⟩ := hX.satisfied hb
  rw [hx] at hx'
  cases hx'
  exact ⟨block, hblock, hinput, hflow⟩

variable [LawfulJoin V]

/-- What a block along the flow comes to is below what its targets start from. -/
theorem Solution.output_below_input (hX : p.Solution X) {a b : Nat} (ha : p.Reachable a)
    (hab : b ∈ p.targets a) {x y : BlockState V} (hx : X[a]? = some x) (hy : X[b]? = some y) :
    x.output.Below y.input := by
  obtain ⟨_, -, hinput, -⟩ := hX.equations (ha.tail hab) hy
  have hmem : a ∈ p.sources b := mem_sources_iff.2 hab
  rw [inputOf_of_sources_ne_nil (List.ne_nil_of_mem hmem)] at hinput
  exact Env.below_joinAll hinput (mem_incoming.2 ⟨a, hmem, x, hx, rfl⟩)

/-- Along the flow, a solution holds no bottom. -/
theorem Solution.reached (hp : p.Sound) (law : p.analysis.Lawful) (hX : p.Solution X) {b : Nat}
    (hb : p.Reachable b) {x : BlockState V} (hx : X[b]? = some x) :
    law.Reached p.graph x.input ∧ law.Reached p.graph x.output := by
  suffices hin : law.Reached p.graph x.input by
    obtain ⟨block, -, -, hflow⟩ := hX.equations hb hx
    exact ⟨hin, applyAll_reached law hin hflow⟩
  induction hb generalizing x with
  | refl =>
    obtain ⟨block, -, hinput, -⟩ := hX.equations .refl hx
    rw [inputOf_of_sources_nil ((hp.sources_nil_iff hp.boundary_lt).2 rfl), seed_boundary,
      Except.ok.injEq] at hinput
    rw [← hinput]
    exact law.reached_freshEnv
  | @tail a b ha hab ih =>
    obtain ⟨xa, hxa⟩ := hX.exists_state (hp.reachable_lt ha)
    obtain ⟨_, -, -, hflow⟩ := hX.equations ha hxa
    have hout := applyAll_reached law (ih hxa) hflow
    exact law.reached_of_below hout (hX.output_below_input ha hab hxa hx)

/-- Whatever a solution lets flow into a block of the flow is above the bottom. -/
theorem Solution.bottom_below_source (hp : p.Sound) (law : p.analysis.Lawful) (hX : p.Solution X)
    {b s : Nat} (hb : p.Reachable b) (hs : s ∈ p.sources b) {x : BlockState V} (hx : X[s]? = some x) :
    (p.analysis.bottomEnv p.graph).Below x.output := by
  obtain ⟨_, xb, -, hxb, hinput, -⟩ := hX.satisfied hb
  rw [inputOf_of_sources_ne_nil (List.ne_nil_of_mem hs)] at hinput
  exact law.bottomEnv_below_of_below (Env.below_joinAll hinput (mem_incoming.2 ⟨s, hs, x, hx, rfl⟩))
    (law.bottomEnv_below (hX.reached hp law hb hxb).1.toFits)

end Problem

namespace Engine

variable {V : Type} [DecidableEq V] [LatticeValue V] [LawfulJoin V] {p : Problem V}
  {X : List (BlockState V)} {law : p.analysis.Lawful} {e m : Engine V}

/-- The table of a run is below another one, at the blocks that the flow arrives at. -/
def Dominated (p : Problem V) (X : List (BlockState V)) (e : Engine V) : Prop :=
  ∀ {b : Nat} {s x : BlockState V}, p.Reachable b → e.states[b]? = some s → X[b]? = some x →
    s.input.Below x.input ∧ s.output.Below x.output

omit [DecidableEq V] in
theorem dominated_start (hp : p.Sound) (law : p.analysis.Lawful) (hX : p.Solution X) (q : Worklist) :
    Dominated p X (start p q) := by
  intro b s x hb hs hx
  rw [states_start, if_pos (hp.reachable_lt hb)] at hs
  cases hs
  obtain ⟨hin, hout⟩ := hX.reached hp law hb hx
  refine ⟨?_, law.bottomEnv_below hout.toFits⟩
  by_cases hbound : b = p.boundary
  · obtain ⟨_, -, hinput, -⟩ := hX.equations hb hx
    rw [Problem.inputOf_of_sources_nil ((hp.sources_nil_iff (hp.reachable_lt hb)).2 hbound),
      Except.ok.injEq] at hinput
    rw [← hinput]
    exact Env.below_refl _
  · rw [Problem.seed_of_ne hbound]
    exact law.bottomEnv_below hin.toFits

/-- A visit computes from what is below the solution, so its result is below the solution. -/
theorem Dominated.blockStep {b : Nat} {q : Worklist} {block : Block} {input output : Env V}
    (hp : p.Sound) (hX : p.Solution X) (hgrow : Growing law e) (hdom : Dominated p X e)
    (hperm : (b :: q.toList).Perm e.queue.toList) (hstep : BlockStep e b q block input output m) :
    Dominated p X m := by
  intro c s x hc hs hx
  by_cases hcb : c = b
  · subst hcb
    have hprob := hgrow.problem_eq
    have hlt := hp.reachable_lt hc
    have hinput : p.inputOf e.states c = .ok input := hprob ▸ hstep.input_eq
    have hflow : p.flow block input = .ok output := hprob ▸ hstep.flow_eq
    have hlookup : p.graph.block? c = some block := hprob ▸ hstep.lookup
    rw [hstep.states_eq, List.getElem?_set_self (hgrow.states_length ▸ hlt)] at hs
    cases hs
    obtain ⟨block', hblock', hinput', hflow'⟩ := hX.equations hc hx
    rw [hlookup] at hblock'
    cases hblock'
    have hbelow : input.Below x.input := by
      by_cases hsrc : p.sources c = []
      · rw [Problem.inputOf_of_sources_nil hsrc] at hinput hinput'
        rw [hinput] at hinput'
        cases hinput'
        exact Env.below_refl _
      · rw [Problem.inputOf_of_sources_ne_nil hsrc] at hinput hinput'
        refine Env.joinAll_mono (Problem.incoming_forall₂ fun a ha => ?_) hinput hinput'
        have halt := Flowgraph.sources_lt hp.sane ha
        obtain ⟨st, hst⟩ := hgrow.exists_state halt
        obtain ⟨xa, hxa⟩ := hX.exists_state halt
        refine ⟨st, xa, hst, hxa, ?_⟩
        rcases hgrow.visited_or halt with hv | hv
        · exact (hdom (hgrow.visited_reachable hv) hst hxa).2
        · -- a source that was never visited still holds the bottom
          rw [hgrow.untouched hv] at hst
          cases hst
          exact hX.bottom_below_source hp law hc ha hxa
    have hreached := hgrow.input_reached hp (hperm.subset (by simp)) hinput
    exact ⟨hbelow, Problem.applyAll_mono law hreached hbelow hflow hflow'⟩
  · rw [hstep.states_eq, List.getElem?_set_ne (Ne.symm hcb)] at hs
    exact hdom hc hs hx

theorem Toured.dominated {k : Nat} (hp : p.Sound) (hX : p.Solution X) (he : Growing law e)
    (hdom : Dominated p X e) (h : Toured e k m) : Dominated p X m := by
  induction h with
  | refl => exact hdom
  | tail htour hperm hstep ih => exact Dominated.blockStep hp hX (htour.growing hp he) ih hperm hstep

end Engine

end FlowHistory
