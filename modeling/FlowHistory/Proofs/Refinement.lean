import FlowHistory.Proofs.Recording

/-!
# An analysis that refines another

The values of a coarse analysis may be read as values of a fine one. If each transfer of the fine analysis
stays below what is read from the coarse transfer, the result of the fine analysis is below what is read
from the result of the coarse one. Two runs visit the blocks in different orders, so they are not compared
step by step: the induction is along the fine run, against the equations that the coarse result satisfies.
-/
namespace FlowHistory

open LatticeValue (Below)

variable {V W : Type} [LatticeValue V] [LatticeValue W]

/-- The same problem for another analysis. -/
def Problem.under (p : Problem V) (c : Analysis W) : Problem W := ⟨c, p.graph, p.boundary⟩

/-- Where the values of `c` have the property `P`, what `read` makes of them is above the values of `a`. -/
structure Analysis.Refines (a : Analysis V) (law : a.Lawful) (c : Analysis W) (coarse : c.Lawful)
    (g : Flowgraph) (P : Local → W → Prop) (read : Local → W → V) : Prop where
  direction_eq : c.direction = a.direction
  tracks_eq : c.tracks = a.tracks
  keeps : c.Keeps g P
  mono {x : Local} {v w : W} : Below v w → Below (read x v) (read x w)
  bottom {x : Local} {w : W} : Below (a.bottom x) (read x w)
  fresh {x : Local} : a.tracks x = true →
    Below (a.fresh g.instructionCount x) (read x (c.fresh g.instructionCount x))
  transfer {s : Site} {e e' : Env V} {f f' : Env W} : s ∈ g.sites → law.Reached g e → coarse.Reached g f →
    f.All P → e.Below (f.mapValues read) → a.transfer g.instructionCount s e = .ok e' →
    c.transfer g.instructionCount s f = .ok f' → e'.Below (f'.mapValues read)

namespace Analysis.Refines

variable {p : Problem V} {law : p.analysis.Lawful} {c : Analysis W} {coarse : c.Lawful}
  {P : Local → W → Prop} {read : Local → W → V}

theorem sources_eq (ref : p.analysis.Refines law c coarse p.graph P read) (b : Nat) :
    (p.under c).sources b = p.sources b := by
  rw [Problem.sources, Problem.direction, Problem.under, ref.direction_eq]
  rfl

theorem walkOrder_eq (ref : p.analysis.Refines law c coarse p.graph P read) (block : Block) :
    (p.under c).walkOrder block = p.walkOrder block := by
  rw [Problem.walkOrder, Problem.direction, Problem.under, ref.direction_eq]
  rfl

theorem reachable_iff (ref : p.analysis.Refines law c coarse p.graph P read) (b : Nat) :
    (p.under c).Reachable b ↔ p.Reachable b := by
  have htargets : ∀ a, (p.under c).targets a = p.targets a := by
    intro a
    rw [Problem.targets, Problem.direction, Problem.under, ref.direction_eq]
    rfl
  simp only [Problem.Reachable, htargets]
  rfl

theorem sound (ref : p.analysis.Refines law c coarse p.graph P read) (hp : p.Sound) :
    (p.under c).Sound where
  sane := hp.sane
  boundary_lt := hp.boundary_lt
  sources_nil_iff hb := by
    rw [ref.sources_eq]
    exact hp.sources_nil_iff hb

theorem locals_eq (ref : p.analysis.Refines law c coarse p.graph P read) :
    c.locals p.graph = p.analysis.locals p.graph := by
  rw [Analysis.locals, ref.tracks_eq]
  rfl

theorem bottomEnv_below (ref : p.analysis.Refines law c coarse p.graph P read) {f : Env W}
    (hf : f.locals = (c.locals p.graph).toList) :
    (p.analysis.bottomEnv p.graph).Below (f.mapValues read) := by
  refine Env.below_iff.2 ⟨by simp [bottomEnv, hf, ref.locals_eq], fun x v w hv hw => ?_⟩
  rw [bottomEnv, Env.get?_ofFn] at hv
  rw [Env.get?_mapValues] at hw
  obtain ⟨u, -, rfl⟩ := Option.map_eq_some_iff.1 hw
  split at hv
  · cases hv
    exact ref.bottom
  · cases hv

theorem freshEnv_below (ref : p.analysis.Refines law c coarse p.graph P read) :
    (p.analysis.freshEnv p.graph).Below ((c.freshEnv p.graph).mapValues read) := by
  refine Env.below_iff.2 ⟨by simp [freshEnv, ref.locals_eq], fun x v w hv hw => ?_⟩
  rw [freshEnv, Env.get?_ofFn] at hv
  rw [Env.get?_mapValues, freshEnv, Env.get?_ofFn, ref.locals_eq] at hw
  split at hv
  · rename_i hx
    rw [if_pos hx] at hw
    cases hv
    cases hw
    exact ref.fresh (LocalSet.mem_filter.1 hx).2
  · cases hv

/-- A block keeps the states below what is read. -/
theorem applyAll (ref : p.analysis.Refines law c coarse p.graph P read) {l : List (Nat × Site)}
    {e e' : Env V} {f f' : Env W} (hl : ∀ s ∈ l, s.2 ∈ p.graph.sites) (he : law.Reached p.graph e)
    (hf : coarse.Reached p.graph f) (hP : f.All P) (h : e.Below (f.mapValues read))
    (hfine : p.applyAll l e = .ok e') (hcoarse : (p.under c).applyAll l f = .ok f') :
    e'.Below (f'.mapValues read) := by
  induction l generalizing e f with
  | nil =>
    cases hfine
    cases hcoarse
    exact h
  | cons s l ih =>
    obtain ⟨e₁, hs, hfine⟩ := Problem.applyAll_cons.1 hfine
    obtain ⟨f₁, hs', hcoarse⟩ := Problem.applyAll_cons.1 hcoarse
    have hmem := hl s (by simp)
    have he₁ := Problem.applyAll_reached law he (Problem.applyAll_singleton.2 hs)
    have hf₁ := Problem.applyAll_reached (p := p.under c) coarse hf (Problem.applyAll_singleton.2 hs')
    exact ih (fun t ht => hl t (by simp [ht])) he₁ hf₁ (ref.keeps.transfer hmem hP hs')
      (ref.transfer hmem he hf hP h hs hs') hfine hcoarse

variable [DecidableEq V] [LawfulJoin V] [LawfulJoin W] {Y : List (BlockState W)} {e m : Engine V} {n b : Nat}

/-- What a run has computed for the blocks it has visited is below what is read from a table. -/
def Bounds (read : Local → W → V) (Y : List (BlockState W)) (e : Engine V) : Prop :=
  ∀ (b : Nat) (s : BlockState V) (y : BlockState W), e.visited[b]? = some true →
    e.states[b]? = some s → Y[b]? = some y → s.output.Below (y.output.mapValues read)

omit [DecidableEq V] in
theorem inputOf_below (ref : p.analysis.Refines law c coarse p.graph P read) (hp : p.Sound)
    (hY : (p.under c).Solution Y) (hgrow : Engine.Growing law e) (h : Bounds read Y e)
    (hb : p.Reachable b) {input : Env V} (hinput : p.inputOf e.states b = .ok input) {y : BlockState W}
    (hy : Y[b]? = some y) : input.Below (y.input.mapValues read) := by
  have hb' := (ref.reachable_iff b).2 hb
  obtain ⟨-, -, hinput', -⟩ := hY.equations hb' hy
  by_cases hsrc : p.sources b = []
  · obtain rfl := (hp.sources_nil_iff (hp.reachable_lt hb)).1 hsrc
    rw [Problem.inputOf_of_sources_nil hsrc, Problem.seed_boundary, Except.ok.injEq] at hinput
    rw [Problem.inputOf_of_sources_nil ((ref.sources_eq _).trans hsrc)] at hinput'
    obtain hfresh : c.freshEnv p.graph = y.input := by
      rw [← Except.ok.injEq, ← hinput']
      exact congrArg _ (Problem.seed_boundary (p := p.under c)).symm
    rw [← hinput, ← hfresh]
    exact ref.freshEnv_below
  · rw [Problem.inputOf_of_sources_ne_nil hsrc] at hinput
    rw [Problem.inputOf_of_sources_ne_nil ((ref.sources_eq b).trans_ne hsrc)] at hinput'
    refine Env.joinAll_least hinput fun u hu => ?_
    obtain ⟨a, ha, s, hs, rfl⟩ := Problem.mem_incoming.1 hu
    have halt := Flowgraph.sources_lt hp.sane ha
    rcases hgrow.visited_or halt with hv | hv
    · obtain ⟨ya, hya⟩ := hY.exists_state halt
      have ha' : a ∈ (p.under c).sources b := (ref.sources_eq b).symm ▸ ha
      have hflow := Env.below_joinAll hinput' (Problem.mem_incoming.2 ⟨a, ha', ya, hya, rfl⟩)
      exact Env.below_trans (h a s ya hv hs hya) (Env.below_mapValues hflow fun _ _ _ => ref.mono)
    · -- a source that was never visited still holds the bottom
      rw [hgrow.untouched hv] at hs
      cases hs
      exact ref.bottomEnv_below (hY.reached (ref.sound hp) coarse hb' hy).1.locals_eq

/-- A visit computes from what is below the reading, so its result is below the reading. -/
theorem blockStep (ref : p.analysis.Refines law c coarse p.graph P read) (hp : p.Sound)
    (hY : (p.under c).Solution Y) (hP : ∀ (b : Nat) (y : BlockState W), Y[b]? = some y → y.input.All P)
    (hgrow : Engine.Growing law e) (h : Bounds read Y e) {q : Worklist} {block : Block}
    {input output : Env V} (hb : b ∈ e.queue.toList) (hstep : e.BlockStep b q block input output m) :
    Bounds read Y m := by
  intro d s y hv hs hy
  have hprob := hgrow.problem_eq
  have hreach := hgrow.queued_reachable hb
  have hlt := hp.reachable_lt hreach
  by_cases hd : d = b
  · subst hd
    have hinput : p.inputOf e.states d = .ok input := hprob ▸ hstep.input_eq
    have hflow : p.flow block input = .ok output := hprob ▸ hstep.flow_eq
    have hblock : p.graph.block? d = some block := hprob ▸ hstep.lookup
    rw [hstep.states_eq, List.getElem?_set_self (hgrow.states_length ▸ hlt)] at hs
    cases hs
    have hreach' := (ref.reachable_iff d).2 hreach
    obtain ⟨block', hblock', -, hflow'⟩ := hY.equations hreach' hy
    obtain rfl : block = block' := Option.some.inj (hblock.symm.trans hblock')
    rw [Problem.flow, ref.walkOrder_eq] at hflow'
    refine ref.applyAll (fun t ht => ?_) (hgrow.input_reached hp hb hinput)
      (hY.reached (ref.sound hp) coarse hreach' hy).1 (hP d y hy)
      (ref.inputOf_below hp hY hgrow h hreach hinput hy) hflow hflow'
    exact Flowgraph.mem_sites_of_block? hblock (Problem.mem_sites_of_mem_walkOrder ht)
  · rw [hstep.states_eq, List.getElem?_set_ne (Ne.symm hd)] at hs
    rw [hstep.visited_eq, List.getElem?_set_ne (Ne.symm hd)] at hv
    exact h d s y hv hs hy

theorem toured (ref : p.analysis.Refines law c coarse p.graph P read) (hp : p.Sound)
    (hY : (p.under c).Solution Y) (hP : ∀ (b : Nat) (y : BlockState W), Y[b]? = some y → y.input.All P)
    {q : Worklist} (hq : q.Fresh) (h : (Engine.start p q).Toured n m) : Bounds read Y m := by
  have hstart := Engine.growing_start law hq
  induction h with
  | refl =>
    -- nothing has been visited
    intro b s y hv
    obtain ⟨snap, hsnap, -⟩ := (Engine.consistent_start p hq).recorded.2 hv
    simp [Engine.start] at hsnap
  | tail htour hperm hstep ih =>
    exact ref.blockStep hp hY hP (htour.growing hp hstart) ih (hperm.subset List.mem_cons_self) hstep

end Analysis.Refines

variable [DecidableEq V] [DecidableEq W] [LawfulJoin V] [LawfulJoin W] {a : Analysis V} {law : a.Lawful}
  {c : Analysis W} {coarse : c.Lawful} {g : Flowgraph} {p : Problem V} {P : Local → W → Prop}
  {read : Local → W → V}

/-- Completed runs of the two analyses, in whatever orders, end in tables of which the one is below what
is read from the other. -/
theorem Analysis.Refines.final_below (ref : a.Refines law c coarse g P read) (hg : g.Built)
    (hp : Problem.create a g = .ok p) {q q' : Worklist} (hq : q.Fresh) (hq' : q'.Fresh) {h : History V}
    (hrun : a.runFrom g q = .ok h) {h' : History W} (hrun' : c.runFrom g q' = .ok h') :
    ∃ last last', h.last? = some last ∧ h'.last? = some last' ∧ p.Solution last.states ∧
      (p.under c).Solution last'.states ∧ ∀ b s t, p.Reachable b → last.states[b]? = some s →
        last'.states[b]? = some t → t.output.All P ∧ s.output.Below (t.output.mapValues read) := by
  have hsound := Problem.sound_of_create hg hp
  have hp' : Problem.create c g = .ok (p.under c) := by
    obtain ⟨-, rfl, hbound⟩ := Problem.boundary_of_create hp
    rw [Problem.create, ref.direction_eq, hbound]
    rfl
  rw [runFrom_of_create hp] at hrun
  rw [runFrom_of_create hp'] at hrun'
  obtain ⟨rfl, rfl, -⟩ := Problem.boundary_of_create hp
  obtain ⟨k, e, htour, hempty, rfl⟩ := Run.toured_of_outcome hsound law hq hrun
  obtain ⟨k', e', htour', hempty', rfl⟩ := Run.toured_of_outcome (ref.sound hsound) coarse hq' hrun'
  have hgrow := htour.growing hsound (Engine.growing_start law hq)
  have hgrow' := htour'.growing (ref.sound hsound) (Engine.growing_start (p := p.under c) coarse hq')
  obtain ⟨last, hlast, -, hstates⟩ := hgrow.exists_last hempty
  obtain ⟨last', hlast', -, hstates'⟩ := hgrow'.exists_last hempty'
  have hsol' := hgrow'.solution hempty'
  have hkept : ∀ (b : Nat) (y : BlockState W), e'.states[b]? = some y → y.input.All P ∧ y.output.All P :=
    fun b y hy => Analysis.Keeps.toured (p := p.under c) ref.keeps htour' hy
  have hbounds := ref.toured hsound hsol' (fun b y hy => (hkept b y hy).1) hq htour
  refine ⟨last, last', hlast, hlast', hstates ▸ hgrow.solution hempty, hstates' ▸ hsol', ?_⟩
  intro b s t hb hs ht
  rw [hstates] at hs
  rw [hstates'] at ht
  exact ⟨(hkept b t ht).2, hbounds b s t ((hgrow.visited_iff_reachable hempty).2 hb) hs ht⟩

end FlowHistory
