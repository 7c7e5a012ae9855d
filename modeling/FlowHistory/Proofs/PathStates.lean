import FlowHistory.Proofs.Fixpoint
import FlowHistory.Proofs.Paths

/-!
# States along single paths

The state after a route of the flow is what the instructions along it, one after the other, make of the
seeded state. Every solution is above the states after all routes. Some analyses lose nothing by joining:
whatever a state is marked with after an instruction has a single cause before it. For these a completed
run marks a block with exactly what is marked after some route to the block.
-/
namespace FlowHistory

theorem Analysis.get?_freshEnv {V : Type} {a : Analysis V} {g : Flowgraph} {x : Local}
    (hx : x ∈ g.locals) (htracks : a.tracks x = true) :
    (a.freshEnv g).get? x = some (a.fresh g.instructionCount x) := by
  have hmem : x ∈ a.locals g := LocalSet.mem_filter.2 ⟨hx, htracks⟩
  rw [freshEnv, Env.get?_ofFn, if_pos hmem]

namespace Problem

variable {V : Type} {p : Problem V} {a b : Nat} {path : List Nat} {e : Env V}

/-- The effect of instructions, one after the other. -/
def applySites (p : Problem V) (sites : List Site) (e : Env V) : Except Fault (Env V) :=
  sites.foldlM (fun e s => p.apply s e) e

theorem applySites_append {l m : List Site} {e' : Env V} :
    p.applySites (l ++ m) e = .ok e' ↔ ∃ f, p.applySites l e = .ok f ∧ p.applySites m f = .ok e' := by
  rw [applySites, List.foldlM_append, bind_eq_ok]
  rfl

theorem applySites_cons {s : Site} {l : List Site} {e' : Env V} :
    p.applySites (s :: l) e = .ok e' ↔ ∃ f, p.apply s e = .ok f ∧ p.applySites l f = .ok e' := by
  rw [applySites, List.foldlM_cons, bind_eq_ok]
  rfl

theorem flow_eq_applySites (block : Block) :
    p.flow block e = p.applySites ((p.walkOrder block).map Prod.snd) e := by
  rw [flow, applyAll, applySites, List.foldlM_map]

/-- The flow takes `path` to block `b`: from where it starts, with the edges or against them. -/
def Route (p : Problem V) (path : List Nat) (b : Nat) : Prop :=
  match p.direction with
  | .forward => p.graph.Path p.boundary path b
  | .backward => p.graph.Path b path p.boundary

/-- The instructions along a path, in the order in which the flow meets them. -/
def sitesAlong (p : Problem V) (path : List Nat) : List Site :=
  match p.direction with
  | .forward => p.graph.sitesAlong path
  | .backward => (p.graph.sitesAlong path).reverse

theorem route_forward_iff (hp : p.direction = .forward) :
    p.Route path b ↔ p.graph.Path p.boundary path b := by
  rw [Route, hp]

theorem route_backward_iff (hp : p.direction = .backward) :
    p.Route path b ↔ p.graph.Path b path p.boundary := by
  rw [Route, hp]

theorem sitesAlong_forward (hp : p.direction = .forward) :
    p.sitesAlong path = p.graph.sitesAlong path := by
  rw [sitesAlong, hp]

theorem sitesAlong_backward (hp : p.direction = .backward) :
    p.sitesAlong path = (p.graph.sitesAlong path).reverse := by
  rw [sitesAlong, hp]

/-- The flow goes through the blocks of `path` one after the other and ends at block `b`, in state
`e`. -/
inductive Walked (p : Problem V) : List Nat → Nat → Env V → Prop
  | start {block : Block} {e : Env V} : p.graph.block? p.boundary = some block →
    p.flow block (p.analysis.freshEnv p.graph) = .ok e → Walked p [p.boundary] p.boundary e
  | step {path : List Nat} {a b : Nat} {block : Block} {e e' : Env V} : Walked p path a e →
    b ∈ p.targets a → p.graph.block? b = some block → p.flow block e = .ok e' →
    Walked p (path ++ [b]) b e'

namespace Walked

theorem reachable (h : p.Walked path b e) : p.Reachable b := by
  induction h with
  | start _ _ => exact .refl
  | step _ hb _ _ ih => exact ih.tail hb

/-- In the direction of control, a path is walked from its first instruction to its last. -/
theorem forward (hp : p.direction = .forward) (h : p.Walked path b e) :
    p.graph.Path p.boundary path b ∧
      p.applySites (p.graph.sitesAlong path) (p.analysis.freshEnv p.graph) = .ok e := by
  induction h with
  | start hblock hflow =>
    rw [flow_eq_applySites, sites_walkOrder_forward hp] at hflow
    exact ⟨.single _, by simpa [Flowgraph.sitesOf_eq hblock] using hflow⟩
  | step _ hb hblock hflow ih =>
    rw [flow_eq_applySites, sites_walkOrder_forward hp] at hflow
    rw [targets, hp] at hb
    refine ⟨ih.1.snoc hb, ?_⟩
    rw [Flowgraph.sitesAlong_append, applySites_append]
    exact ⟨_, ih.2, by simpa [Flowgraph.sitesOf_eq hblock] using hflow⟩

/-- Against the direction of control, it is walked from its last instruction to its first. -/
theorem backward (hp : p.direction = .backward) (h : p.Walked path b e) :
    p.graph.Path b path.reverse p.boundary ∧
      p.applySites (p.graph.sitesAlong path.reverse).reverse (p.analysis.freshEnv p.graph) = .ok e := by
  induction h with
  | start hblock hflow =>
    rw [flow_eq_applySites, sites_walkOrder_backward hp] at hflow
    exact ⟨.single _, by simpa [Flowgraph.sitesOf_eq hblock] using hflow⟩
  | step _ hb hblock hflow ih =>
    rw [flow_eq_applySites, sites_walkOrder_backward hp] at hflow
    rw [← mem_sources_iff, sources, hp] at hb
    rw [List.reverse_append, List.reverse_singleton, List.singleton_append]
    refine ⟨.cons hb ih.1, ?_⟩
    rw [Flowgraph.sitesAlong_cons, List.reverse_append, applySites_append]
    exact ⟨_, ih.2, by simpa [Flowgraph.sitesOf_eq hblock] using hflow⟩

/-- The state in which the flow ends is that after a route. -/
theorem exists_route (h : p.Walked path b e) : ∃ route, p.Route route b ∧
    p.applySites (p.sitesAlong route) (p.analysis.freshEnv p.graph) = .ok e := by
  cases hp : p.direction with
  | forward =>
    refine ⟨path, ?_⟩
    rw [route_forward_iff hp, sitesAlong_forward hp]
    exact h.forward hp
  | backward =>
    refine ⟨path.reverse, ?_⟩
    rw [route_backward_iff hp, sitesAlong_backward hp]
    exact h.backward hp

variable [LatticeValue V]

theorem reached (law : p.analysis.Lawful) (h : p.Walked path b e) : law.Reached p.graph e := by
  induction h with
  | start _ hflow => exact applyAll_reached law law.reached_freshEnv hflow
  | step _ _ _ hflow ih => exact applyAll_reached law ih hflow

/-- A solution is above the state after every path. -/
theorem below_output [LawfulJoin V] {X : List (BlockState V)} (hp : p.Sound) (law : p.analysis.Lawful)
    (hX : p.Solution X) (h : p.Walked path b e) {x : BlockState V} (hx : X[b]? = some x) :
    e.Below x.output := by
  induction h generalizing x with
  | start hblock hflow =>
    obtain ⟨block, hblock', hinput, hflow'⟩ := hX.equations .refl hx
    rw [inputOf_of_sources_nil ((hp.sources_nil_iff hp.boundary_lt).2 rfl), seed_boundary,
      Except.ok.injEq] at hinput
    rw [hblock] at hblock'
    cases hblock'
    rw [← hinput, hflow] at hflow'
    cases hflow'
    exact Env.below_refl _
  | @step path a b _ _ _ hwalk hb hblock hflow ih =>
    obtain ⟨xa, hxa⟩ := hX.exists_state (hp.reachable_lt hwalk.reachable)
    obtain ⟨block, hblock', -, hflow'⟩ := hX.equations (hwalk.reachable.tail hb) hx
    rw [hblock] at hblock'
    cases hblock'
    have hjoin := hX.output_below_input hwalk.reachable hb hxa hx
    exact applyAll_mono law (hwalk.reached law) (Env.below_trans (ih hxa) hjoin) hflow hflow'

end Walked

end Problem

/-- The state bears the mark at the local, if any mark is asked for. -/
def Env.Meets {V M : Type} (bears : V → M → Prop) (e : Env V) : Option (Local × M) → Prop
  | none => True
  | some (x, m) => ∃ v, e.get? x = some v ∧ bears v m

/-- Marks that values bear, with a single cause for each mark that an instruction leaves: a mark of one
local before the instruction, or nothing at all. -/
structure Analysis.Marking {V : Type} [LatticeValue V] (a : Analysis V) (M : Type) where
  bears : V → M → Prop
  bears_join {v w u : V} {m : M} : LatticeValue.join v w = .ok u → (bears u m ↔ bears v m ∨ bears w m)
  not_bears_bottom {x : Local} {m : M} : ¬ bears (a.bottom x) m
  /-- whether an instruction is refused does not depend on the values -/
  transfer_total {n : Nat} {s : Site} {e e' f : Env V} :
    a.transfer n s e = .ok e' → f.locals = e.locals → ∃ f', a.transfer n s f = .ok f'
  transfer_cause {n : Nat} {s : Site} {e e' : Env V} {x : Local} {v : V} {m : M} :
    a.transfer n s e = .ok e' → e'.get? x = some v → bears v m →
      ∃ c, e.Meets bears c ∧ ∀ f f', f.locals = e.locals → a.transfer n s f = .ok f' →
        f.Meets bears c → f'.Meets bears (some (x, m))

namespace Analysis.Marking

variable {V M : Type} [LatticeValue V] {a : Analysis V} {mk : a.Marking M} {e f j : Env V}
  {c : Option (Local × M)} {x : Local} {m : M}

/-- Marks are kept from a state to the states above it. -/
theorem meets_up (h : e.Meets mk.bears c) (hef : e.Below f) : f.Meets mk.bears c := by
  cases c with
  | none => trivial
  | some xm =>
    obtain ⟨v, hv, hm⟩ := h
    obtain ⟨w, hw⟩ := Env.exists_get?_of_locals_eq hef.locals_eq hv
    exact ⟨w, hw, (mk.bears_join (hef.get? hv hw)).2 (.inl hm)⟩

theorem not_meets_bottomEnv (g : Flowgraph) : ¬ (a.bottomEnv g).Meets mk.bears (some (x, m)) := by
  rintro ⟨v, hv, hm⟩
  rw [bottomEnv, Env.get?_ofFn] at hv
  split at hv
  · cases hv
    exact mk.not_bears_bottom hm
  · cases hv

/-- A mark of a join comes from one of the joined states. -/
theorem exists_meets_of_joinAll {es : List (Env V)} (h : Env.joinAll es = .ok j)
    (hm : j.Meets mk.bears (some (x, m))) : ∃ e ∈ es, e.Meets mk.bears (some (x, m)) := by
  have key : ∀ (rest : List (Env V)) (e : Env V), (∀ f ∈ rest, e.locals = f.locals) →
      rest.foldlM Env.joinSame e = .ok j → ∃ e' ∈ e :: rest, e'.Meets mk.bears (some (x, m)) := by
    intro rest
    induction rest with
    | nil =>
      intro e _ hfold
      cases hfold
      exact ⟨j, by simp, hm⟩
    | cons f rest ih =>
      intro e hl hfold
      obtain ⟨i, hi, hrest⟩ := Env.foldlM_joinSame_cons.1 hfold
      have hlf := hl f (by simp)
      have hli : ∀ f' ∈ rest, i.locals = f'.locals := fun f' hf' =>
        (Env.locals_joinSame hlf hi).trans (hl f' (by simp [hf']))
      obtain ⟨e', he', hm'⟩ := ih i hli hrest
      rcases List.mem_cons.1 he' with rfl | he'
      · obtain ⟨u, hu, hbears⟩ := hm'
        obtain ⟨v, w, hv, hw, hjoin⟩ := (Env.get?_joinSame hlf hi).1 hu
        rcases (mk.bears_join hjoin).1 hbears with hbears | hbears
        · exact ⟨e, by simp, ⟨v, hv, hbears⟩⟩
        · exact ⟨f, by simp, ⟨w, hw, hbears⟩⟩
      · exact ⟨e', by simp [he'], hm'⟩
  cases es with
  | nil => cases h
  | cons e rest =>
    obtain ⟨hl, hfold⟩ := Env.joinAll_cons.1 h
    exact key rest e hl hfold

end Analysis.Marking

namespace Problem

variable {V M : Type} [LatticeValue V] {p : Problem V} {e e' : Env V} {l : List (Nat × Site)}

/-- Instructions that are accepted in one state are accepted in every state over the same locals. -/
theorem exists_applyAll (law : p.analysis.Lawful) (mk : p.analysis.Marking M)
    (h : p.applyAll l e = .ok e') {f : Env V} (hf : f.locals = e.locals) :
    ∃ f', p.applyAll l f = .ok f' := by
  induction l generalizing e f with
  | nil => exact ⟨f, rfl⟩
  | cons s l ih =>
    obtain ⟨e₁, hs, hrest⟩ := applyAll_cons.1 h
    obtain ⟨f₁, hs'⟩ := mk.transfer_total hs hf
    have hl : f₁.locals = e₁.locals :=
      ((law.transfer_locals hs').trans hf).trans (law.transfer_locals hs).symm
    obtain ⟨f', hrest'⟩ := ih hrest hl
    exact ⟨f', applyAll_cons.2 ⟨f₁, hs', hrest'⟩⟩

/-- A mark left by several instructions has a single cause before them. -/
theorem exists_cause (law : p.analysis.Lawful) (mk : p.analysis.Marking M)
    (h : p.applyAll l e = .ok e') {c : Option (Local × M)} (hc : e'.Meets mk.bears c) :
    ∃ c', e.Meets mk.bears c' ∧ ∀ f f', f.locals = e.locals → p.applyAll l f = .ok f' →
      f.Meets mk.bears c' → f'.Meets mk.bears c := by
  induction l generalizing e with
  | nil =>
    cases h
    refine ⟨c, hc, fun f f' _ hf hm => ?_⟩
    cases hf
    exact hm
  | cons s l ih =>
    obtain ⟨e₁, hs, hrest⟩ := applyAll_cons.1 h
    obtain ⟨c₁, hm₁, hkeep⟩ := ih hrest
    -- the cause before the later instructions has itself a cause before the first one
    have hfirst : ∃ c', e.Meets mk.bears c' ∧ ∀ f f₁, f.locals = e.locals → p.apply s.2 f = .ok f₁ →
        f.Meets mk.bears c' → f₁.Meets mk.bears c₁ := by
      cases c₁ with
      | none => exact ⟨none, trivial, fun _ _ _ _ _ => trivial⟩
      | some xm =>
        obtain ⟨v, hv, hbears⟩ := hm₁
        exact mk.transfer_cause hs hv hbears
    obtain ⟨c', hm', hcause⟩ := hfirst
    refine ⟨c', hm', fun f f' hf hf' hm => ?_⟩
    obtain ⟨f₁, hs', hrest'⟩ := applyAll_cons.1 hf'
    have hl : f₁.locals = e₁.locals :=
      ((law.transfer_locals hs').trans hf).trans (law.transfer_locals hs).symm
    exact hkeep f₁ f' hl hrest' (hcause f f₁ hf hs' hm)

section

variable [LawfulJoin V] {X : List (BlockState V)} {a b : Nat} {path : List Nat}

/-- Where a solution exists, the flow goes on along every edge. -/
theorem Walked.exists_step (hp : p.Sound) (law : p.analysis.Lawful) (mk : p.analysis.Marking M)
    (hX : p.Solution X) (h : p.Walked path a e) (hb : b ∈ p.targets a) :
    ∃ e', p.Walked (path ++ [b]) b e' := by
  have hreach := h.reachable.tail hb
  obtain ⟨block, x, hblock, hx, -, hflow⟩ := hX.satisfied hreach
  have hl : e.locals = x.input.locals :=
    (h.reached law).locals_eq.trans (hX.reached hp law hreach hx).1.locals_eq.symm
  obtain ⟨e', he'⟩ := exists_applyAll law mk hflow hl
  exact ⟨e', .step h hb hblock he'⟩

omit [LawfulJoin V] in
theorem exists_walked_start (hp : p.Sound) (hX : p.Solution X) :
    ∃ e, p.Walked [p.boundary] p.boundary e := by
  obtain ⟨block, x, hblock, -, hinput, hflow⟩ := hX.satisfied .refl
  rw [inputOf_of_sources_nil ((hp.sources_nil_iff hp.boundary_lt).2 rfl), seed_boundary,
    Except.ok.injEq] at hinput
  rw [← hinput] at hflow
  exact ⟨_, .start hblock hflow⟩

theorem Walked.exists_along (hp : p.Sound) (law : p.analysis.Lawful) (mk : p.analysis.Marking M)
    (hX : p.Solution X) (hdir : p.direction = .forward) (hpath : p.graph.Path a (a :: path) b)
    {l : List Nat} (h : p.Walked l a e) : ∃ e', p.Walked (l ++ path) b e' := by
  generalize hfull : a :: path = full at hpath
  induction hpath generalizing path l e with
  | single a =>
    cases hfull
    exact ⟨e, by simpa using h⟩
  | cons hc hpath ih =>
    cases hfull
    obtain ⟨rest, rfl⟩ := hpath.eq_cons
    obtain ⟨f, hf⟩ := h.exists_step hp law mk hX (by rw [targets, hdir]; exact hc)
    simpa using ih hf rfl

theorem exists_walked_forward (hp : p.Sound) (law : p.analysis.Lawful) (mk : p.analysis.Marking M)
    (hX : p.Solution X) (hdir : p.direction = .forward) (hpath : p.graph.Path p.boundary path b) :
    ∃ e, p.Walked path b e := by
  obtain ⟨rest, rfl⟩ := hpath.eq_cons
  obtain ⟨e, he⟩ := exists_walked_start hp hX
  exact he.exists_along hp law mk hX hdir hpath

theorem exists_walked_backward (hp : p.Sound) (law : p.analysis.Lawful) (mk : p.analysis.Marking M)
    (hX : p.Solution X) (hdir : p.direction = .backward) (hpath : p.graph.Path b path p.boundary) :
    ∃ e, p.Walked path.reverse b e := by
  generalize hend : p.boundary = c at hpath
  induction hpath with
  | single a =>
    subst hend
    exact exists_walked_start hp hX
  | @cons a b c path hb _ ih =>
    obtain ⟨f, hf⟩ := ih hend
    have ha : a ∈ p.targets b := by
      rw [← mem_sources_iff, sources, hdir]
      exact hb
    simpa using hf.exists_step hp law mk hX ha

/-- Where a solution exists, the flow goes along every route. -/
theorem Route.exists_walked (hp : p.Sound) (law : p.analysis.Lawful) (mk : p.analysis.Marking M)
    (hX : p.Solution X) (h : p.Route path b) : ∃ walk e, p.Walked walk b e ∧
      p.applySites (p.sitesAlong path) (p.analysis.freshEnv p.graph) = .ok e := by
  cases hdir : p.direction with
  | forward =>
    rw [route_forward_iff hdir] at h
    obtain ⟨e, he⟩ := exists_walked_forward hp law mk hX hdir h
    rw [sitesAlong_forward hdir]
    exact ⟨path, e, he, (he.forward hdir).2⟩
  | backward =>
    rw [route_backward_iff hdir] at h
    obtain ⟨e, he⟩ := exists_walked_backward hp law mk hX hdir h
    rw [sitesAlong_backward hdir]
    refine ⟨path.reverse, e, he, ?_⟩
    simpa using (he.backward hdir).2

end

end Problem

namespace Engine

variable {V M : Type} [DecidableEq V] [LatticeValue V] [LawfulJoin V] {p : Problem V}
  {law : p.analysis.Lawful} {mk : p.analysis.Marking M} {e m : Engine V}

/-- Whatever the result of a visited block is marked with is marked after some path to the block. -/
def Traced (mk : p.analysis.Marking M) (e : Engine V) : Prop :=
  ∀ (b : Nat) (s : BlockState V) (c : Option (Local × M)), e.visited[b]? = some true →
    e.states[b]? = some s → s.output.Meets mk.bears c →
    ∃ path f, p.Walked path b f ∧ f.Meets mk.bears c

omit [DecidableEq V] [LawfulJoin V] in
/-- The input of a waiting block is marked with what is marked after some path into the block. -/
theorem Traced.exists_source (hp : p.Sound) (hgrow : Growing law e) (htraced : Traced mk e) {b : Nat}
    (hb : b ∈ e.queue.toList) (hne : b ≠ p.boundary) {j : Env V} (hj : p.inputOf e.states b = .ok j)
    {c : Option (Local × M)} (hc : j.Meets mk.bears c) :
    ∃ a path f, b ∈ p.targets a ∧ p.Walked path a f ∧ f.Meets mk.bears c := by
  obtain ⟨a, ha, hv⟩ := (hgrow.fed hb).resolve_left hne
  -- a visited source has the mark: any one of them, or the one that the mark comes from
  suffices h : ∃ a st, a ∈ p.sources b ∧ e.visited[a]? = some true ∧ e.states[a]? = some st ∧
      st.output.Meets mk.bears c by
    obtain ⟨a, st, ha, hv, hst, hm⟩ := h
    obtain ⟨path, f, hwalk, hmf⟩ := htraced a st c hv hst hm
    exact ⟨a, path, f, Problem.mem_sources_iff.1 ha, hwalk, hmf⟩
  cases c with
  | none =>
    obtain ⟨st, hst⟩ := hgrow.exists_state (Flowgraph.sources_lt hp.sane ha)
    exact ⟨a, st, ha, hv, hst, trivial⟩
  | some xm =>
    rw [Problem.inputOf_of_sources_ne_nil (List.ne_nil_of_mem ha)] at hj
    obtain ⟨_, hin, hm⟩ := Analysis.Marking.exists_meets_of_joinAll hj hc
    obtain ⟨a', ha', st, hst, rfl⟩ := Problem.mem_incoming.1 hin
    rcases hgrow.visited_or (Flowgraph.sources_lt hp.sane ha') with hv' | hv'
    · exact ⟨a', st, ha', hv', hst, hm⟩
    · rw [hgrow.untouched hv'] at hst
      cases hst
      exact absurd hm (Analysis.Marking.not_meets_bottomEnv p.graph)

theorem Traced.blockStep {b : Nat} {q : Worklist} {block : Block} {input output : Env V}
    (hp : p.Sound) (hgrow : Growing law e) (htraced : Traced mk e)
    (hperm : (b :: q.toList).Perm e.queue.toList) (hstep : BlockStep e b q block input output m) :
    Traced mk m := by
  have hprob := hgrow.problem_eq
  have hb : b ∈ e.queue.toList := hperm.subset (by simp)
  have hlt := hp.reachable_lt (hgrow.queued_reachable hb)
  have hbs : b < e.states.length := hgrow.states_length ▸ hlt
  have hbv : b < e.visited.length := hgrow.visited_length ▸ hlt
  intro d s c hv hs hc
  by_cases hd : d = b
  · subst hd
    rw [hstep.states_eq, List.getElem?_set_self hbs] at hs
    cases hs
    have hlookup : p.graph.block? d = some block := hprob ▸ hstep.lookup
    have hinput : p.inputOf e.states d = .ok input := hprob ▸ hstep.input_eq
    have hflow : p.flow block input = .ok output := hprob ▸ hstep.flow_eq
    by_cases hbound : d = p.boundary
    · subst hbound
      rw [Problem.inputOf_of_sources_nil ((hp.sources_nil_iff hlt).2 rfl), Problem.seed_boundary,
        Except.ok.injEq] at hinput
      rw [← hinput] at hflow
      exact ⟨_, _, .start hlookup hflow, hc⟩
    · -- follow the mark through the block to its cause, and from there to a source
      obtain ⟨c', hc', hkeep⟩ := Problem.exists_cause law mk hflow hc
      obtain ⟨a, path, f, ha, hwalk, hm⟩ := htraced.exists_source hp hgrow hb hbound hinput hc'
      have hl : f.locals = input.locals :=
        (hwalk.reached law).locals_eq.trans (hgrow.input_reached hp hb hinput).locals_eq.symm
      obtain ⟨f', hf'⟩ := Problem.exists_applyAll law mk hflow hl
      exact ⟨_, f', .step hwalk ha hlookup hf', hkeep f f' hl hf' hm⟩
  · rw [hstep.states_eq, List.getElem?_set_ne (Ne.symm hd)] at hs
    rw [hstep.visited_eq, visited_set hbv] at hv
    exact htraced d s c (hv.resolve_left hd) hs hc

omit [DecidableEq V] [LawfulJoin V] in
theorem traced_start (mk : p.analysis.Marking M) (q : Worklist) : Traced mk (start p q) := by
  intro b s c hb
  have hmem := List.mem_of_getElem? hb
  simp [start] at hmem

theorem Toured.traced {k : Nat} (hp : p.Sound) (he : Growing law e) (htraced : Traced mk e)
    (h : Toured e k m) : Traced mk m := by
  induction h with
  | refl => exact htraced
  | tail htour hperm hstep ih => exact Traced.blockStep hp (htour.growing hp he) ih hperm hstep

end Engine

section

variable {V M : Type} [DecidableEq V] [LatticeValue V] [LawfulJoin V] {a : Analysis V} {g : Flowgraph}
  {p : Problem V} {q : Worklist} {h : History V}

/-- A completed run ends in a solution that marks each block along the flow with exactly what is marked
after some walk of the flow to it. -/
theorem Analysis.Marking.meets_iff_of_run (mk : a.Marking M) (law : a.Lawful) (hg : g.Built)
    (hp : Problem.create a g = .ok p) (hq : q.Fresh) (hrun : a.runFrom g q = .ok h) :
    ∃ last, h.last? = some last ∧ p.Solution last.states ∧
      ∀ b s c, p.Reachable b → last.states[b]? = some s →
        (s.output.Meets mk.bears c ↔ ∃ walk f, p.Walked walk b f ∧ f.Meets mk.bears c) := by
  have hsound := Problem.sound_of_create hg hp
  obtain rfl := (Problem.boundary_of_create hp).1
  rw [runFrom_of_create hp] at hrun
  obtain ⟨k, e, htour, hempty, rfl⟩ := Run.toured_of_outcome hsound law hq hrun
  have hstart := Engine.growing_start law hq
  have hgrow := htour.growing hsound hstart
  have htraced := htour.traced hsound hstart (Engine.traced_start mk q)
  obtain ⟨last, hlast, -, hstates⟩ := hgrow.exists_last hempty
  have hsol := hgrow.solution hempty
  refine ⟨last, hlast, hstates ▸ hsol, fun b s c hb hs => ?_⟩
  rw [hstates] at hs
  constructor
  · intro hm
    exact htraced b s c ((hgrow.visited_iff_reachable hempty).2 hb) hs hm
  · rintro ⟨walk, f, hwalk, hm⟩
    exact Analysis.Marking.meets_up hm (hwalk.below_output hsound law hsol hs)

/-- What a completed run leaves at a block along the flow: the instructions along every route there are
accepted, and each tracked local has a value with exactly the marks that it has after some route. -/
theorem Analysis.Marking.bears_iff_of_run (mk : a.Marking M) (law : a.Lawful) (hg : g.Built)
    (hp : Problem.create a g = .ok p) (hq : q.Fresh) (hrun : a.runFrom g q = .ok h) :
    ∃ last, h.last? = some last ∧ ∀ b, p.Reachable b →
      (∀ route, p.Route route b → ∃ f, p.applySites (p.sitesAlong route) (a.freshEnv g) = .ok f) ∧
      ∀ x ∈ g.locals, a.tracks x = true → ∃ s v, last.states[b]? = some s ∧
        s.output.get? x = some v ∧ law.reached v ∧ ∀ m, mk.bears v m ↔ ∃ route f w, p.Route route b ∧
          p.applySites (p.sitesAlong route) (a.freshEnv g) = .ok f ∧ f.get? x = some w ∧
          mk.bears w m := by
  have hsound := Problem.sound_of_create hg hp
  obtain ⟨last, hlast, hsol, hmarks⟩ := mk.meets_iff_of_run law hg hp hq hrun
  obtain ⟨ha, hgraph, -⟩ := Problem.boundary_of_create hp
  refine ⟨last, hlast, fun b hb => ?_⟩
  subst ha
  subst hgraph
  refine ⟨fun route hroute => ?_, fun x hx htracks => ?_⟩
  · obtain ⟨-, f, -, hf⟩ := hroute.exists_walked hsound law mk hsol
    exact ⟨f, hf⟩
  · obtain ⟨s, hs⟩ := hsol.exists_state (hsound.reachable_lt hb)
    obtain ⟨v, hv, hreached⟩ := law.exists_value hg hp hsol hb hs hx htracks
    refine ⟨s, v, hs, hv, hreached, fun m => ?_⟩
    have hmeets : mk.bears v m ↔ s.output.Meets mk.bears (some (x, m)) := by simp [Env.Meets, hv]
    rw [hmeets, hmarks b s _ hb hs]
    constructor
    · rintro ⟨walk, f, hwalk, w, hw, hm⟩
      obtain ⟨route, hroute, hf⟩ := hwalk.exists_route
      exact ⟨route, f, w, hroute, hf, hw, hm⟩
    · rintro ⟨route, f, w, hroute, hf, hw, hm⟩
      obtain ⟨walk, f', hwalk, hf'⟩ := hroute.exists_walked hsound law mk hsol
      rw [hf] at hf'
      cases hf'
      exact ⟨walk, f, hwalk, w, hw, hm⟩

end

end FlowHistory
