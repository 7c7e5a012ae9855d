import FlowHistory.Proofs.BitLaws
import FlowHistory.Proofs.LeastSolution

/-!
# What the runs of the five analyses come to

A run ends, whatever the order of its visits. After each block step the visited blocks that do not wait
satisfy their equations; so a completed run ends in a solution of all equations along the flow, and in
the least one, which is the same for every order.
-/
namespace FlowHistory

namespace Engine

variable {V : Type} [DecidableEq V] [LatticeValue V] {p : Problem V} {e : Engine V} {q : Worklist}

/-- Between two block steps only whole block steps have been made. -/
theorem Moved.toured {n : Nat} (hp : p.Sound) (h : Moved (start p q) n e) (hidle : e.walk = none) :
    ∃ k, Toured (start p q) k e := by
  cases h.stands hp.sane rfl with
  | @between k htour _ _ => exact ⟨k, htour⟩
  | midway _ _ _ _ hwalk _ =>
    rw [hidle] at hwalk
    cases hwalk

theorem moved_drive (hq : q.Fresh) (n : Nat) : ∃ k, Moved (start p q) k ((start p q).drive n).1 := by
  have hready : (start p q).queue.Ready := Worklist.ready_add hq.ready p.boundary
  obtain ⟨k, -, hmoved, -⟩ := drive_cases hready (n := n) rfl
  exact ⟨k, hmoved⟩

theorem exists_mayStep (e : Engine V) : ∃ s, e.MayStep s := by
  cases hwalk : e.walk with
  | some w => exact ⟨_, .advance hwalk⟩
  | none =>
    cases hqueue : e.queue.toList with
    | nil => exact ⟨_, .settle hwalk hqueue⟩
    | cons b rest =>
      have hperm : (b :: (Worklist.naive rest).toList).Perm e.queue.toList := by
        rw [hqueue]
        exact .refl _
      exact ⟨_, .enter hwalk hperm⟩

omit [DecidableEq V] in
/-- When nothing waits any more, the last snapshot shows so, with the final table. -/
theorem Consistent.exists_last (h : Consistent p e) (hempty : e.queue.toList = []) :
    ∃ last, e.history.last? = some last ∧ last.worklist = [] ∧ last.states = e.states := by
  have hvisited : e.visited[p.boundary]? = some true := (h.visited_iff_reachable hempty).2 .refl
  obtain ⟨s, hs, -⟩ := h.recorded.2 hvisited
  have hne : e.snapshots.toList ≠ [] := List.ne_nil_of_mem hs
  have hlast := List.getLast?_eq_some_getLast hne
  obtain ⟨hworklist, hstates⟩ := h.shown hlast
  refine ⟨_, ?_, hworklist.trans hempty, hstates⟩
  rw [History.last?, history, ← Array.getLast?_toList]
  exact hlast

variable [LawfulJoin V]

omit [DecidableEq V] [LawfulJoin V] in
theorem Consistent.solution (h : Consistent p e) (hempty : e.queue.toList = []) :
    p.Solution e.states where
  length_eq := h.states_length
  satisfied hb := h.satisfied ((h.visited_iff_reachable hempty).2 hb) (by simp [hempty])

omit [DecidableEq V] in
/-- Two settled runs hold the same states: each table is below the other along the flow, and elsewhere
nothing was touched. -/
theorem states_eq_of_settled {law : p.analysis.Lawful} {e' : Engine V} (he : Growing law e)
    (he' : Growing law e') (hempty : e.queue.toList = []) (hdom : Dominated p e'.states e)
    (hdom' : Dominated p e.states e') : e.states = e'.states := by
  refine List.ext_getElem? fun b => ?_
  by_cases hb : b < p.graph.blockCount
  · obtain ⟨s, hs⟩ := he.exists_state hb
    obtain ⟨s', hs'⟩ := he'.exists_state hb
    rcases he.visited_or hb with hv | hv
    · have hreach := he.visited_reachable hv
      obtain ⟨hin, hout⟩ := hdom hreach hs hs'
      obtain ⟨hin', hout'⟩ := hdom' hreach hs' hs
      have hss : s = s' := by
        cases s
        cases s'
        rw [BlockState.mk.injEq]
        exact ⟨Env.below_antisymm hin hin', Env.below_antisymm hout hout'⟩
      rw [hs, hs', hss]
    · rcases he'.visited_or hb with hv' | hv'
      · have := (he.visited_iff_reachable hempty).2 (he'.visited_reachable hv')
        rw [hv] at this
        cases this
      · rw [he.untouched hv, he'.untouched hv']
  · rw [List.getElem?_eq_none (he.states_length ▸ Nat.le_of_not_lt hb),
      List.getElem?_eq_none (he'.states_length ▸ Nat.le_of_not_lt hb)]

end Engine

section

variable {V : Type} [DecidableEq V] [LatticeValue V] [LawfulJoin V] {a : Analysis V} {g : Flowgraph}
  {p : Problem V} {q : Worklist} {h : History V}

omit [LawfulJoin V] in
theorem Analysis.runFrom_of_create (hp : Problem.create a g = .ok p) :
    a.runFrom g q = (Run.ofQueue p q).outcome := by
  rw [runFrom, hp]
  rfl

/-- A completed run has made whole block steps until nothing was left waiting. -/
theorem Run.toured_of_outcome (hp : p.Sound) (law : p.analysis.Lawful) (hq : q.Fresh)
    (hrun : (Run.ofQueue p q).outcome = .ok h) :
    ∃ k e, (Engine.start p q).Toured k e ∧ e.queue.toList = [] ∧ h = e.history := by
  obtain ⟨n, hmoved, ⟨hend, hidle, hempty⟩ | ⟨f, _, _, hend, -⟩⟩ := Run.ofQueue_cases hp law hq
  · obtain ⟨k, htour⟩ := hmoved.toured hp hidle
    refine ⟨k, _, htour, hempty, ?_⟩
    simp only [Run.outcome, hend, Except.ok.injEq] at hrun
    exact hrun.symm
  · simp [Run.outcome, hend] at hrun

/-- What a completed run leaves: nothing waits, the last table solves the equations along the flow, and
exactly the blocks along the flow have been visited. -/
theorem Analysis.Lawful.solution_of_run (law : a.Lawful) (hg : g.Built)
    (hp : Problem.create a g = .ok p) (hq : q.Fresh) (hrun : a.runFrom g q = .ok h) :
    ∃ last, h.last? = some last ∧ last.worklist = [] ∧ p.Solution last.states ∧
      ∀ b, (∃ s ∈ h.snapshots.toList, s.cursor.block = b) ↔ p.Reachable b := by
  have hsound := Problem.sound_of_create hg hp
  obtain rfl := (Problem.boundary_of_create hp).1
  rw [runFrom_of_create hp] at hrun
  obtain ⟨m, e, htour, hempty, rfl⟩ := Run.toured_of_outcome hsound law hq hrun
  have hcons := htour.consistent hsound.sane hsound.boundary_lt (Engine.consistent_start p hq)
  obtain ⟨last, hlast, hworklist, hstates⟩ := hcons.exists_last hempty
  refine ⟨last, hlast, hworklist, hstates ▸ hcons.solution hempty, fun b => ?_⟩
  exact hcons.recorded.trans (hcons.visited_iff_reachable hempty)

omit [DecidableEq V] in
/-- Along the flow, a solution has a value for every tracked local of the program. -/
theorem Analysis.Lawful.exists_value (law : a.Lawful) (hg : g.Built) (hp : Problem.create a g = .ok p)
    {X : List (BlockState V)} (hX : p.Solution X) {b : Nat} (hb : p.Reachable b) {s : BlockState V}
    (hs : X[b]? = some s) {x : Local} (hx : x ∈ g.locals) (htracks : a.tracks x = true) :
    ∃ v, s.output.get? x = some v ∧ law.reached v := by
  have hsound := Problem.sound_of_create hg hp
  obtain ⟨rfl, rfl, -⟩ := Problem.boundary_of_create hp
  have hout := (hX.reached hsound law hb hs).2
  have hmem : x ∈ s.output.locals := by
    rw [hout.locals_eq]
    exact LocalSet.mem_filter.2 ⟨hx, htracks⟩
  obtain ⟨v, hv⟩ := Env.mem_locals_iff.1 hmem
  exact ⟨v, hv, hout.above x v hv⟩

/-- Where no transfer is refused, a run completes. -/
theorem Analysis.Lawful.exists_run (law : a.Lawful) (hg : g.Built) (hp : Problem.create a g = .ok p)
    (hq : q.Fresh) (hok : ∀ s ∈ g.sites, ∀ e, ∃ e', a.transfer g.instructionCount s e = .ok e') :
    ∃ h, a.runFrom g q = .ok h := by
  have hsound := Problem.sound_of_create hg hp
  rw [runFrom_of_create hp]
  obtain ⟨rfl, rfl, -⟩ := Problem.boundary_of_create hp
  obtain ⟨n, -, ⟨hend, -, -⟩ | ⟨f, s, e, -, hs, hf⟩⟩ := Run.ofQueue_cases hsound law hq
  · exact ⟨(Run.ofQueue p q).engine.history, by simp only [Run.outcome, hend]⟩
  · obtain ⟨e', he'⟩ := hok s hs e
    rw [Problem.apply, he'] at hf
    cases hf

end

/-- `x = 4` -/
def setFour : Instruction := .assign (.var ⟨"x", .int⟩) (.operand (.literal (.int 4)))

/-- `x = x + x` -/
def double : Instruction :=
  .assign (.var ⟨"x", .int⟩) (.binary .add (.read ⟨"x", .int⟩) (.read ⟨"x", .int⟩))

/-- A program that sets a local and then doubles it in a loop. -/
def doubling : Flowgraph where
  graph := ⟨[⟨0, [setFour], false⟩, ⟨1, [double], false⟩, ⟨2, [.ret none], false⟩],
    [(0, 1), (1, 1), (1, 2)]⟩
  entry := 0
  exit := some 2
  locals := .ofList (setFour.locals ++ double.locals)

theorem doubling_built : doubling.Built := by
  have hblocks := ((Draft.Made.empty.addBlock [setFour]).addBlock [double]).addBlock [.ret none]
  have hfirst := @Draft.Made.addEdge _ _ 0 1 hblocks rfl
  have hloop := @Draft.Made.addEdge _ _ 1 1 hfirst rfl
  have hlast := @Draft.Made.addEdge _ _ 1 2 hloop rfl
  exact ⟨_, hlast, rfl⟩

theorem sites_doubling : doubling.sites = [⟨0, setFour⟩, ⟨1, double⟩, ⟨2, .ret none⟩] := rfl

namespace AnalysisKind

/-- No analysis refuses an instruction of the loop. -/
theorem exists_transfer_doubling (k : AnalysisKind) {s : Site} (hs : s ∈ doubling.sites) (e : Env k.Value) :
    ∃ e', k.analysis.transfer doubling.instructionCount s e = .ok e' := by
  have htracked : ∀ {V : Type} {c : Prop} [Decidable c] {f f' : Env V},
      ∃ e', (if c then Except.ok f else Except.ok f' : Except Fault (Env V)) = .ok e' := by
    intro V c _ f f'
    split <;> exact ⟨_, rfl⟩
  rw [sites_doubling] at hs
  simp only [List.mem_cons, List.not_mem_nil, or_false] at hs
  cases k with
  | taint | liveVariables => exact ⟨_, rfl⟩
  | constantFolding | constantBits | reachingDefinitions =>
    rcases hs with rfl | rfl | rfl
    · exact htracked
    · exact htracked
    · exact ⟨e, rfl⟩

theorem exists_run_doubling (k : AnalysisKind) (c : Config) : ∃ h, k.analysis.run doubling c = .ok h := by
  have hcreate : ∃ p, Problem.create k.analysis doubling = .ok p := by cases k <;> exact ⟨_, rfl⟩
  obtain ⟨p, hp⟩ := hcreate
  exact k.lawful.exists_run doubling_built hp c.worklist_fresh fun s hs e => k.exists_transfer_doubling hs e

variable {k : AnalysisKind} {g : Flowgraph} {p : Problem k.Value} {q : Worklist}

/-- After every block step, each block that was visited and does not wait satisfies its equations. So a
completed run ends with nothing waiting, has visited exactly the blocks that the flow from the boundary
arrives at, and its last table satisfies the equations of them all. -/
theorem settled_blocks_satisfied (hg : g.Built) (hp : Problem.create k.analysis g = .ok p)
    (hq : q.Fresh) :
    (∀ (n : Nat) (e : Engine k.Value), ((Engine.start p q).drive n).1 = e → e.walk = none →
      ∀ b, (∃ s ∈ e.snapshots.toList, s.cursor.block = b) → b ∉ e.queue.toList →
        p.Satisfied e.states b) ∧
    ∀ h, k.analysis.runFrom g q = .ok h →
      ∃ last, h.last? = some last ∧ last.worklist = [] ∧
        (∀ b, (∃ s ∈ h.snapshots.toList, s.cursor.block = b) ↔ p.Reachable b) ∧
        ∀ b, p.Reachable b → p.Satisfied last.states b := by
  have hsound := Problem.sound_of_create hg hp
  have hstart := Engine.consistent_start p hq
  constructor
  · rintro n e rfl hidle b hb hqueue
    obtain ⟨i, hmoved⟩ := Engine.moved_drive (p := p) hq n
    obtain ⟨m, htour⟩ := hmoved.toured hsound hidle
    have hcons := htour.consistent hsound.sane hsound.boundary_lt hstart
    exact hcons.satisfied (hcons.recorded.1 hb) hqueue
  · intro h hrun
    obtain ⟨last, hlast, hworklist, hsol, hvisited⟩ := k.lawful.solution_of_run hg hp hq hrun
    exact ⟨last, hlast, hworklist, hvisited, fun b => hsol.satisfied⟩

theorem settled_blocks_satisfied_doubling :
    ∃ h last, constantFolding.analysis.run doubling ⟨.naive, none⟩ = .ok h ∧ h.last? = some last ∧
      last.worklist = [] ∧ ∀ b, Problem.Reachable ⟨constantFolding.analysis, doubling, 0⟩ b →
        Problem.Satisfied ⟨constantFolding.analysis, doubling, 0⟩ last.states b := by
  obtain ⟨h, hrun⟩ := exists_run_doubling .constantFolding ⟨.naive, none⟩
  have hfresh := Config.worklist_fresh ⟨.naive, none⟩
  obtain ⟨last, hlast, hempty, -, hsat⟩ :=
    (settled_blocks_satisfied doubling_built (k := constantFolding) rfl hfresh).2 h hrun
  exact ⟨h, last, hrun, hlast, hempty, hsat⟩

/-- A boundary that the graph does not have is reported. Otherwise every sequence of choices among the
waiting blocks comes to an end within a number of steps known in advance: it goes on as long as a block
waits and no transfer is refused. So do the runs that take the blocks in the order of a list. -/
theorem runs_end (k : AnalysisKind) (hg : g.Built) :
    (∃ f, g.boundary k.analysis.direction = .error f ∧ ∀ q, k.analysis.runFrom g q = .error f) ∨
    ∃ p, Problem.create k.analysis g = .ok p ∧ ∀ q : Worklist, q.Fresh →
      (∀ n m, (Engine.start p q).Moved n m → n < k.analysis.budget g ∧ (∃ s, m.MayStep s) ∧
        ∀ s, m.MayStep s → (∃ m', s = .recorded m') ∨
          (s = .settled ∧ m.walk = none ∧ m.queue.toList = []) ∨
          ∃ f site env, s = .failed f ∧ site ∈ g.sites ∧ p.apply site env = .error f) ∧
      (((Run.ofQueue p q).ending = .settled ∧ (Run.ofQueue p q).engine.queue.toList = []) ∨
        ∃ f site env, (Run.ofQueue p q).ending = .failed f ∧ site ∈ g.sites ∧
          p.apply site env = .error f) := by
  cases hbound : g.boundary k.analysis.direction with
  | error f =>
    refine .inl ⟨f, rfl, fun q => ?_⟩
    rw [Analysis.runFrom, Problem.create, hbound]
    rfl
  | ok b =>
    have hp : Problem.create k.analysis g = .ok ⟨k.analysis, g, b⟩ := by
      rw [Problem.create, hbound]
      rfl
    have hsound := Problem.sound_of_create hg hp
    refine .inr ⟨_, hp, fun q hq => ⟨fun n m hmoved => ?_, ?_⟩⟩
    · exact ⟨hmoved.lt_budget hsound k.lawful hq, m.exists_mayStep, fun s hs =>
        hmoved.step_cases hsound k.lawful hq hs⟩
    · obtain ⟨n, -, ⟨hend, -, hempty⟩ | hfail⟩ := Run.ofQueue_cases hsound k.lawful hq
      · exact .inl ⟨hend, hempty⟩
      · exact .inr hfail

theorem runs_end_doubling : ∃ p, Problem.create constantFolding.analysis doubling = .ok p ∧
    ∀ n m, (Engine.start p (.naive [])).Moved n m → n < 41 := by
  have hbound : doubling.boundary constantFolding.analysis.direction = .ok 0 := rfl
  rcases runs_end constantFolding doubling_built with ⟨f, hf, -⟩ | ⟨p, hp, h⟩
  · rw [hbound] at hf
    cases hf
  · exact ⟨p, hp, fun n m hmoved => ((h (.naive []) .naive).1 n m hmoved).1⟩

/-- The last table of a completed run solves the equations along the flow and is below every other table
that does; completed runs in any other order end in the same table. -/
theorem final_states_least (hg : g.Built) (hp : Problem.create k.analysis g = .ok p) (hq : q.Fresh)
    {h : History k.Value} (hrun : k.analysis.runFrom g q = .ok h) :
    ∃ last, h.last? = some last ∧ p.Solution last.states ∧
      (∀ X, p.Solution X → ∀ b s x, p.Reachable b → last.states[b]? = some s → X[b]? = some x →
        s.input.Below x.input ∧ s.output.Below x.output) ∧
      ∀ q' h', q'.Fresh → k.analysis.runFrom g q' = .ok h' →
        ∃ last', h'.last? = some last' ∧ last'.states = last.states := by
  have hsound := Problem.sound_of_create hg hp
  have law : p.analysis.Lawful := (Problem.boundary_of_create hp).1 ▸ k.lawful
  -- what a completed run in any order comes to
  have key : ∀ q' h', q'.Fresh → k.analysis.runFrom g q' = .ok h' →
      ∃ e last, Engine.Growing law e ∧ e.queue.toList = [] ∧ h'.last? = some last ∧
        last.states = e.states ∧ ∀ X, p.Solution X → Engine.Dominated p X e := by
    intro q' h' hq' hrun'
    rw [Analysis.runFrom_of_create hp] at hrun'
    obtain ⟨m, e, htour, hempty, rfl⟩ := Run.toured_of_outcome hsound law hq' hrun'
    have hstart := Engine.growing_start law hq'
    have hgrow := htour.growing hsound hstart
    obtain ⟨last, hlast, -, hstates⟩ := hgrow.exists_last hempty
    exact ⟨e, last, hgrow, hempty, hlast, hstates, fun X hX =>
      htour.dominated hsound hX hstart (Engine.dominated_start hsound law hX q')⟩
  obtain ⟨e, last, hgrow, hempty, hlast, hstates, hdom⟩ := key q h hq hrun
  have hsol := hgrow.solution hempty
  refine ⟨last, hlast, hstates ▸ hsol, fun X hX b s x hb hs hx => ?_, fun q' h' hq' hrun' => ?_⟩
  · exact hdom X hX hb (hstates ▸ hs) hx
  · obtain ⟨e', last', hgrow', hempty', hlast', hstates', hdom'⟩ := key q' h' hq' hrun'
    refine ⟨last', hlast', ?_⟩
    rw [hstates, hstates']
    exact Engine.states_eq_of_settled hgrow' hgrow hempty'
      (hdom' e.states hsol) (hdom e'.states (hgrow'.solution hempty'))

/-- In the order of arrival and in a random order, the loop is left with the same states. -/
theorem final_states_least_doubling :
    ∃ h last h' last', constantFolding.analysis.run doubling ⟨.naive, none⟩ = .ok h ∧
      constantFolding.analysis.run doubling ⟨.random, some 7⟩ = .ok h' ∧
      h.last? = some last ∧ h'.last? = some last' ∧ last'.states = last.states := by
  obtain ⟨h, hrun⟩ := exists_run_doubling .constantFolding ⟨.naive, none⟩
  obtain ⟨h', hrun'⟩ := exists_run_doubling .constantFolding ⟨.random, some 7⟩
  have hfresh := Config.worklist_fresh ⟨.naive, none⟩
  obtain ⟨last, hlast, -, -, hsame⟩ :=
    final_states_least doubling_built (k := constantFolding) rfl hfresh hrun
  obtain ⟨last', hlast', hstates⟩ := hsame _ h' (Config.worklist_fresh _) hrun'
  exact ⟨h, last, h', last', hrun, hrun', hlast, hlast', hstates⟩

end AnalysisKind

end FlowHistory
