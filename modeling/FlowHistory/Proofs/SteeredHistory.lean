import FlowHistory.Proofs.Fixpoint
import FlowHistory.Proofs.LifecycleMoves

/-!
# Steered runs keep their records

However a run is paused, continued and stopped, its worker makes the elementary steps of the run that
nobody steers, one after the other and none twice. So every record that it holds is a beginning of the
record of that run, and all of it once the iteration has settled. A checkpoint lets the worker take one
step at most, which bounds what is still recorded after a pause or a stop; and the steps of a run are
bounded, so a worker that nobody holds up comes to its end.
-/
namespace FlowHistory

/-- A record that goes on from where an earlier one ends. -/
structure History.Continues {V : Type} (h' h : History V) : Prop where
  kind_eq : h'.kind = h.kind
  graph_eq : h'.graph = h.graph
  snapshots : h.snapshots.toList <+: h'.snapshots.toList
  blockStarts : h.blockStarts.toList <+: h'.blockStarts.toList

namespace History.Continues

variable {V : Type} {h h' h'' : History V}

theorem refl (h : History V) : h.Continues h := ⟨rfl, rfl, List.prefix_rfl, List.prefix_rfl⟩

theorem trans (h₂ : h''.Continues h') (h₁ : h'.Continues h) : h''.Continues h :=
  ⟨h₂.kind_eq.trans h₁.kind_eq, h₂.graph_eq.trans h₁.graph_eq, h₁.snapshots.trans h₂.snapshots,
    h₁.blockStarts.trans h₂.blockStarts⟩

end History.Continues

namespace Engine

variable {V : Type} [DecidableEq V] [LatticeValue V] {e m : Engine V} {n : Nat}

theorem continues_of_step (h : e.step = .recorded m) : m.history.Continues e.history := by
  obtain ⟨hproblem, ⟨snap, hsnap⟩, hstarts⟩ := grows_of_step h
  refine ⟨by simp only [history, hproblem], by simp only [history, hproblem], ?_, ?_⟩
  · simp only [history, hsnap, Array.toList_push]
    exact List.prefix_append _ _
  · rcases hstarts with hstarts | hstarts <;> simp only [history, hstarts, Array.toList_push]
    · exact List.prefix_rfl
    · exact List.prefix_append _ _

theorem continues_drive (e : Engine V) (n : Nat) : (e.drive n).1.history.Continues e.history := by
  induction n generalizing e with
  | zero => exact .refl _
  | succ n ih =>
    rw [drive]
    split
    · rename_i e' hstep
      exact (ih e').trans (continues_of_step hstep)
    · exact .refl _
    · exact .refl _

end Engine

namespace AnalysisKind

variable {k : AnalysisKind} {g : Flowgraph} {q : Worklist} {p : Problem k.Value} {n : Nat}
  {e : Engine k.Value}

/-- A run that nobody steers goes through every state of the iteration, with a step to spare. -/
theorem exists_drive_eq (hg : g.Built) (hp : Problem.create k.analysis g = .ok p) (hq : q.Fresh)
    (h : (Engine.start p q).Stepped n e) :
    n < k.analysis.budget g ∧
      ∃ rest, (Engine.start p q).drive (p.analysis.budget p.graph) = e.drive (rest + 1) := by
  obtain ⟨ha, hgraph, -⟩ := Problem.boundary_of_create hp
  have hmoved := h.moved (Worklist.ready_add hq.ready p.boundary)
  have hlt := hmoved.lt_budget (Problem.sound_of_create hg hp) (ha ▸ k.lawful) hq
  refine ⟨by rwa [ha, hgraph] at hlt, p.analysis.budget p.graph - n - 1, ?_⟩
  rw [← h.drive_eq]
  congr 1
  omega

theorem run_of_settled (hg : g.Built) (hp : Problem.create k.analysis g = .ok p) (hq : q.Fresh)
    (h : (Engine.start p q).Stepped n e) (hstep : e.step = .settled) :
    k.analysis.runFrom g q = .ok e.history := by
  obtain ⟨-, rest, hdrive⟩ := exists_drive_eq hg hp hq h
  rw [Analysis.runFrom_of_create hp, Run.ofQueue, hdrive, Engine.drive, hstep]
  rfl

theorem run_of_failed (hg : g.Built) (hp : Problem.create k.analysis g = .ok p) (hq : q.Fresh)
    (h : (Engine.start p q).Stepped n e) {f : Fault} (hstep : e.step = .failed f) :
    k.analysis.runFrom g q = .error f := by
  obtain ⟨-, rest, hdrive⟩ := exists_drive_eq hg hp hq h
  rw [Analysis.runFrom_of_create hp, Run.ofQueue, hdrive, Engine.drive, hstep]
  rfl

/-- A worker that has ended without being stopped has ended with what the run comes to that nobody
steers. -/
theorem run_of_finished (hg : g.Built) {s : Session k.Value} (h : Session.Reached k.analysis g q s)
    {r : Except Fault (History k.Value)} (hw : s.worker = .finished r)
    (hs : s.controller.state ≠ .stopped) : k.analysis.runFrom g q = r := by
  have hfaithful := h.faithful
  obtain ⟨ha, rfl, rfl⟩ := h.about
  simp only [Session.Faithful, hw, Session.Faulty, Session.Begun, ha] at hfaithful
  cases r with
  | ok hist =>
    obtain ⟨e, ⟨p, hp, hsteps⟩, rfl, hstep | hstopped⟩ := hfaithful
    · exact run_of_settled hg hp h.fresh hsteps hstep
    · exact absurd hstopped hs
  | error f =>
    rcases hfaithful with hunfit | ⟨n, e, ⟨p, hp, hsteps⟩, hstep⟩
    · rw [Analysis.runFrom, hunfit]
      rfl
    · exact run_of_failed hg hp h.fresh hsteps hstep

end AnalysisKind

namespace Session

section

variable {V : Type} [DecidableEq V] [LatticeValue V] {s s' : Session V} {x : Action}

/-- How many snapshots the record of the worker has. -/
def recorded (s : Session V) : Nat := (s.worker.record?.map History.size).getD 0

/-- How many steps the last checkpoint still allows. -/
def allowed (s : Session V) : Nat :=
  match s.worker with
  | .stepping _ => 1
  | _ => 0

/-- Only a calculating run is allowed another step, and only a continue makes a run calculate. -/
theorem Acted.recorded_le (hs : s.controller.state ≠ .calculating) (hact : Acted s x s')
    (hx : ¬ (x = .order .resume ∧ s.controller.state = .paused)) :
    s'.controller.state ≠ .calculating ∧ s'.recorded + s'.allowed ≤ s.recorded + s.allowed := by
  cases hact with
  | stay => exact ⟨hs, Nat.le_refl _⟩
  | obeyed ho =>
    refine ⟨?_, Nat.le_refl _⟩
    rcases Controller.obey_cases ho with rfl | ⟨-, -, rfl⟩ | ⟨rfl, ht, -⟩ | ⟨-, -, rfl⟩
    · exact hs
    · simp
    · exact absurd ⟨rfl, ht⟩ hx
    · simp
  | @admitted e hw hcheck =>
    refine absurd ?_ hs
    cases ht : s.controller.state <;> simp [Controller.checkpoint, ht] at hcheck ⊢
  | @recorded e e' hw hstep =>
    refine ⟨hs, ?_⟩
    obtain ⟨-, ⟨snap, hsnap⟩, -⟩ := Engine.grows_of_step hstep
    simp [Session.recorded, allowed, hw, Worker.record?, Engine.history, History.size, hsnap]
  | @published hist c hw hpub =>
    refine ⟨?_, by simp [Session.recorded, allowed, hw, Worker.record?]⟩
    rcases (Controller.publish_cases hpub).2 with ⟨-, hs'⟩ | ⟨-, hs'⟩ <;> simp [hs']
  | reported hw => exact ⟨by simp [Controller.fail], by simp [Session.recorded, allowed, Worker.record?]⟩
  | launched hw _ | unfit hw _ | halted hw _ | settled hw _ | faulted hw _ | counted hw
  | rejected hw _ =>
    exact ⟨hs, by simp [Session.recorded, allowed, hw, Worker.record?, Engine.history, History.size,
      Engine.start]⟩

/-- A run that does not calculate records what the last checkpoint still allows, until it goes on. -/
theorem Unresumed.recorded_actAll {more : List Action} (hmore : s.Unresumed more)
    (hs : s.controller.state ≠ .calculating) :
    (s.actAll more).recorded + (s.actAll more).allowed ≤ s.recorded + s.allowed := by
  induction more generalizing s with
  | nil => exact Nat.le_refl _
  | cons x more ih =>
    obtain ⟨hx, hmore⟩ := hmore
    obtain ⟨hs', hle⟩ := (acted_act s x).recorded_le hs hx
    exact Nat.le_trans (ih hmore hs') hle

omit [DecidableEq V] [LatticeValue V] in
theorem allowed_le_one (s : Session V) : s.allowed ≤ 1 := by
  rw [allowed]
  split <;> omega

/-- A bound on the ticks that the worker has left if nobody holds it up: three for every step of the
iteration, and one to hand over the outcome. -/
def pending (s : Session V) : Nat :=
  match s.worker with
  | .idle | .finished _ => 0
  | .checking e => 3 * (s.analysis.budget s.graph - e.snapshots.size) + 3
  | .stepping e => 3 * (s.analysis.budget s.graph - e.snapshots.size) + 2
  | .counting e => 3 * (s.analysis.budget s.graph - e.snapshots.size) + 4
  | .publishing _ | .failing _ => 1

omit [DecidableEq V] [LatticeValue V] in
theorem pending_le (s : Session V) : s.pending ≤ s.tickBudget := by
  rw [pending, tickBudget]
  split <;> omega

/-- The worker has been started, and nobody holds it up. -/
structure Unhindered (s : Session V) : Prop where
  started : s.isIdle = false
  not_paused : s.controller.state ≠ .paused
  not_stopped : s.controller.state ≠ .stopped

omit [DecidableEq V] [LatticeValue V] in
theorem unhindered_launch (hs : s.controller.state = .calculating) : Unhindered s.launch := by
  rw [launch]
  split
  · split <;> exact ⟨rfl, by simp [hs], by simp [hs]⟩
  · rename_i hidle
    refine ⟨?_, by simp [hs], by simp [hs]⟩
    rw [isIdle]
    split
    · rename_i hw
      exact absurd hw hidle
    · rfl

theorem Unhindered.tick (h : Unhindered s) : Unhindered s.tick := by
  obtain ⟨hidle, hpaused, hstopped⟩ := h
  have hact := acted_tick s
  generalize s.tick = s' at hact
  cases hact with
  | stay => exact ⟨hidle, hpaused, hstopped⟩
  | published _ hpub =>
    rcases (Controller.publish_cases hpub).2 with ⟨hs, -⟩ | ⟨-, hs'⟩
    · exact absurd hs hstopped
    · exact ⟨rfl, by simp [hs'], by simp [hs']⟩
  | reported _ => exact ⟨rfl, by simp [Controller.fail], by simp [Controller.fail]⟩
  | _ => exact ⟨rfl, hpaused, hstopped⟩

end

section

variable {k : AnalysisKind} {g : Flowgraph} {q : Worklist} {s : Session k.Value}

theorem Begun.size_lt (hg : g.Built) (h : Reached k.analysis g q s) {n : Nat} {e : Engine k.Value}
    (hbegun : s.Begun n e) : e.snapshots.size = n ∧ n < s.analysis.budget s.graph := by
  obtain ⟨p, hp, hsteps⟩ := hbegun
  obtain ⟨ha, rfl, rfl⟩ := h.about
  rw [ha] at hp ⊢
  have hsize := hsteps.size_eq
  exact ⟨by simpa [Engine.start] using hsize, (AnalysisKind.exists_drive_eq hg hp h.fresh hsteps).1⟩

/-- Every tick of a worker that nobody holds up brings it nearer to its end. -/
theorem Unhindered.pending_tick (hg : g.Built) (h : Reached k.analysis g q s) (hun : Unhindered s) :
    s.tick.pending ≤ s.pending - 1 := by
  have hfaithful := h.faithful
  cases hw : s.worker with
  | idle => simp [pending, Session.tick, hw]
  | checking e =>
    have hwait : s.controller.checkpoint ≠ .wait := by
      have := hun.not_paused
      cases hs : s.controller.state <;> simp_all [Controller.checkpoint]
    simp only [Session.tick, hw]
    split
    · simp [pending, hw]
    · rename_i hcheck
      exact absurd hcheck hwait
    · simp [pending, hw]
  | stepping e =>
    simp only [Faithful, hw] at hfaithful
    obtain ⟨hsize, hlt⟩ := hfaithful.size_lt hg h
    simp only [Session.tick, hw]
    split
    · rename_i e' hstep
      obtain ⟨-, ⟨snap, hsnap⟩, -⟩ := Engine.grows_of_step hstep
      simp only [pending, hw, hsnap, Array.size_push]
      omega
    · simp [pending, hw]
    · simp [pending, hw]
  | counting e => simp [pending, Session.tick, hw]
  | publishing hist =>
    simp only [Session.tick, hw]
    split <;> simp [pending]
  | failing f => simp [pending, Session.tick, hw]
  | finished r => simp [pending, Session.tick, hw]

theorem Unhindered.finished (hg : g.Built) (h : Reached k.analysis g q s) (hun : Unhindered s) {n : Nat}
    (hn : s.pending ≤ n) : Unhindered (s.actAll (List.replicate n .work)) ∧
      ∃ r, (s.actAll (List.replicate n .work)).worker = .finished r := by
  induction n generalizing s with
  | zero =>
    refine ⟨hun, ?_⟩
    have hidle := hun.started
    rw [isIdle] at hidle
    rw [pending] at hn
    change ∃ r, s.worker = .finished r
    cases hw : s.worker <;> simp [hw] at hidle hn ⊢
  | succ n ih =>
    have hle := hun.pending_tick hg h
    exact ih (h.act .work) hun.tick (show s.tick.pending ≤ n by omega)

/-- A run that calculates, once its worker is started and nobody holds it up, comes to what the run comes
to that nobody steers. -/
theorem result_of_calculating (hg : g.Built) (h : Reached k.analysis g q s)
    (hs : s.controller.state = .calculating) :
    (s.actAll (.launch :: List.replicate s.tickBudget .work)).controller.result = k.analysis.runFrom g q := by
  have hlaunch : Reached k.analysis g q s.launch := h.act .launch
  have hbudget : s.launch.pending ≤ s.tickBudget := by
    refine Nat.le_trans (pending_le _) (Nat.le_of_eq ?_)
    rw [tickBudget, tickBudget, hlaunch.about.1, hlaunch.about.2.1, h.about.1, h.about.2.1]
  obtain ⟨hun, r, hw⟩ := (unhindered_launch hs).finished hg hlaunch hbudget
  have hend : Reached k.analysis g q (s.launch.actAll (List.replicate s.tickBudget .work)) := by
    obtain ⟨hq, actions, hactions⟩ := hlaunch
    exact ⟨hq, actions ++ List.replicate s.tickBudget .work, by rw [actAll_append, hactions]⟩
  obtain ⟨calls, hcalled⟩ := hend.exists_called
  have hwait := hcalled.wait_eq
  rw [hw] at hwait
  rw [AnalysisKind.run_of_finished hg hend hw hun.not_stopped]
  exact Controller.result_of_wait hwait

/-- What is published is the record that the worker has ended with, as long as the counted steps. -/
theorem result_of_published (hg : g.Built) (h : Reached k.analysis g q s)
    (hs : s.controller.published ≠ .noResult) : ∃ hist, s.controller.result = .ok hist ∧
      s.worker = .finished (.ok hist) ∧ s.controller.progress = hist.size := by
  obtain ⟨calls, hcalled⟩ := h.exists_called
  have hpresent := hcalled.coherent.present_iff.2 hs
  obtain ⟨hist, hresult⟩ := Option.isSome_iff_exists.1 hpresent
  have hfault : s.controller.fault? = none := by
    simpa using fun hfault => hcalled.coherent.exclusive ⟨hpresent, hfault⟩
  have hok : s.controller.result = .ok hist := by rw [Controller.result, hfault, hresult]
  have hw := h.finished_of_result hok
  have hfaithful := h.faithful
  simp only [Faithful, hw] at hfaithful
  obtain ⟨e, hbegun, rfl, -⟩ := hfaithful
  exact ⟨_, hok, hw, (hbegun.size_lt hg h).1.symm⟩

end

end Session

namespace AnalysisKind

variable {k : AnalysisKind} {g : Flowgraph} {q : Worklist} {s : Session k.Value}

/-- However a run is steered, what its worker has recorded is a beginning of what the run records that
nobody steers. A run that is paused or stopped records at most one more snapshot until it is let go on. What
is published is the record of the worker and as long as the progress says, and a final result is that of the
run that nobody steers, which a calculating run comes to whenever it is left alone. -/
theorem steering_keeps_history (hg : g.Built) (h : Session.Reached k.analysis g q s) :
    (∀ hist, s.worker.record? = some hist → ∃ p, Problem.create k.analysis g = .ok p ∧
      (Run.ofQueue p q).engine.history.Continues hist) ∧
    (s.controller.state = .paused ∨ s.controller.state = .stopped →
      ∀ more, s.Unresumed more → (s.actAll more).recorded ≤ s.recorded + 1) ∧
    (s.controller.published ≠ .noResult → ∃ hist, s.controller.result = .ok hist ∧
      s.worker.record? = some hist ∧ s.controller.progress = hist.size) ∧
    (s.controller.published = .final → ∃ hist, s.controller.result = .ok hist ∧
      k.analysis.runFrom g q = .ok hist) ∧
    (s.controller.state = .calculating →
      (s.actAll (.launch :: List.replicate s.tickBudget .work)).controller.result =
        k.analysis.runFrom g q) := by
  obtain ⟨calls, hcalled⟩ := h.exists_called
  refine ⟨fun hist hr => ?_, fun hs more hmore => ?_, fun hs => ?_, fun hs => ?_,
    Session.result_of_calculating hg h⟩
  · obtain ⟨p, n, e, hp, hsteps, rfl⟩ := h.exists_stepped hr
    obtain ⟨-, rest, hdrive⟩ := exists_drive_eq hg hp h.fresh hsteps
    have hrun : (Run.ofQueue p q).engine = (e.drive (rest + 1)).1 := by
      rw [Run.ofQueue, hdrive]
    exact ⟨p, hp, hrun ▸ e.continues_drive (rest + 1)⟩
  · have hcalm : s.controller.state ≠ .calculating := by rcases hs with hs | hs <;> simp [hs]
    have hle := hmore.recorded_actAll hcalm
    have hone := s.allowed_le_one
    omega
  · obtain ⟨hist, hok, hw, hsize⟩ := Session.result_of_published hg h hs
    exact ⟨hist, hok, by rw [hw]; rfl, hsize⟩
  · obtain ⟨hist, hok, hw, -⟩ := Session.result_of_published hg h (by rw [hs]; decide)
    have hcompleted := hcalled.coherent.final_iff.1 hs
    exact ⟨hist, hok, run_of_finished hg h hw (by rw [hcompleted]; decide)⟩

/-- Constants in the loop, with the run steered by the given actions. -/
def steered (actions : List Session.Action) : Session constantFolding.Value :=
  (Session.create constantFolding.analysis doubling ⟨.naive, none⟩).actAll actions

/-- Paused in the middle of its first step, the run records that step and waits. Stopped there, it publishes
the record of that step, with which the record of the whole run begins; left alone, it comes to the end. -/
theorem steering_keeps_history_doubling :
    (∀ more, (steered [.launch, .work, .order .pause]).Unresumed more →
      ((steered [.launch, .work, .order .pause]).actAll more).recorded ≤ 1) ∧
    (∃ hist p, (steered [.launch, .work, .order .stop, .work, .work, .work, .work]).controller.result =
        .ok hist ∧ hist.size = 1 ∧ Problem.create constantFolding.analysis doubling = .ok p ∧
      (Run.ofProblem p ⟨.naive, none⟩).engine.history.Continues hist) ∧
    ∃ more hist, (steered more).controller.result = .ok hist ∧
      constantFolding.analysis.run doubling ⟨.naive, none⟩ = .ok hist := by
  have hreached : ∀ actions, Session.Reached constantFolding.analysis doubling (.naive [])
      (steered actions) := fun actions => ⟨.naive, actions, rfl⟩
  refine ⟨?_, ?_, ?_⟩
  · obtain ⟨-, hpaused, -⟩ :=
      steering_keeps_history doubling_built (hreached [.launch, .work, .order .pause])
    exact hpaused (.inl rfl)
  · obtain ⟨hrecord, -, hpublished, -⟩ := steering_keeps_history doubling_built
      (hreached [.launch, .work, .order .stop, .work, .work, .work, .work])
    obtain ⟨hist, hresult, hr, hsize⟩ := hpublished (by decide)
    obtain ⟨p, hp, hcontinues⟩ := hrecord hist hr
    exact ⟨hist, p, hresult, hsize.symm, hp, hcontinues⟩
  · obtain ⟨-, -, -, -, halone⟩ := steering_keeps_history doubling_built (hreached [])
    obtain ⟨hist, hrun⟩ := exists_run_doubling .constantFolding ⟨.naive, none⟩
    exact ⟨_, hist, (halone rfl).trans hrun, hrun⟩

end AnalysisKind

end FlowHistory
