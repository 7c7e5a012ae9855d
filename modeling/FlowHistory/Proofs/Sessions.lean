import FlowHistory.Proofs.ControllerCalls
import FlowHistory.Proofs.ElementaryStep
import FlowHistory.Session.Worker

/-!
# Sessions

A session is a worker and clients who act on one controller in turn, in any order. What one action can do
is said once, and two facts about all interleavings are drawn from it. To its controller, the worker is one
that hands over its outcome once and last. And the record that the worker holds is that of an iteration
which has made some number of elementary steps, whatever the commands in between.
-/
namespace FlowHistory

/-- What the worker has ended with. -/
def Worker.outcome? {V : Type} : Worker V → Option (Except Fault (History V))
  | .finished r => some r
  | _ => none

/-- The record that the worker holds. There is none before the start, and a fault drops it. -/
def Worker.record? {V : Type} : Worker V → Option (History V)
  | .checking e | .stepping e | .counting e => some e.history
  | .publishing h | .finished (.ok h) => some h
  | .idle | .failing _ | .finished (.error _) => none

namespace Session

variable {V : Type} [DecidableEq V] [LatticeValue V]

/-- What one action can do. -/
inductive Acted (s : Session V) : Action → Session V → Prop
  | stay {x : Action} : Acted s x s
  | obeyed {o : Command} {c : Controller (History V)} : s.controller.obey o = .ok c →
    Acted s (.order o) { s with controller := c }
  | launched {p : Problem V} : s.worker = .idle → Problem.create s.analysis s.graph = .ok p →
    Acted s .launch { s with worker := .checking (.start p s.queue) }
  | unfit {f : Fault} : s.worker = .idle → Problem.create s.analysis s.graph = .error f →
    Acted s .launch { s with worker := .failing f }
  | admitted {e : Engine V} : s.worker = .checking e → s.controller.checkpoint = .proceed →
    Acted s .work { s with worker := .stepping e }
  | halted {e : Engine V} : s.worker = .checking e → s.controller.checkpoint = .halt →
    Acted s .work { s with worker := .publishing e.history }
  | recorded {e e' : Engine V} : s.worker = .stepping e → e.step = .recorded e' →
    Acted s .work { s with worker := .counting e' }
  | settled {e : Engine V} : s.worker = .stepping e → e.step = .settled →
    Acted s .work { s with worker := .publishing e.history }
  | faulted {e : Engine V} {f : Fault} : s.worker = .stepping e → e.step = .failed f →
    Acted s .work { s with worker := .failing f }
  | counted {e : Engine V} : s.worker = .counting e →
    Acted s .work { s with controller := s.controller.advance, worker := .checking e }
  | published {h : History V} {c : Controller (History V)} : s.worker = .publishing h →
    s.controller.publish h = .ok c →
    Acted s .work { s with controller := c, worker := .finished (.ok h) }
  | rejected {h : History V} {f : Fault} : s.worker = .publishing h →
    s.controller.publish h = .error f → Acted s .work { s with worker := .finished (.error f) }
  | reported {f : Fault} : s.worker = .failing f →
    Acted s .work { s with controller := s.controller.fail f, worker := .finished (.error f) }

theorem acted_tick (s : Session V) : Acted s .work s.tick := by
  rw [tick]
  split
  · exact .stay
  · exact .stay
  · rename_i e he
    split
    · rename_i hcheck
      exact .admitted he hcheck
    · exact .stay
    · rename_i hcheck
      exact .halted he hcheck
  · rename_i e he
    split
    · rename_i e' hstep
      exact .recorded he hstep
    · rename_i hstep
      exact .settled he hstep
    · rename_i f hstep
      exact .faulted he hstep
  · rename_i e he
    exact .counted he
  · rename_i h hh
    split
    · rename_i c hpub
      exact .published hh hpub
    · rename_i f hpub
      exact .rejected hh hpub
  · rename_i f hf
    exact .reported hf

theorem acted_act (s : Session V) (x : Action) : Acted s x (s.act x) := by
  cases x with
  | launch =>
    change Acted s .launch s.launch
    rw [launch]
    split
    · rename_i hidle
      split
      · rename_i p hp
        exact .launched hidle hp
      · rename_i f hf
        exact .unfit hidle hf
    · exact .stay
  | work => exact acted_tick s
  | order o =>
    simp only [act, command]
    cases ho : s.controller.obey o with
    | ok c => exact .obeyed ho
    | error f => exact .stay

theorem actAll_append (s : Session V) (xs ys : List Action) :
    s.actAll (xs ++ ys) = (s.actAll xs).actAll ys :=
  List.foldl_append

/-- What holds at first and is kept by every action holds after all interleavings. -/
theorem actAll_induction {P : Session V → Prop} {s : Session V} (hs : P s)
    (hact : ∀ s x s', P s → Acted s x s' → P s') (actions : List Action) : P (s.actAll actions) := by
  induction actions generalizing s with
  | nil => exact hs
  | cons x actions ih => exact ih (hact s x _ hs (acted_act s x))

/-- What a session is about does not change. -/
theorem actAll_eq (s : Session V) (actions : List Action) :
    (s.actAll actions).analysis = s.analysis ∧ (s.actAll actions).graph = s.graph ∧
      (s.actAll actions).queue = s.queue := by
  refine actAll_induction (P := fun t => t.analysis = s.analysis ∧ t.graph = s.graph ∧ t.queue = s.queue)
    ⟨rfl, rfl, rfl⟩ (fun t x t' ht hact => ?_) actions
  cases hact <;> exact ht

section

open Controller

/-- The calls of clients and worker that have brought the controller to where it is, with what the worker
has ended with as the outcome. -/
structure Called (s : Session V) (calls : List (Call (History V))) : Prop where
  orderly : Orderly calls
  controller_eq : s.controller = start.afterAll calls
  handed_iff {r : Except Fault (History V)} : HandedOver calls r ↔ s.worker.outcome? = some r

variable {s s' : Session V} {calls : List (Call (History V))}

omit [DecidableEq V] [LatticeValue V]

theorem Called.not_isOutcome (h : Called s calls) (hs : s.worker.outcome? = none) :
    ∀ y ∈ calls, y.isOutcome = false := by
  intro y hy
  cases y with
  | publish a =>
    have hr := h.handed_iff.1 (.inl ⟨a, rfl, hy⟩)
    rw [hs] at hr
    cases hr
  | fail f =>
    have hr := h.handed_iff.1 (.inr ⟨f, rfl, hy⟩)
    rw [hs] at hr
    cases hr
  | _ => rfl

theorem Called.coherent (h : Called s calls) : s.controller.Coherent :=
  h.controller_eq ▸ (brought_afterAll h.orderly).coherent

/-- A client that waits is given what the worker has ended with. -/
theorem Called.wait_eq (h : Called s calls) : s.controller.wait = s.worker.outcome? := by
  refine Option.ext fun r => ?_
  rw [h.controller_eq, (brought_afterAll h.orderly).wait_eq_some_iff, h.handed_iff]

theorem Called.undecided (h : Called s calls) (hs : s.worker.outcome? = none) :
    s.controller.Undecided :=
  h.controller_eq ▸ (brought_afterAll h.orderly).undecided (h.not_isOutcome hs)

/-- One more call, of the worker only as long as it has not ended. -/
theorem Called.call (h : Called s calls) {x : Call (History V)}
    (hx : x.byWorker = true → s.worker.outcome? = none) (hc : s'.controller = s.controller.after x)
    (hout : ∀ r, s'.worker.outcome? = some r ↔ s.worker.outcome? = some r ∨ HandedOver [x] r) :
    Called s' (calls ++ [x]) := by
  refine ⟨orderly_append_singleton.2 ⟨h.orderly, fun hw => h.not_isOutcome (hx hw)⟩, ?_, fun {r} => ?_⟩
  · rw [hc, h.controller_eq, afterAll, afterAll, List.foldl_append]
    rfl
  · rw [hout, ← h.handed_iff, handedOver_append]

theorem Called.same (h : Called s calls) (hc : s'.controller = s.controller)
    (hout : s'.worker.outcome? = s.worker.outcome?) : Called s' calls :=
  ⟨h.orderly, hc.trans h.controller_eq, fun {r} => by rw [hout]; exact h.handed_iff⟩

end

/-- The worker of a session hands over its outcome once and last. -/
theorem Called.acted {s s' : Session V} {x : Action} {calls : List (Controller.Call (History V))}
    (h : Called s calls) (hact : Acted s x s') : ∃ calls', Called s' calls' := by
  have hnone : ∀ {w : Worker V}, s.worker = w → w.outcome? = none → s.worker.outcome? = none := by
    rintro w rfl hw
    exact hw
  cases hact with
  | stay => exact ⟨calls, h⟩
  | @obeyed o c ho =>
    refine ⟨_, h.call (x := .order o) (fun hw => by cases hw) ?_ fun r => ?_⟩
    · exact (Controller.after_order ho).symm
    · simp [Controller.HandedOver]
  | launched hw _ | unfit hw _ | admitted hw _ | halted hw _ | recorded hw _ | settled hw _
  | faulted hw _ => exact ⟨calls, h.same rfl (hnone hw rfl).symm⟩
  | counted hw =>
    have hs := hnone hw rfl
    refine ⟨_, h.call (x := .advance) (fun _ => hs) rfl fun r => ?_⟩
    simp [Controller.HandedOver, hw, Worker.outcome?]
  | @published hist c hw hpub =>
    have hs := hnone hw rfl
    refine ⟨_, h.call (x := .publish hist) (fun _ => hs) (Controller.after_publish hpub).symm
      fun r => ?_⟩
    simp [Controller.HandedOver, hw, Worker.outcome?, eq_comm]
  | @rejected hist f hw hpub =>
    obtain ⟨c, hok, -⟩ := (h.undecided (hnone hw rfl)).publish hist
    rw [hok] at hpub
    cases hpub
  | @reported f hw =>
    have hs := hnone hw rfl
    refine ⟨_, h.call (x := .fail f) (fun _ => hs) rfl fun r => ?_⟩
    simp [Controller.HandedOver, hw, Worker.outcome?, eq_comm]

theorem exists_called (a : Analysis V) (g : Flowgraph) (q : Worklist) (actions : List Action) :
    ∃ calls, Called ((ofQueue a g q).actAll actions) calls := by
  refine actAll_induction (P := fun s => ∃ calls, Called s calls) ⟨[], ?_⟩ ?_ actions
  · refine ⟨.nil, rfl, fun {r} => ?_⟩
    simp [Controller.HandedOver, ofQueue, Worker.outcome?]
  · rintro s x s' ⟨calls, h⟩ hact
    exact h.acted hact

/-- What every action keeps of a session that interleavings lead to holds from then on. -/
theorem Called.actAll_induction {P : Session V → Prop} {s : Session V}
    {calls : List (Controller.Call (History V))} (h : Called s calls) (hs : P s)
    (hact : ∀ t x t' calls, Called t calls → P t → Acted t x t' → P t') (more : List Action) :
    P (s.actAll more) := by
  induction more generalizing s calls with
  | nil => exact hs
  | cons x more ih =>
    obtain ⟨calls', h'⟩ := h.acted (acted_act s x)
    exact ih h' (hact s x _ calls h hs (acted_act s x))

/-- The iteration that the session is about has come to `e` in `n` elementary steps. -/
def Begun (s : Session V) (n : Nat) (e : Engine V) : Prop :=
  ∃ p, Problem.create s.analysis s.graph = .ok p ∧ (Engine.start p s.queue).Stepped n e

/-- The run cannot be prepared, or its iteration comes to a step that fails. -/
def Faulty (s : Session V) (f : Fault) : Prop :=
  Problem.create s.analysis s.graph = .error f ∨ ∃ n e, s.Begun n e ∧ e.step = .failed f

/-- The worker holds the record of as many steps as are counted, of one more before it counts it. Its last
record is that of an iteration that has settled, or of one that was stopped, and its fault is that of the
iteration. -/
def Faithful (s : Session V) : Prop :=
  match s.worker with
  | .idle => s.controller.progress = 0
  | .checking e | .stepping e => s.Begun s.controller.progress e
  | .counting e => s.Begun (s.controller.progress + 1) e
  | .publishing h | .finished (.ok h) => ∃ e, s.Begun s.controller.progress e ∧ h = e.history ∧
    (e.step = .settled ∨ s.controller.state = .stopped)
  | .failing f | .finished (.error f) => s.Faulty f

section

variable {s s' : Session V} {x : Action}

/-- A command counts no step and does not undo a stop. -/
theorem Faithful.obey {c : Controller (History V)} {o : Command} (h : Faithful s)
    (ho : s.controller.obey o = .ok c) : Faithful { s with controller := c } := by
  have hprogress := (Controller.obey_outcome ho).2.2
  have hstopped : s.controller.state = .stopped → c.state = .stopped := by
    intro hs
    rcases Controller.obey_cases ho with rfl | ⟨-, ht, -⟩ | ⟨-, ht, -⟩ | ⟨-, ht | ht, -⟩
    · exact hs
    all_goals
      rw [hs] at ht
      cases ht
  have hended : ∀ {hist : History V}, (∃ e, s.Begun s.controller.progress e ∧ hist = e.history ∧
      (e.step = .settled ∨ s.controller.state = .stopped)) →
      ∃ e, s.Begun c.progress e ∧ hist = e.history ∧ (e.step = .settled ∨ c.state = .stopped) := by
    rintro hist ⟨e, hbegun, hhist, hend⟩
    exact ⟨e, hprogress ▸ hbegun, hhist, hend.imp_right hstopped⟩
  simp only [Faithful] at h ⊢
  cases hw : s.worker with
  | idle => simpa [hw, hprogress] using h
  | checking e | stepping e | counting e =>
    rw [hw] at h
    rw [hprogress]
    exact h
  | publishing hist =>
    rw [hw] at h
    exact hended h
  | failing f =>
    rw [hw] at h
    exact h
  | finished r =>
    rw [hw] at h
    cases r with
    | ok hist => exact hended h
    | error f => exact h

theorem Faithful.acted {calls : List (Controller.Call (History V))} (hcalled : Called s calls)
    (h : Faithful s) (hact : Acted s x s') : Faithful s' := by
  cases hact with
  | stay => exact h
  | obeyed ho => exact h.obey ho
  | @launched p hw hp =>
    simp only [Faithful, hw] at h ⊢
    rw [h]
    exact ⟨p, hp, .refl⟩
  | unfit _ hf => exact .inl hf
  | admitted hw _ =>
    simp only [Faithful, hw] at h ⊢
    exact h
  | @halted e hw hcheck =>
    simp only [Faithful, hw] at h ⊢
    refine ⟨e, h, rfl, .inr ?_⟩
    have hnone := hcalled.undecided (by rw [hw]; rfl)
    rcases (hcalled.coherent.state_of_undecided hnone).2 with hs | hs | hs
    · simp [Controller.checkpoint, hs] at hcheck
    · simp [Controller.checkpoint, hs] at hcheck
    · exact hs
  | @recorded e e' hw hstep =>
    simp only [Faithful, hw] at h ⊢
    obtain ⟨p, hp, hsteps⟩ := h
    exact ⟨p, hp, hsteps.tail hstep⟩
  | @settled e hw hstep =>
    simp only [Faithful, hw] at h ⊢
    exact ⟨e, h, rfl, .inl hstep⟩
  | @faulted e f hw hstep =>
    simp only [Faithful, hw] at h ⊢
    exact .inr ⟨_, e, h, hstep⟩
  | counted hw =>
    simp only [Faithful, hw] at h ⊢
    exact h
  | @published hist c hw hpub =>
    simp only [Faithful, hw] at h ⊢
    obtain ⟨e, hbegun, hhist, hend⟩ := h
    obtain ⟨hprogress, hstate⟩ := Controller.publish_cases hpub
    refine ⟨e, hprogress ▸ hbegun, hhist, hend.imp_right fun hs => ?_⟩
    rcases hstate with ⟨-, hs'⟩ | ⟨hne, -⟩
    · exact hs'
    · exact absurd hs hne
  | @rejected hist f hw hpub =>
    obtain ⟨c, hok, -⟩ := (hcalled.undecided (by rw [hw]; rfl)).publish hist
    rw [hok] at hpub
    cases hpub
  | reported hw =>
    simp only [Faithful, hw] at h ⊢
    exact h

theorem Faithful.exists_begun (h : Faithful s) {hist : History V} (hr : s.worker.record? = some hist) :
    ∃ n e, s.Begun n e ∧ hist = e.history := by
  rw [Faithful] at h
  revert h hr
  cases s.worker with
  | idle | failing f => exact fun _ hr => by cases hr
  | checking e | stepping e | counting e =>
    intro hbegun hr
    cases hr
    exact ⟨_, e, hbegun, rfl⟩
  | publishing h =>
    rintro ⟨e, hbegun, rfl, -⟩ hr
    cases hr
    exact ⟨_, e, hbegun, rfl⟩
  | finished r =>
    cases r with
    | error f => exact fun _ hr => by cases hr
    | ok h =>
      rintro ⟨e, hbegun, rfl, -⟩ hr
      cases hr
      exact ⟨_, e, hbegun, rfl⟩

end

theorem faithful_actAll (a : Analysis V) (g : Flowgraph) (q : Worklist) (actions : List Action) :
    Faithful ((ofQueue a g q).actAll actions) := by
  obtain ⟨calls, hcalled⟩ := exists_called a g q []
  refine hcalled.actAll_induction (P := Faithful) rfl ?_ actions
  intro t x t' calls hcalled h hact
  exact h.acted hcalled hact

/-- Some interleaving of what the worker does and of commands leads to `s`, with the visits in the order of a
list `q` that is empty at first. -/
def Reached (a : Analysis V) (g : Flowgraph) (q : Worklist) (s : Session V) : Prop :=
  q.Fresh ∧ ∃ actions, (ofQueue a g q).actAll actions = s

namespace Reached

variable {a : Analysis V} {g : Flowgraph} {q : Worklist} {s : Session V}

theorem fresh (h : Reached a g q s) : q.Fresh := h.1

theorem exists_called (h : Reached a g q s) : ∃ calls, Called s calls := by
  obtain ⟨-, actions, rfl⟩ := h
  exact Session.exists_called a g q actions

theorem faithful (h : Reached a g q s) : Faithful s := by
  obtain ⟨-, actions, rfl⟩ := h
  exact faithful_actAll a g q actions

theorem about (h : Reached a g q s) : s.analysis = a ∧ s.graph = g ∧ s.queue = q := by
  obtain ⟨-, actions, rfl⟩ := h
  exact actAll_eq (ofQueue a g q) actions

theorem act (h : Reached a g q s) (x : Action) : Reached a g q (s.act x) := by
  obtain ⟨hq, actions, rfl⟩ := h
  exact ⟨hq, actions ++ [x], actAll_append _ _ _⟩

/-- The record of the worker is that of an iteration that has made some number of steps. -/
theorem exists_stepped (h : Reached a g q s) {hist : History V} (hr : s.worker.record? = some hist) :
    ∃ p n e, Problem.create a g = .ok p ∧ (Engine.start p q).Stepped n e ∧
      hist = e.history := by
  obtain ⟨n, e, ⟨p, hp, hsteps⟩, hhist⟩ := h.faithful.exists_begun hr
  obtain ⟨rfl, rfl, rfl⟩ := h.about
  exact ⟨p, n, e, hp, hsteps, hhist⟩

/-- What a client is given as the result is what the worker has ended with. -/
theorem finished_of_result (h : Reached a g q s) {hist : History V} (hr : s.controller.result = .ok hist) :
    s.worker = .finished (.ok hist) := by
  obtain ⟨calls, hcalled⟩ := h.exists_called
  have hwait := Controller.wait_eq_some_result (c := s.controller) (by rw [hr]; exact fun h => by cases h)
  rw [hr, hcalled.wait_eq] at hwait
  cases hw : s.worker with
  | finished r =>
    rw [hw] at hwait
    cases hwait
    rfl
  | _ =>
    rw [hw] at hwait
    cases hwait

/-- Whatever a session holds or hands out is the record of its worker. -/
theorem record_of_held (h : Reached a g q s) {hist : History V}
    (hr : s.worker.record? = some hist ∨ s.controller.result = .ok hist) :
    s.worker.record? = some hist := by
  rcases hr with hr | hr
  · exact hr
  · rw [h.finished_of_result hr]
    rfl

end Reached

end Session

end FlowHistory
