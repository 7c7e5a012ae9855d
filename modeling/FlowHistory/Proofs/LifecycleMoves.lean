import FlowHistory.Proofs.Refusals
import FlowHistory.Proofs.Sessions

/-!
# How the lifecycle of a run moves

The worker looks at the state of its run at a checkpoint before each step, but not where it publishes or
reports a fault. So a command that comes after the last checkpoint is overrun: a paused run still completes
or fails, and a stopped one still fails. Apart from that the lifecycle keeps to its arrows, and whether a
run is past its last checkpoint decides whether it can leave them.
-/
namespace FlowHistory

namespace Lifecycle

/-- The changes that a run is meant to go through. -/
def arrows : List (Lifecycle × Lifecycle) :=
  [(.calculating, .paused), (.paused, .calculating), (.calculating, .completed), (.calculating, .failed),
    (.calculating, .stopped), (.paused, .stopped)]

/-- The changes by which a command is overrun. -/
def strays : List (Lifecycle × Lifecycle) :=
  [(.paused, .completed), (.paused, .failed), (.stopped, .failed)]

end Lifecycle

namespace Session

variable {V : Type} [DecidableEq V] [LatticeValue V]

/-- Without another checkpoint, the worker reports a fault. -/
def Failing (s : Session V) : Prop :=
  match s.worker with
  | .idle => ∃ f, Problem.create s.analysis s.graph = .error f
  | .stepping e => ∃ f, e.step = .failed f
  | .failing _ => True
  | _ => False

/-- Without another checkpoint, the worker publishes its record. -/
def Settling (s : Session V) : Prop :=
  match s.worker with
  | .stepping e => e.step = .settled
  | .publishing _ => True
  | _ => False

/-- No command of the list lets a paused run go on. -/
def Unresumed : Session V → List Action → Prop
  | _, [] => True
  | s, x :: more => ¬ (x = .order .resume ∧ s.controller.state = .paused) ∧ Unresumed (s.act x) more

variable {s s' : Session V} {x : Action} {calls : List (Controller.Call (History V))}

omit [DecidableEq V] [LatticeValue V] in
theorem Called.state_of_working (h : Called s calls) (hs : s.worker.outcome? = none) :
    s.controller.state = .calculating ∨ s.controller.state = .paused ∨ s.controller.state = .stopped :=
  (h.coherent.state_of_undecided (h.undecided hs)).2

/-- What one action can do to the state of a run. -/
theorem Called.change (h : Called s calls) (hact : Acted s x s') :
    s'.controller.state = s.controller.state ∨
      (s.controller.state, s'.controller.state) ∈ Lifecycle.arrows ∨
      (x = .work ∧ (s.Failing ∨ s.Settling) ∧
        (s.controller.state, s'.controller.state) ∈ Lifecycle.strays) := by
  cases hact with
  | obeyed ho =>
    rcases Controller.obey_cases ho with rfl | ⟨-, hs, rfl⟩ | ⟨-, hs, rfl⟩ | ⟨-, hs | hs, rfl⟩
    · exact .inl rfl
    all_goals exact .inr (.inl (by simp [hs, Lifecycle.arrows]))
  | @published hist c hw hpub =>
    have hsettling : s.Settling := by simp [Settling, hw]
    rcases (Controller.publish_cases hpub).2 with ⟨hs, hs'⟩ | ⟨hne, hs'⟩
    · exact .inl (hs'.trans hs.symm)
    · rcases h.state_of_working (by rw [hw]; rfl) with hs | hs | hs
      · exact .inr (.inl (by simp [hs, hs', Lifecycle.arrows]))
      · exact .inr (.inr ⟨rfl, .inr hsettling, by simp [hs, hs', Lifecycle.strays]⟩)
      · exact absurd hs hne
  | @reported f hw =>
    have hfailing : s.Failing := by simp [Failing, hw]
    rcases h.state_of_working (by rw [hw]; rfl) with hs | hs | hs
    · exact .inr (.inl (by simp [hs, Controller.fail, Lifecycle.arrows]))
    all_goals
      exact .inr (.inr ⟨rfl, .inl hfailing, by simp [hs, Controller.fail, Lifecycle.strays]⟩)
  | _ => exact .inl rfl

/-- A run that has completed or failed stays so. -/
theorem Called.stays_over (h : Called s calls)
    (hs : s.controller.state = .completed ∨ s.controller.state = .failed) (hact : Acted s x s') :
    s'.controller.state = s.controller.state := by
  rcases h.change hact with heq | harrow | ⟨-, -, hstray⟩
  · exact heq
  · rcases hs with hs | hs <;> simp [hs, Lifecycle.arrows] at harrow
  · rcases hs with hs | hs <;> simp [hs, Lifecycle.strays] at hstray

/-- A stopped run whose worker does not fail stays stopped, and its worker does not come to fail. -/
theorem Called.stays_stopped (h : Called s calls) (hs : s.controller.state = .stopped)
    (hnot : ¬ s.Failing) (hact : Acted s x s') :
    s'.controller.state = .stopped ∧ ¬ s'.Failing := by
  constructor
  · rcases h.change hact with heq | harrow | ⟨rfl, -, -⟩
    · exact heq.trans hs
    · simp [hs, Lifecycle.arrows] at harrow
    · cases hact with
      | published _ hpub =>
        rcases (Controller.publish_cases hpub).2 with ⟨-, hs'⟩ | ⟨hne, -⟩
        · exact hs'
        · exact absurd hs hne
      | reported hw => exact absurd (by simp [Failing, hw]) hnot
      | _ => exact hs
  · cases hact with
    | stay => exact hnot
    | obeyed _ => exact hnot
    | unfit hw hf => exact absurd (by simp [Failing, hw, hf]) hnot
    | admitted _ hcheck => simp [Controller.checkpoint, hs] at hcheck
    | faulted hw hstep => exact absurd (by simp [Failing, hw, hstep]) hnot
    | _ => exact not_false

/-- A paused run whose worker has another checkpoint ahead stays paused until it is stopped or let go on,
and comes to no end by itself. -/
theorem Acted.stays_paused (hs : s.controller.state = .paused)
    (hfailing : ¬ s.Failing) (hsettling : ¬ s.Settling) (hact : Acted s x s')
    (hx : x ≠ .order .resume) :
    (s'.controller.state = .paused ∧ ¬ s'.Settling ∨ s'.controller.state = .stopped) ∧
      ¬ s'.Failing := by
  cases hact with
  | stay => exact ⟨.inl ⟨hs, hsettling⟩, hfailing⟩
  | obeyed ho =>
    refine ⟨?_, hfailing⟩
    rcases Controller.obey_cases ho with rfl | ⟨-, ht, -⟩ | ⟨rfl, -, -⟩ | ⟨-, -, rfl⟩
    · exact .inl ⟨hs, hsettling⟩
    · rw [hs] at ht
      cases ht
    · exact absurd rfl hx
    · exact .inr rfl
  | launched _ _ | recorded _ _ | counted _ => exact ⟨.inl ⟨hs, not_false⟩, not_false⟩
  | unfit hw hf => exact absurd (by simp [Failing, hw, hf]) hfailing
  | admitted _ hcheck | halted _ hcheck => simp [Controller.checkpoint, hs] at hcheck
  | settled hw hstep => exact absurd (by simp [Settling, hw, hstep]) hsettling
  | faulted hw hstep => exact absurd (by simp [Failing, hw, hstep]) hfailing
  | published hw _ | rejected hw _ => exact absurd (by simp [Settling, hw]) hsettling
  | reported hw => exact absurd (by simp [Failing, hw]) hfailing

theorem Called.stopped_actAll (h : Called s calls) (hs : s.controller.state = .stopped)
    (hnot : ¬ s.Failing) (more : List Action) : (s.actAll more).controller.state = .stopped := by
  refine (h.actAll_induction (P := fun t => t.controller.state = .stopped ∧ ¬ t.Failing) ⟨hs, hnot⟩
    ?_ more).1
  rintro t x t' calls ht ⟨hs, hnot⟩ hact
  exact ht.stays_stopped hs hnot hact

theorem Called.over_actAll (h : Called s calls)
    (hs : s.controller.state = .completed ∨ s.controller.state = .failed) (more : List Action) :
    (s.actAll more).controller.state = s.controller.state := by
  refine h.actAll_induction (P := fun t => t.controller.state = s.controller.state) rfl ?_ more
  intro t x t' calls ht heq hact
  exact (ht.stays_over (heq ▸ hs) hact).trans heq

theorem Called.paused_actAll (h : Called s calls) (hs : s.controller.state = .paused)
    (hfailing : ¬ s.Failing) (hsettling : ¬ s.Settling) {more : List Action} (hmore : s.Unresumed more) :
    (s.actAll more).controller.state = .paused ∨ (s.actAll more).controller.state = .stopped := by
  induction more generalizing s calls with
  | nil => exact .inl hs
  | cons x more ih =>
    obtain ⟨hx, hmore⟩ := hmore
    obtain ⟨calls', h'⟩ := h.acted (acted_act s x)
    obtain ⟨⟨hs', hsettling'⟩ | hs', hfailing'⟩ :=
      (acted_act s x).stays_paused hs hfailing hsettling fun hresume => hx ⟨hresume, hs⟩
    · exact ih h' hs' hfailing' hsettling' hmore
    · exact .inr (h'.stopped_actAll hs' hfailing' more)

/-- Left to itself, a worker that fails without another checkpoint does so in whatever state. -/
theorem Failing.state_eq (h : s.Failing) :
    (s.actAll [.launch, .work, .work]).controller.state = .failed := by
  simp only [actAll, List.foldl_cons, List.foldl_nil, act]
  cases hw : s.worker with
  | idle =>
    simp only [Failing, hw] at h
    obtain ⟨f, hf⟩ := h
    simp [launch, hw, hf, tick, Controller.fail]
  | stepping e =>
    simp only [Failing, hw] at h
    obtain ⟨f, hf⟩ := h
    simp [launch, hw, hf, tick, Controller.fail]
  | failing f => simp [launch, hw, tick, Controller.fail]
  | _ =>
    simp only [Failing, hw] at h

/-- Left to itself, a worker that publishes without another checkpoint completes a run that is not
stopped. -/
theorem Called.state_of_settling (h : Called s calls) (hset : s.Settling)
    (hs : s.controller.state ≠ .stopped) :
    (s.actAll [.launch, .work, .work]).controller.state = .completed := by
  simp only [actAll, List.foldl_cons, List.foldl_nil, act]
  cases hw : s.worker with
  | stepping e =>
    simp only [Settling, hw] at hset
    obtain ⟨c, hok, -⟩ := (h.undecided (by rw [hw]; rfl)).publish e.history
    rcases (Controller.publish_cases hok).2 with ⟨hstopped, -⟩ | ⟨-, hs'⟩
    · exact absurd hstopped hs
    · simp [launch, hw, hset, tick, hok, hs']
  | publishing hist =>
    obtain ⟨c, hok, -⟩ := (h.undecided (by rw [hw]; rfl)).publish hist
    rcases (Controller.publish_cases hok).2 with ⟨hstopped, -⟩ | ⟨-, hs'⟩
    · exact absurd hstopped hs
    · simp [launch, hw, tick, hok, hs']
  | _ => simp only [Settling, hw] at hset

theorem unresumed_of_no_order {more : List Action} (h : Action.order .resume ∉ more) (s : Session V) :
    s.Unresumed more := by
  induction more generalizing s with
  | nil => trivial
  | cons x more ih =>
    rw [List.mem_cons, not_or] at h
    exact ⟨fun hx => h.1 hx.1.symm, ih h.2 _⟩

/-- Every change of the state of a run is along an arrow, unless the worker publishes or reports a fault
without another checkpoint and so overruns a command. A run that has completed or failed stays so. A paused
run can complete or fail without being let go on exactly if there is no checkpoint ahead of its worker, and
a stopped one can leave its state exactly if its worker fails without another checkpoint. -/
theorem lifecycle_moves {a : Analysis V} {g : Flowgraph} {q : Worklist} (h : Reached a g q s) :
    (∀ x, (s.act x).controller.state = s.controller.state ∨
      (s.controller.state, (s.act x).controller.state) ∈ Lifecycle.arrows ∨
      (x = .work ∧ (s.Failing ∨ s.Settling) ∧
        (s.controller.state, (s.act x).controller.state) ∈ Lifecycle.strays)) ∧
    (s.controller.state = .completed ∨ s.controller.state = .failed →
      ∀ more, (s.actAll more).controller.state = s.controller.state) ∧
    (s.controller.state = .paused →
      ((∃ more, s.Unresumed more ∧ ((s.actAll more).controller.state = .completed ∨
        (s.actAll more).controller.state = .failed)) ↔ s.Failing ∨ s.Settling)) ∧
    (s.controller.state = .stopped →
      ((∃ more, (s.actAll more).controller.state ≠ .stopped) ↔ s.Failing)) := by
  obtain ⟨calls, hcalled⟩ := h.exists_called
  have hquiet : s.Unresumed [.launch, .work, .work] := unresumed_of_no_order (by decide) s
  refine ⟨fun x => hcalled.change (acted_act s x), hcalled.over_actAll, fun hs => ⟨?_, ?_⟩,
    fun hs => ⟨?_, fun hfailing => ⟨_, by rw [hfailing.state_eq]; decide⟩⟩⟩
  · rintro ⟨more, hmore, hover⟩
    by_contra hnot
    obtain ⟨hfailing, hsettling⟩ := not_or.1 hnot
    rcases hcalled.paused_actAll hs hfailing hsettling hmore with hend | hend <;> simp [hend] at hover
  · rintro (hfailing | hsettling)
    · exact ⟨_, hquiet, .inr hfailing.state_eq⟩
    · exact ⟨_, hquiet, .inl (hcalled.state_of_settling hsettling (by rw [hs]; decide))⟩
  · rintro ⟨more, hne⟩
    by_contra hnot
    exact hne (hcalled.stopped_actAll hs hnot more)

/-- The liveness of locals in a program of two steps, steered by the given actions. -/
def sheltered (actions : List Action) : Session LiveValue :=
  (create LiveVariables.analysis AnalysisKind.sheltering ⟨.naive, none⟩).actAll actions

/-- Paused before its first step, the run waits for a continue. Paused when it has taken its steps and
passed the checkpoint after them, it completes. -/
theorem lifecycle_moves_sheltered :
    (∀ more, (sheltered [.launch, .order .pause]).Unresumed more →
      ((sheltered [.launch, .order .pause]).actAll more).controller.state ≠ .completed) ∧
    ∃ more, (sheltered (.launch :: List.replicate 7 .work ++ [.order .pause])).Unresumed more ∧
      (((sheltered (.launch :: List.replicate 7 .work ++ [.order .pause])).actAll more).controller.state =
          .completed ∨
        ((sheltered (.launch :: List.replicate 7 .work ++ [.order .pause])).actAll more).controller.state =
          .failed) := by
  have hreached : ∀ actions, Reached LiveVariables.analysis AnalysisKind.sheltering (.naive [])
      (sheltered actions) := fun actions => ⟨.naive, actions, rfl⟩
  constructor
  · intro more hmore hend
    obtain ⟨-, -, hpaused, -⟩ := lifecycle_moves (hreached [.launch, .order .pause])
    rcases (hpaused rfl).1 ⟨more, hmore, .inl hend⟩ with h | h
    · exact h
    · exact h
  · obtain ⟨-, -, hpaused, -⟩ :=
      lifecycle_moves (hreached (.launch :: List.replicate 7 .work ++ [.order .pause]))
    exact (hpaused rfl).2 (.inr rfl)

/-- A program that ends in a loop, without an exit. -/
def endless : Flowgraph where
  graph := ⟨[⟨0, [.assign (.var ⟨"x", .int⟩) (.operand (.literal (.int 5)))], false⟩,
    ⟨1, [.goto], false⟩], [(0, 1), (1, 1)]⟩
  entry := 0
  exit := none
  locals := .ofList [⟨"x", .int⟩]

theorem endless_built : endless.Built := by
  have hblocks := (Draft.Made.empty.addBlock
    [.assign (.var ⟨"x", .int⟩) (.operand (.literal (.int 5)))]).addBlock [.goto]
  have hfirst := @Draft.Made.addEdge _ _ 0 1 hblocks rfl
  exact ⟨_, @Draft.Made.addEdge _ _ 1 1 hfirst rfl, rfl⟩

/-- Stopped or paused before it is started, the liveness of locals in a program without an exit fails. -/
theorem stopped_run_fails : endless.Built ∧
    ((create LiveVariables.analysis endless ⟨.naive, none⟩).actAll
      [.order .stop, .launch]).controller.state = .stopped ∧
    ((create LiveVariables.analysis endless ⟨.naive, none⟩).actAll
      [.order .stop, .launch, .work]).controller.state = .failed ∧
    ((create LiveVariables.analysis endless ⟨.naive, none⟩).actAll
      [.order .pause, .launch]).controller.state = .paused ∧
    ((create LiveVariables.analysis endless ⟨.naive, none⟩).actAll
      [.order .pause, .launch, .work]).controller.state = .failed ∧
    (Lifecycle.stopped, Lifecycle.failed) ∉ Lifecycle.arrows ∧
    (Lifecycle.paused, Lifecycle.failed) ∉ Lifecycle.arrows :=
  ⟨endless_built, by decide⟩

end Session

end FlowHistory
