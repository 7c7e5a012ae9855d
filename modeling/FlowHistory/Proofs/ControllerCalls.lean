import FlowHistory.Session.Controller
import Mathlib.Data.List.Induction

/-!
# What a controller can be brought to

Clients command a controller and look at it, a worker asks, counts and in the end hands over its outcome,
all of them in any order. Only the worker is held to something: once it has published a result or reported
a fault, it calls nothing more. Then the five fields of the controller fit together after every call, and
the outcome, once it is there, stays what it is.
-/
namespace FlowHistory

namespace Controller

variable {α : Type}

/-- The calls of clients and of the worker. -/
inductive Call (α : Type) where
  /-- a command of a client -/
  | order (c : Command)
  /-- a client asks for the state, the progress or the result, or waits for the result -/
  | look
  | checkpoint
  | advance
  | publish (a : α)
  | fail (f : Fault)
  deriving DecidableEq

namespace Call

def byWorker : Call α → Bool
  | .order _ | .look => false
  | .checkpoint | .advance | .publish _ | .fail _ => true

/-- The worker hands over its outcome. -/
def isOutcome : Call α → Bool
  | .publish _ | .fail _ => true
  | .order _ | .look | .checkpoint | .advance => false

end Call

/-- The controller after a call; a refused call changes nothing. -/
def after (c : Controller α) : Call α → Controller α
  | .order o => ((c.obey o).toOption).getD c
  | .look | .checkpoint => c
  | .advance => c.advance
  | .publish a => ((c.publish a).toOption).getD c
  | .fail f => c.fail f

def afterAll (c : Controller α) (calls : List (Call α)) : Controller α := calls.foldl after c

/-- The worker calls nothing more once it has handed over its outcome. -/
def Orderly (calls : List (Call α)) : Prop :=
  calls.Pairwise fun x y => x.isOutcome = true → y.byWorker = false

instance (calls : List (Call α)) : Decidable (Orderly calls) :=
  inferInstanceAs (Decidable (List.Pairwise _ calls))

theorem orderly_append_singleton {calls : List (Call α)} {x : Call α} :
    Orderly (calls ++ [x]) ↔
      Orderly calls ∧ (x.byWorker = true → ∀ y ∈ calls, y.isOutcome = false) := by
  simp only [Orderly, List.pairwise_append, List.pairwise_singleton, List.mem_singleton, true_and,
    forall_eq]
  refine and_congr_right fun _ => ⟨fun h hx y hy => ?_, fun h y hy hout => ?_⟩
  · by_contra hout
    rw [h y hy (by simpa using hout)] at hx
    cases hx
  · by_contra hx
    rw [h (by simpa using hx) y hy] at hout
    cases hout

/-- The fields of a controller fit together. -/
structure Coherent (c : Controller α) : Prop where
  present_iff : c.result?.isSome = true ↔ c.published ≠ .noResult
  final_iff : c.published = .final ↔ c.state = .completed
  stopped_of_intermediate : c.published = .intermediate → c.state = .stopped
  faulty_iff : c.fault?.isSome = true ↔ c.state = .failed
  exclusive : ¬ (c.result?.isSome = true ∧ c.fault?.isSome = true)

/-- There is no outcome yet. -/
structure Undecided (c : Controller α) : Prop where
  no_result : c.result? = none
  no_fault : c.fault? = none

theorem coherent_start : (start : Controller α).Coherent := by
  constructor <;> simp [start]

/-- A command that is obeyed leaves everything as it is, or moves a run that goes on. -/
theorem obey_cases {c c' : Controller α} {o : Command} (h : c.obey o = .ok c') :
    c' = c ∨ (o = .pause ∧ c.state = .calculating ∧ c' = { c with state := .paused }) ∨
      (o = .resume ∧ c.state = .paused ∧ c' = { c with state := .calculating }) ∨
      (o = .stop ∧ (c.state = .calculating ∨ c.state = .paused) ∧
        c' = { c with state := .stopped }) := by
  obtain ⟨state, published, result?, fault?, progress⟩ := c
  cases o <;> cases state <;> cases h <;> simp

section

variable {c : Controller α}

theorem Coherent.published_of_open (h : c.Coherent)
    (hopen : c.state = .calculating ∨ c.state = .paused) : c.published = .noResult := by
  cases hp : c.published with
  | noResult => rfl
  | intermediate =>
    have hstopped := h.stopped_of_intermediate hp
    rw [hstopped] at hopen
    rcases hopen with hopen | hopen <;> cases hopen
  | final =>
    have hcompleted := h.final_iff.1 hp
    rw [hcompleted] at hopen
    rcases hopen with hopen | hopen <;> cases hopen

/-- A run that goes on has no outcome. -/
theorem Coherent.undecided_of_open (h : c.Coherent)
    (hopen : c.state = .calculating ∨ c.state = .paused) : c.Undecided := by
  constructor
  · have hnot := mt h.present_iff.1 (not_not.2 (h.published_of_open hopen))
    simpa using hnot
  · have hnot : c.state ≠ .failed := by rcases hopen with hopen | hopen <;> simp [hopen]
    simpa using mt h.faulty_iff.1 hnot

/-- Without an outcome a run calculates, is paused or has been stopped, and nothing is published. -/
theorem Coherent.state_of_undecided (h : c.Coherent) (hc : c.Undecided) :
    c.published = .noResult ∧
      (c.state = .calculating ∨ c.state = .paused ∨ c.state = .stopped) := by
  have hpublished : c.published = .noResult := by
    by_contra hne
    have hsome := h.present_iff.2 hne
    rw [hc.no_result] at hsome
    cases hsome
  refine ⟨hpublished, ?_⟩
  cases hs : c.state with
  | calculating | paused | stopped => simp
  | completed =>
    have hfinal := h.final_iff.2 hs
    rw [hpublished] at hfinal
    cases hfinal
  | failed =>
    have hsome := h.faulty_iff.2 hs
    rw [hc.no_fault] at hsome
    cases hsome

theorem Coherent.move (h : c.Coherent) (hopen : c.state = .calculating ∨ c.state = .paused)
    {s : Lifecycle} (hs : s ≠ .completed ∧ s ≠ .failed) : { c with state := s }.Coherent := by
  have hpublished := h.published_of_open hopen
  obtain ⟨hresult, hfault⟩ := h.undecided_of_open hopen
  constructor <;> simp [hpublished, hresult, hfault, hs]

theorem Coherent.obey {c' : Controller α} {o : Command} (h : c.Coherent) (ho : c.obey o = .ok c') :
    c'.Coherent := by
  rcases obey_cases ho with rfl | ⟨-, hs, rfl⟩ | ⟨-, hs, rfl⟩ | ⟨-, hs, rfl⟩
  · exact h
  · exact h.move (.inl hs) (by decide)
  · exact h.move (.inr hs) (by decide)
  · exact h.move hs (by decide)

theorem Coherent.advance (h : c.Coherent) : c.advance.Coherent :=
  ⟨h.present_iff, h.final_iff, h.stopped_of_intermediate, h.faulty_iff, h.exclusive⟩

/-- Publishing succeeds as long as there is no outcome. -/
theorem Undecided.publish (hc : c.Undecided) (a : α) :
    ∃ c', c.publish a = .ok c' ∧ c'.Coherent ∧ c'.result? = some a ∧ c'.fault? = none := by
  by_cases hs : c.state = .stopped
  · refine ⟨{ c with published := .intermediate, result? := some a }, ?_, ?_, rfl, hc.no_fault⟩
    · simp [Controller.publish, hc.no_result, hs]
    · constructor <;> simp [hs, hc.no_fault]
  · refine ⟨{ c with state := .completed, published := .final, result? := some a }, ?_, ?_, rfl,
      hc.no_fault⟩
    · simp [Controller.publish, hc.no_result, hs]
    · constructor <;> simp [hc.no_fault]

/-- Publishing completes a run that is not stopped, and counts no step. -/
theorem publish_cases {c' : Controller α} {a : α} (hpub : c.publish a = .ok c') :
    c'.progress = c.progress ∧ (c.state = .stopped ∧ c'.state = .stopped ∨
      c.state ≠ .stopped ∧ c'.state = .completed) := by
  rw [publish] at hpub
  split at hpub
  · cases hpub
  · split at hpub
    · rename_i hs
      cases hpub
      exact ⟨rfl, .inl ⟨hs, hs⟩⟩
    · rename_i hs
      cases hpub
      exact ⟨rfl, .inr ⟨hs, rfl⟩⟩

theorem Coherent.fail (h : c.Coherent) (hc : c.Undecided) (f : Fault) : (c.fail f).Coherent := by
  have hpublished := (h.state_of_undecided hc).1
  constructor <;> simp [Controller.fail, hpublished, hc.no_result]

theorem obey_outcome {c' : Controller α} {o : Command} (ho : c.obey o = .ok c') :
    c'.result? = c.result? ∧ c'.fault? = c.fault? ∧ c'.progress = c.progress := by
  rcases obey_cases ho with rfl | ⟨-, -, rfl⟩ | ⟨-, -, rfl⟩ | ⟨-, -, rfl⟩ <;> exact ⟨rfl, rfl, rfl⟩

theorem after_order {c' : Controller α} {o : Command} (ho : c.obey o = .ok c') :
    c.after (.order o) = c' := by
  simp [after, ho, Except.toOption]

theorem after_publish {c' : Controller α} {a : α} (hpub : c.publish a = .ok c') :
    c.after (.publish a) = c' := by
  simp [after, hpub, Except.toOption]

theorem after_order_cases (c : Controller α) (o : Command) :
    (∃ c', c.obey o = .ok c' ∧ c.after (.order o) = c') ∨ c.after (.order o) = c := by
  cases ho : c.obey o with
  | ok c' => exact .inl ⟨c', rfl, after_order ho⟩
  | error f => exact .inr (by simp [after, ho, Except.toOption])

end

/-- The outcome that the worker handed over in the given calls. -/
def HandedOver (calls : List (Call α)) (r : Except Fault α) : Prop :=
  (∃ a, r = .ok a ∧ Call.publish a ∈ calls) ∨ ∃ f, r = .error f ∧ Call.fail f ∈ calls

theorem handedOver_append {calls more : List (Call α)} {r : Except Fault α} :
    HandedOver (calls ++ more) r ↔ HandedOver calls r ∨ HandedOver more r := by
  simp only [HandedOver, List.mem_append, and_or_left, exists_or]
  exact or_or_or_comm

/-- A controller after the given calls: its fields fit together, and its outcome is the one that was
handed over. -/
structure Brought (calls : List (Call α)) (c : Controller α) : Prop where
  coherent : c.Coherent
  result_iff (a : α) : c.result? = some a ↔ Call.publish a ∈ calls
  fault_iff (f : Fault) : c.fault? = some f ↔ Call.fail f ∈ calls

namespace Brought

variable {calls : List (Call α)} {c c' : Controller α} {x : Call α}

theorem undecided (h : Brought calls c) (hcalls : ∀ y ∈ calls, y.isOutcome = false) : c.Undecided := by
  constructor
  · rw [Option.eq_none_iff_forall_ne_some]
    intro a ha
    cases hcalls _ ((h.result_iff a).1 ha)
  · rw [Option.eq_none_iff_forall_ne_some]
    intro f hf
    cases hcalls _ ((h.fault_iff f).1 hf)

/-- A call that hands over nothing leaves the outcome alone. -/
theorem keep (h : Brought calls c) (hc' : c'.Coherent) (hresult : c'.result? = c.result?)
    (hfault : c'.fault? = c.fault?) (hx : x.isOutcome = false) : Brought (calls ++ [x]) c' := by
  refine ⟨hc', fun a => ?_, fun f => ?_⟩
  · have hne : Call.publish a ≠ x := by rintro rfl; cases hx
    simp [hresult, h.result_iff, hne]
  · have hne : Call.fail f ≠ x := by rintro rfl; cases hx
    simp [hfault, h.fault_iff, hne]

theorem step (h : Brought calls c) (hx : x.byWorker = true → ∀ y ∈ calls, y.isOutcome = false) :
    Brought (calls ++ [x]) (c.after x) := by
  cases x with
  | order o =>
    rcases after_order_cases c o with ⟨c', ho, hafter⟩ | hafter
    · obtain ⟨hresult, hfault, -⟩ := obey_outcome ho
      rw [hafter]
      exact h.keep (h.coherent.obey ho) hresult hfault rfl
    · rw [hafter]
      exact h.keep h.coherent rfl rfl rfl
  | look | checkpoint => exact h.keep h.coherent rfl rfl rfl
  | advance => exact h.keep h.coherent.advance rfl rfl rfl
  | publish a =>
    have hnone := h.undecided (hx rfl)
    obtain ⟨c', hpub, hcoh, hresult, hfault⟩ := hnone.publish a
    rw [after_publish hpub]
    refine ⟨hcoh, fun b => ?_, fun f => ?_⟩
    · have hno : Call.publish b ∉ calls := fun hmem => by cases hx rfl _ hmem
      simp [hresult, hno, eq_comm]
    · have hno : Call.fail f ∉ calls := fun hmem => by cases hx rfl _ hmem
      simp [hfault, hno]
  | fail f =>
    have hnone := h.undecided (hx rfl)
    refine ⟨h.coherent.fail hnone f, fun a => ?_, fun f' => ?_⟩
    · have hno : Call.publish a ∉ calls := fun hmem => by cases hx rfl _ hmem
      simp [after, Controller.fail, hnone.no_result, hno]
    · have hno : Call.fail f' ∉ calls := fun hmem => by cases hx rfl _ hmem
      simp [after, Controller.fail, hno, eq_comm]

/-- A client that waits is given the outcome, and nothing before there is one. -/
theorem wait_eq_some_iff (h : Brought calls c) {r : Except Fault α} :
    c.wait = some r ↔ HandedOver calls r := by
  simp only [HandedOver, ← h.result_iff, ← h.fault_iff, wait, result]
  cases hf : c.fault? with
  | none => cases c.result? <;> simp [eq_comm]
  | some f =>
    have hnot : c.result?.isSome ≠ true := fun hsome => h.coherent.exclusive ⟨hsome, by simp [hf]⟩
    have hnone : c.result? = none := by simpa using hnot
    simp [hnone, eq_comm]

end Brought

theorem brought_afterAll {calls : List (Call α)} (h : Orderly calls) :
    Brought calls (start.afterAll calls) := by
  induction calls using List.reverseRecOn with
  | nil => exact ⟨coherent_start, by simp [afterAll, start], by simp [afterAll, start]⟩
  | append_singleton calls x ih =>
    obtain ⟨hcalls, hx⟩ := orderly_append_singleton.1 h
    rw [afterAll, List.foldl_append]
    exact (ih hcalls).step hx

/-- Waiting and asking give the same, but for the refusal of an early question. -/
theorem wait_eq_some_result {c : Controller α} (h : c.result ≠ .error .nothingPublished) :
    c.wait = some c.result := by
  simp only [wait, result] at h ⊢
  cases hf : c.fault? with
  | none =>
    cases hr : c.result? with
    | none => simp [hf, hr] at h
    | some a => simp
  | some f => simp

theorem result_of_wait {c : Controller α} {r : Except Fault α} (h : c.wait = some r) : c.result = r := by
  rw [wait] at h
  split at h
  · cases h
  · exact Option.some.inj h

/-- No call, in any order, leads from the end of a run back into it. -/
theorem isTerminal_after {c : Controller α} (h : c.state.isTerminal = true) (x : Call α) :
    (c.after x).state.isTerminal = true := by
  cases x with
  | order o =>
    rcases after_order_cases c o with ⟨c', ho, hafter⟩ | hafter
    · rw [hafter]
      rcases obey_cases ho with rfl | ⟨-, hs, -⟩ | ⟨-, hs, -⟩ | ⟨-, hs | hs, -⟩
      · exact h
      all_goals
        rw [hs] at h
        cases h
    · rwa [hafter]
  | look | checkpoint | advance => exact h
  | publish a =>
    simp only [after, publish]
    split
    · exact h
    · split
      · exact h
      · rfl
  | fail f => rfl

theorem isTerminal_afterAll {c : Controller α} (h : c.state.isTerminal = true) (calls : List (Call α)) :
    (c.afterAll calls).state.isTerminal = true := by
  induction calls generalizing c with
  | nil => exact h
  | cons x calls ih => exact ih (isTerminal_after h x)

theorem checkpoint_eq_halt_iff {c : Controller α} :
    c.checkpoint = .halt ↔ c.state.isTerminal = true := by
  rw [checkpoint]
  cases c.state <;> simp [Lifecycle.isTerminal]

/-- After any calls, the fields of a controller fit together, and a client that waits is given what the
worker handed over. Whatever a client was given as the outcome, every later call gives it again. Once a run
is at its end, no checkpoint lets the worker go on. -/
theorem outcome_one_shot {before more : List (Call α)} (h : Orderly (before ++ more)) :
    (start.afterAll before).Coherent ∧
    (∀ r, (start.afterAll before).wait = some r ↔ HandedOver before r) ∧
    (∀ r, (start.afterAll before).wait = some r ∨
        ((start.afterAll before).result = r ∧ r ≠ .error .nothingPublished) →
      (start.afterAll (before ++ more)).result = r ∧
        (start.afterAll (before ++ more)).wait = some r) ∧
    ((start.afterAll before).state.isTerminal = true →
      (start.afterAll (before ++ more)).checkpoint = .halt) := by
  have hbefore := brought_afterAll (List.Pairwise.sublist (List.sublist_append_left before more) h)
  have hall := brought_afterAll h
  refine ⟨hbefore.coherent, fun r => hbefore.wait_eq_some_iff, fun r hr => ?_, fun hend => ?_⟩
  · have hwait : (start.afterAll before).wait = some r := by
      rcases hr with hr | ⟨rfl, hne⟩
      · exact hr
      · exact wait_eq_some_result hne
    have hgiven := hbefore.wait_eq_some_iff.1 hwait
    have hlater := hall.wait_eq_some_iff.2 (handedOver_append.2 (.inl hgiven))
    exact ⟨result_of_wait hlater, hlater⟩
  · rw [checkpoint_eq_halt_iff, afterAll, List.foldl_append]
    exact isTerminal_afterAll hend more

/-- A run that is stopped while it is paused publishes once, whatever is asked of it later. -/
theorem outcome_one_shot_stopped :
    HandedOver [.advance, .order .pause, .checkpoint, .order .stop, .publish 3] (.ok 3) ∧
      (start.afterAll [.advance, .order .pause, .checkpoint, .order .stop, .publish 3, .look,
        .order .resume]).wait = some (.ok 3) := by
  have hgiven : HandedOver [.advance, .order .pause, .checkpoint, .order .stop, .publish 3] (.ok 3) :=
    .inl ⟨3, rfl, by decide⟩
  obtain ⟨-, hwait, hlater, -⟩ := @outcome_one_shot Nat
    [.advance, .order .pause, .checkpoint, .order .stop, .publish 3] [.look, .order .resume] (by decide)
  exact ⟨hgiven, (hlater _ (.inl ((hwait _).2 hgiven))).2⟩

end Controller

end FlowHistory
