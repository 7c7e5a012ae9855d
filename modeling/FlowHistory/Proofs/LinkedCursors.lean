import FlowHistory.Navigator
import FlowHistory.Proofs.Visits

/-!
# The cursors of a navigator

Every move of a navigator ends at an elementary step that was recorded and at the block step around it, so
the first cursor determines the second. A refused move of the first cursor therefore leaves both where they
are. A refused move of the second one does not: it ends at the start of the block step where it began, which
is behind a cursor that stands further on in that block step.
-/
namespace FlowHistory

/-- What the runs of an analysis leave behind: the record of a run after any number of steps, that of a
completed run, and whatever a steered session holds as its record or hands out. -/
inductive Analysis.Records {V : Type} [DecidableEq V] [LatticeValue V] (a : Analysis V) (g : Flowgraph) :
    History V → Prop
  | driven {p : Problem V} {q : Worklist} (n : Nat) : Problem.create a g = .ok p → q.Fresh →
    Records a g ((Engine.start p q).drive n).1.history
  | completed {q : Worklist} {h : History V} : q.Fresh → a.runFrom g q = .ok h → Records a g h
  | steered {q : Worklist} {s : Session V} {h : History V} : Session.Reached a g q s →
    s.worker.record? = some h ∨ s.controller.result = .ok h → Records a g h

theorem AnalysisKind.leaves_of_records {k : AnalysisKind} {g : Flowgraph} {h : History k.Value}
    (hg : g.Built) (hh : k.analysis.Records g h) :
    ∃ p, Problem.create k.analysis g = .ok p ∧ p.Leaves h := by
  cases hh with
  | driven n hp hq => exact ⟨_, hp, Problem.leaves_drive hq n⟩
  | completed hq hrun =>
    obtain ⟨p, hp, -⟩ := bind_eq_ok.1 hrun
    exact ⟨p, hp, (Problem.leavesWhole_of_run k.lawful hg hp hq hrun).leaves⟩
  | steered hs hr =>
    obtain ⟨p, n, e, hp, -, -⟩ := hs.exists_stepped (hs.record_of_held hr)
    exact ⟨p, hp, Problem.leaves_of_session hp hs hr⟩

/-- In an increasing list, the numbers up to a bound come first. -/
theorem lt_length_takeWhile_iff {l : List Nat} (hl : l.Pairwise (· < ·)) {i start step : Nat}
    (hi : l[i]? = some start) : i < (l.takeWhile (· ≤ step)).length ↔ start ≤ step := by
  induction l generalizing i with
  | nil => cases hi
  | cons a l ih =>
    rw [List.pairwise_cons] at hl
    by_cases ha : a ≤ step
    · rw [List.takeWhile_cons_of_pos (by simpa using ha), List.length_cons]
      cases i with
      | zero =>
        cases hi
        simp [ha]
      | succ i =>
        rw [Nat.add_lt_add_iff_right]
        exact ih hl.2 hi
    · rw [List.takeWhile_cons_of_neg (by simpa using ha), List.length_nil]
      have hle : a ≤ start := by
        cases i with
        | zero =>
          cases hi
          exact Nat.le_refl _
        | succ i => exact Nat.le_of_lt (hl.1 start (List.mem_of_getElem? hi))
      omega

namespace History

variable {V : Type} {h : History V} {k start step : Nat}

/-- Block step `k` is around a step: it starts no later, and the next one, if it is not the last, starts
later. -/
def Encloses (h : History V) (k step : Nat) : Prop :=
  (∃ start, h.blockStart? k = some start ∧ start ≤ step) ∧
    (k + 1 = h.blockStepCount ∨ ∃ stop, h.blockStart? (k + 1) = some stop ∧ step < stop)

theorem exists_blockStart (hk : k < h.blockStepCount) : ∃ start, h.blockStart? k = some start :=
  ⟨_, Array.getElem?_eq_getElem hk⟩

theorem lt_of_blockStart (hk : h.blockStart? k = some start) : k < h.blockStepCount :=
  (Array.getElem?_eq_some_iff.1 hk).1

theorem isEmpty_iff : h.isEmpty = true ↔ h.size = 0 := Array.isEmpty_iff_size_eq_zero

/-- The block steps start one after the other, the first one with the record, and none is empty. -/
structure Navigable (h : History V) : Prop where
  increasing : h.blockStarts.toList.Pairwise (· < ·)
  begins : 0 < h.size → h.blockStart? 0 = some 0
  start_lt {k start : Nat} : h.blockStart? k = some start → start < h.size

theorem Shaped.navigable {g : Flowgraph} {d : Direction} (hs : h.Shaped g d) : h.Navigable where
  increasing := hs.increasing
  begins hpos := by
    apply hs.begins
    rw [Bool.eq_false_iff, ne_eq, isEmpty_iff]
    omega
  start_lt {k start} hk := by
    obtain ⟨b, block, -, hne, -⟩ := hs.begun (lt_of_blockStart hk)
    rw [cursors, visit, hk] at hne
    by_contra hge
    apply hne
    have hdrop : h.snapshots.toList.drop start = [] :=
      List.drop_of_length_le (by rw [Array.length_toList]; exact Nat.le_of_not_lt hge)
    simp [List.extract_eq_take_drop, hdrop]

namespace Navigable

variable (hn : h.Navigable)

include hn

theorem blockStepCount_pos (hpos : 0 < h.size) : 0 < h.blockStepCount := lt_of_blockStart (hn.begins hpos)

theorem blockStepCount_eq_zero (hsize : h.size = 0) : h.blockStepCount = 0 := by
  by_contra hne
  obtain ⟨start, hstart⟩ := exists_blockStart (Nat.pos_of_ne_zero hne)
  have hlt := hn.start_lt hstart
  omega

/-- Exactly one block step is around a step. -/
theorem encloses_iff (hpos : 0 < h.size) : h.Encloses k step ↔ k = h.blockStepOf step := by
  have hstarts : ∀ {i start}, h.blockStart? i = some start →
      (i < (h.blockStarts.toList.takeWhile (· ≤ step)).length ↔ start ≤ step) := fun hi =>
    lt_length_takeWhile_iff hn.increasing (by rw [Array.getElem?_toList]; exact hi)
  have hle : (h.blockStarts.toList.takeWhile (· ≤ step)).length ≤ h.blockStepCount :=
    (List.takeWhile_prefix _).length_le
  have hfirst := (hstarts (hn.begins hpos)).2 (Nat.zero_le step)
  rw [blockStepOf]
  -- the block steps that start no later than the step are the first ones
  generalize (h.blockStarts.toList.takeWhile (· ≤ step)).length = count at hstarts hle hfirst ⊢
  constructor
  · rintro ⟨⟨start, hstart, hbefore⟩, hlast⟩
    have hk := (hstarts hstart).2 hbefore
    rcases hlast with hlast | ⟨stop, hstop, hafter⟩
    · omega
    · have hnext := mt (hstarts hstop).1 (by omega)
      omega
  · intro hk
    obtain ⟨start, hstart⟩ := exists_blockStart (h := h) (k := k) (by omega)
    refine ⟨⟨start, hstart, (hstarts hstart).1 (by omega)⟩, ?_⟩
    by_cases hlast : k + 1 = h.blockStepCount
    · exact .inl hlast
    · obtain ⟨stop, hstop⟩ := exists_blockStart (h := h) (k := k + 1) (by omega)
      have hafter := mt (hstarts hstop).2 (by omega)
      exact .inr ⟨stop, hstop, by omega⟩

theorem start_lt_start {i j stop : Nat} (hi : h.blockStart? i = some start)
    (hj : h.blockStart? j = some stop) (hij : i < j) : start < stop := by
  rw [blockStart?, ← Array.getElem?_toList] at hi hj
  obtain ⟨hilt, rfl⟩ := List.getElem?_eq_some_iff.1 hi
  obtain ⟨hjlt, rfl⟩ := List.getElem?_eq_some_iff.1 hj
  exact List.pairwise_iff_getElem.1 hn.increasing i j hilt hjlt hij

/-- The first step of a block step belongs to it. -/
theorem blockStepOf_start (hk : h.blockStart? k = some start) : h.blockStepOf start = k := by
  have hpos : 0 < h.size := by
    have hlt := hn.start_lt hk
    omega
  symm
  apply (hn.encloses_iff hpos).1
  refine ⟨⟨start, hk, Nat.le_refl start⟩, ?_⟩
  by_cases hlast : k + 1 = h.blockStepCount
  · exact .inl hlast
  · have hlt := lt_of_blockStart hk
    obtain ⟨stop, hstop⟩ := exists_blockStart (h := h) (k := k + 1) (by omega)
    exact .inr ⟨stop, hstop, hn.start_lt_start hk hstop (Nat.lt_succ_self k)⟩

theorem blockStepOf_of_empty (hsize : h.size = 0) : h.blockStepOf step = 0 := by
  have hcount := hn.blockStepCount_eq_zero hsize
  have hle : (h.blockStarts.toList.takeWhile (· ≤ step)).length ≤ h.blockStepCount :=
    (List.takeWhile_prefix _).length_le
  rw [blockStepOf]
  omega

end Navigable

end History

namespace Navigator

variable {V : Type} {h : History V} {n m : Navigator V}

/-- What can be asked of a navigator. The breakpoints are those that are set at the moment. -/
inductive Move where
  | goto (step : Nat)
  | gotoBlock (blockStep : Nat)
  | next | previous | nextBlock | previousBlock
  | runToBreakpoint (marks : Breakpoints)
  deriving DecidableEq, Repr

def follow (n : Navigator V) : Move → Navigator V
  | .goto step => n.goto step
  | .gotoBlock blockStep => n.gotoBlock blockStep
  | .next => n.next.2
  | .previous => n.previous.2
  | .nextBlock => n.nextBlock.2
  | .previousBlock => n.previousBlock.2
  | .runToBreakpoint marks => (n.runToBreakpoint marks).2

def followAll (n : Navigator V) (moves : List Move) : Navigator V := moves.foldl follow n

/-- Some moves lead there from the first step of the history. -/
def Reached (h : History V) (n : Navigator V) : Prop := ∃ moves, n = (start h).followAll moves

/-- The cursors stand on a recorded step and the block step around it: going to the very step does not move
them. -/
def Linked (n : Navigator V) : Prop := n.goto n.step = n

theorem step_goto (n : Navigator V) (step : Nat) : (n.goto step).step = min step (n.history.size - 1) := rfl

theorem step_goto_of_lt {step : Nat} (hstep : step < n.history.size) : (n.goto step).step = step := by
  rw [step_goto]
  omega

theorem linked_goto (n : Navigator V) (step : Nat) : (n.goto step).Linked := by
  simp [Linked, goto]

theorem Linked.step_le (hl : n.Linked) : n.step ≤ n.history.size - 1 := by
  rw [← hl]
  exact Nat.min_le_right _ _

theorem Linked.blockStep_eq (hl : n.Linked) : n.blockStep = n.history.blockStepOf n.step := by
  rw [← hl]
  rfl

/-- The first cursor determines the second. -/
theorem Linked.eq_of_step_eq (hn : n.Linked) (hm : m.Linked) (hhistory : m.history = n.history)
    (hstep : m.step = n.step) : m = n := by
  rw [← hm, ← hn, goto, goto]
  simp only [hhistory, hstep]

theorem linked_start (hh : h.Navigable) : (start h).Linked := by
  by_cases hsize : h.size = 0
  · simp [Linked, goto, start, hh.blockStepOf_of_empty hsize]
  · simp [Linked, goto, start, hh.blockStepOf_start (hh.begins (Nat.pos_of_ne_zero hsize))]

/-- Landing on the start of a block step is landing on the block step. -/
theorem gotoBlock_eq_goto (hn : n.history.Navigable) {k start : Nat}
    (hk : n.history.blockStart? k = some start) : n.gotoBlock k = n.goto start := by
  have hcount := History.lt_of_blockStart hk
  have hstep : min start (n.history.size - 1) = start := step_goto_of_lt (hn.start_lt hk)
  have hblock : min k (n.history.blockStepCount - 1) = k := by omega
  simp [goto, gotoBlock, hstep, hblock, hk, hn.blockStepOf_start hk]

theorem gotoBlock_of_le {k : Nat} (hk : n.history.blockStepCount ≤ k) :
    n.gotoBlock k = n.gotoBlock (n.history.blockStepCount - 1) := by
  have hmin : min k (n.history.blockStepCount - 1) = n.history.blockStepCount - 1 := by omega
  simp [gotoBlock, hmin]

theorem linked_gotoBlock (hn : n.history.Navigable) (k : Nat) : (n.gotoBlock k).Linked := by
  -- with the number brought into range there is a start, unless nothing was recorded
  wlog hk : k ≤ n.history.blockStepCount - 1 generalizing k
  · rw [gotoBlock_of_le (by omega)]
    exact this _ (Nat.le_refl _)
  by_cases hsize : n.history.size = 0
  · have hcount := hn.blockStepCount_eq_zero hsize
    have hnone : n.history.blockStart? 0 = none := Array.getElem?_eq_none (Nat.le_of_eq hcount)
    simp [Linked, goto, gotoBlock, hsize, hcount, hnone, hn.blockStepOf_of_empty hsize]
  · have hcount := hn.blockStepCount_pos (Nat.pos_of_ne_zero hsize)
    obtain ⟨start, hstart⟩ := History.exists_blockStart (h := n.history) (k := k) (by omega)
    rw [gotoBlock_eq_goto hn hstart]
    exact linked_goto n start

theorem history_seekBreakpoint (marks : Breakpoints) (limit : Nat) (n : Navigator V) :
    (seekBreakpoint marks limit n).2.history = n.history := by
  induction limit generalizing n with
  | zero => rfl
  | succ limit ih =>
    simp only [seekBreakpoint]
    split
    · rfl
    · split
      · rfl
      · exact ih n.next.2

theorem linked_seekBreakpoint (marks : Breakpoints) (limit : Nat) (hl : n.Linked) :
    (seekBreakpoint marks limit n).2.Linked := by
  induction limit generalizing n with
  | zero => exact hl
  | succ limit ih =>
    have hnext : n.next.2.Linked := linked_goto n _
    simp only [seekBreakpoint]
    split
    · exact hnext
    · split
      · exact hnext
      · exact ih hnext

theorem history_follow (n : Navigator V) (move : Move) : (n.follow move).history = n.history := by
  cases move with
  | runToBreakpoint marks => exact history_seekBreakpoint marks _ n
  | _ => rfl

theorem Linked.follow (hl : n.Linked) (hn : n.history.Navigable) (move : Move) : (n.follow move).Linked := by
  cases move with
  | goto _ | next | previous => exact linked_goto n _
  | gotoBlock _ | nextBlock | previousBlock => exact linked_gotoBlock hn _
  | runToBreakpoint marks => exact linked_seekBreakpoint marks _ hl

/-- Whatever the moves, the cursors stay linked and the history stays as it is. -/
theorem Linked.followAll (hl : n.Linked) (hn : n.history.Navigable) (moves : List Move) :
    (n.followAll moves).history = n.history ∧ (n.followAll moves).Linked := by
  induction moves generalizing n with
  | nil => exact ⟨rfl, hl⟩
  | cons move moves ih =>
    have hhistory := history_follow n move
    have hrest := ih (hl.follow hn move) (by rw [hhistory]; exact hn)
    rw [hhistory] at hrest
    exact hrest

theorem Reached.linked (hr : Reached h n) (hh : h.Navigable) : n.history = h ∧ n.Linked := by
  obtain ⟨moves, rfl⟩ := hr
  exact (linked_start hh).followAll hh moves

namespace Linked

/-! Where linked cursors stand. -/

theorem of_empty (hl : n.Linked) (hn : n.history.Navigable) (hsize : n.history.size = 0) :
    n.step = 0 ∧ n.blockStep = 0 ∧ n.snapshot? = none := by
  have hstep := hl.step_le
  refine ⟨by omega, ?_, Array.getElem?_eq_none ?_⟩
  · rw [hl.blockStep_eq, hn.blockStepOf_of_empty hsize]
  · change n.history.size ≤ n.step
    omega

theorem encloses_iff (hl : n.Linked) (hn : n.history.Navigable) (hpos : 0 < n.history.size) {i : Nat} :
    n.history.Encloses i n.step ↔ i = n.blockStep := by
  rw [hn.encloses_iff hpos, hl.blockStep_eq]

theorem blockStep_lt (hl : n.Linked) (hn : n.history.Navigable) (hpos : 0 < n.history.size) :
    n.blockStep < n.history.blockStepCount := by
  obtain ⟨⟨start, hstart, -⟩, -⟩ := (hl.encloses_iff hn hpos).2 rfl
  exact History.lt_of_blockStart hstart

theorem blockStep_le (hl : n.Linked) (hn : n.history.Navigable) :
    n.blockStep ≤ n.history.blockStepCount - 1 := by
  by_cases hsize : n.history.size = 0
  · obtain ⟨-, hzero, -⟩ := hl.of_empty hn hsize
    omega
  · have hlt := hl.blockStep_lt hn (Nat.pos_of_ne_zero hsize)
    omega

end Linked

/-- The first cursor is past the first step of its block step. -/
def Midway (n : Navigator V) : Prop :=
  ∃ start, n.history.blockStart? n.blockStep = some start ∧ start < n.step

theorem previous_step_le (n : Navigator V) : n.previous.2.step ≤ n.step := by
  simp only [previous, step_goto]
  omega

/-- Past a start there is a block step. -/
theorem midway_and_last_iff (hlast : n.history.blockStepCount ≤ n.blockStep + 1) :
    n.Midway ∧ n.blockStep + 1 = n.history.blockStepCount ↔ n.Midway := by
  refine and_iff_left_of_imp ?_
  rintro ⟨start, hstart, -⟩
  have hlt := History.lt_of_blockStart hstart
  omega

namespace Linked

/-! What each of the four moves comes to. -/

theorem next_of_refused (hl : n.Linked) (hr : n.next.1 = false) : n.next.2 = n :=
  hl.eq_of_step_eq (linked_goto n _) rfl (by simpa [next] using hr)

theorem previous_of_refused (hl : n.Linked) (hr : n.previous.1 = false) : n.previous.2 = n :=
  hl.eq_of_step_eq (linked_goto n _) rfl (by simpa [previous] using hr)

/-- One step on, or none at the last step. -/
theorem next_cases (hl : n.Linked) :
    (n.next.1 = true ∧ n.step + 1 < n.history.size ∧ n.next.2.step = n.step + 1) ∨
    (n.next.1 = false ∧ n.step = n.history.size - 1) := by
  have hstep := hl.step_le
  by_cases hlast : n.step + 1 < n.history.size
  · have hmin : min (n.step + 1) (n.history.size - 1) = n.step + 1 := by omega
    exact .inl ⟨by simp [next, step_goto, hmin], hlast, hmin⟩
  · have hmin : min (n.step + 1) (n.history.size - 1) = n.step := by omega
    exact .inr ⟨by simp [next, step_goto, hmin], by omega⟩

theorem step_next (hl : n.Linked) (hmoved : n.next.1 = true) : n.next.2.step = n.step + 1 := by
  rcases hl.next_cases with ⟨-, -, hstep⟩ | ⟨hr, -⟩
  · exact hstep
  · rw [hr] at hmoved
    cases hmoved

theorem step_of_refused (hl : n.Linked) (hr : n.next.1 = false) : n.step = n.history.size - 1 := by
  rcases hl.next_cases with ⟨hmoved, -, -⟩ | ⟨-, hlast⟩
  · rw [hr] at hmoved
    cases hmoved
  · exact hlast

theorem step_le_next (hl : n.Linked) : n.step ≤ n.next.2.step := by
  rcases hl.next_cases with ⟨-, -, hnext⟩ | ⟨hr, -⟩
  · omega
  · rw [hl.next_of_refused hr]

/-- The start of the block step where the cursors stand is before the first cursor, or under it. -/
theorem step_gotoBlock_blockStep (hl : n.Linked) (hn : n.history.Navigable) :
    (n.gotoBlock n.blockStep).step ≤ n.step ∧
      (n.Midway ↔ (n.gotoBlock n.blockStep).step < n.step) := by
  by_cases hsize : n.history.size = 0
  · obtain ⟨hstep, hblock, -⟩ := hl.of_empty hn hsize
    have hle : (n.gotoBlock n.blockStep).step ≤ n.history.size - 1 :=
      (linked_gotoBlock hn n.blockStep).step_le
    refine ⟨by omega, ⟨?_, fun hlt => by omega⟩⟩
    rintro ⟨start, -, hlt⟩
    omega
  · obtain ⟨⟨start, hstart, hle⟩, -⟩ := (hl.encloses_iff hn (Nat.pos_of_ne_zero hsize)).2 rfl
    rw [gotoBlock_eq_goto hn hstart, step_goto_of_lt (hn.start_lt hstart)]
    refine ⟨hle, ⟨?_, fun hlt => ⟨start, hstart, hlt⟩⟩⟩
    rintro ⟨start', hstart', hlt⟩
    rw [hstart, Option.some.injEq] at hstart'
    omega

theorem gotoBlock_blockStep_eq_iff (hl : n.Linked) (hn : n.history.Navigable) :
    n.gotoBlock n.blockStep = n ↔ ¬ n.Midway := by
  obtain ⟨hle, hmidway⟩ := hl.step_gotoBlock_blockStep hn
  rw [hmidway]
  constructor
  · intro heq
    rw [heq]
    omega
  · intro hnot
    exact hl.eq_of_step_eq (linked_gotoBlock hn _) rfl (by omega)

/-- To the next block step if there is one, and else to the start of the present one. -/
theorem nextBlock_cases (hl : n.Linked) (hn : n.history.Navigable) :
    (n.blockStep + 1 < n.history.blockStepCount ∧ n.nextBlock.1 = true ∧ n.step < n.nextBlock.2.step) ∨
    (n.history.blockStepCount ≤ n.blockStep + 1 ∧ n.nextBlock = (false, n.gotoBlock n.blockStep)) := by
  by_cases hlast : n.blockStep + 1 < n.history.blockStepCount
  · left
    obtain ⟨stop, hstop⟩ := History.exists_blockStart hlast
    have hlt := hn.start_lt hstop
    have hblock : min (n.blockStep + 1) (n.history.blockStepCount - 1) = n.blockStep + 1 := by omega
    refine ⟨hlast, by simp [nextBlock, gotoBlock, hblock], ?_⟩
    -- the step is not yet in the next block step
    have hafter : n.step < stop := by
      obtain ⟨-, hend | ⟨stop', hstop', hafter⟩⟩ := (hl.encloses_iff hn (by omega)).2 rfl
      · omega
      · rw [hstop, Option.some.injEq] at hstop'
        omega
    simp only [nextBlock, gotoBlock_eq_goto hn hstop, step_goto_of_lt hlt]
    exact hafter
  · right
    have hle := hl.blockStep_le hn
    have hnext : min (n.blockStep + 1) (n.history.blockStepCount - 1) = n.blockStep := by omega
    exact ⟨by omega, by simp [nextBlock, gotoBlock, hnext, Nat.min_eq_left hle]⟩

/-- To the block step before if there is one, and else to the start of the present one. -/
theorem previousBlock_cases (hl : n.Linked) (hn : n.history.Navigable) :
    (0 < n.blockStep ∧ n.previousBlock.1 = true ∧ n.previousBlock.2.step < n.step) ∨
    (n.blockStep = 0 ∧ n.previousBlock = (false, n.gotoBlock n.blockStep)) := by
  by_cases hfirst : n.blockStep = 0
  · exact .inr ⟨hfirst, by simp [previousBlock, gotoBlock, hfirst]⟩
  · left
    have hpos : 0 < n.history.size := by
      by_contra hsize
      obtain ⟨-, hzero, -⟩ := hl.of_empty hn (by omega)
      exact hfirst hzero
    obtain ⟨⟨stop, hstop, hle⟩, -⟩ := (hl.encloses_iff hn hpos).2 rfl
    have hlt := History.lt_of_blockStart hstop
    obtain ⟨start, hstart⟩ := History.exists_blockStart (h := n.history) (k := n.blockStep - 1) (by omega)
    have hbefore := hn.start_lt_start hstart hstop (by omega)
    have hblock : min (n.blockStep - 1) (n.history.blockStepCount - 1) = n.blockStep - 1 := by omega
    refine ⟨Nat.pos_of_ne_zero hfirst, ?_, ?_⟩
    · simp only [previousBlock, gotoBlock, hblock, bne_iff_ne]
      omega
    · simp only [previousBlock, gotoBlock_eq_goto hn hstart, step_goto_of_lt (hn.start_lt hstart)]
      omega

/-- A refused block step is one to the start of the present block step. -/
theorem nextBlock_of_refused (hl : n.Linked) (hn : n.history.Navigable) (hr : n.nextBlock.1 = false) :
    n.nextBlock.2 = n.gotoBlock n.blockStep := by
  rcases hl.nextBlock_cases hn with ⟨-, hmoved, -⟩ | ⟨-, hnext⟩
  · rw [hmoved] at hr
    cases hr
  · rw [hnext]

theorem previousBlock_of_refused (hl : n.Linked) (hn : n.history.Navigable)
    (hr : n.previousBlock.1 = false) : n.previousBlock.2 = n.gotoBlock n.blockStep := by
  rcases hl.previousBlock_cases hn with ⟨-, hmoved, -⟩ | ⟨-, hprevious⟩
  · rw [hmoved] at hr
    cases hr
  · rw [hprevious]

theorem nextBlock_stays_iff (hl : n.Linked) (hn : n.history.Navigable) :
    (n.nextBlock.1 = false → n.nextBlock.2 = n) ↔
      ¬ (n.Midway ∧ n.blockStep + 1 = n.history.blockStepCount) := by
  rcases hl.nextBlock_cases hn with ⟨hlast, hmoved, -⟩ | ⟨hlast, hnext⟩
  · simp [hmoved, Nat.ne_of_lt hlast]
  · rw [midway_and_last_iff hlast, ← hl.gotoBlock_blockStep_eq_iff hn, hnext]
    exact imp_iff_right rfl

theorem step_le_nextBlock_iff (hl : n.Linked) (hn : n.history.Navigable) :
    n.step ≤ n.nextBlock.2.step ↔ ¬ (n.Midway ∧ n.blockStep + 1 = n.history.blockStepCount) := by
  rcases hl.nextBlock_cases hn with ⟨hlast, -, hon⟩ | ⟨hlast, hnext⟩
  · simp [Nat.le_of_lt hon, Nat.ne_of_lt hlast]
  · rw [hnext, midway_and_last_iff hlast, (hl.step_gotoBlock_blockStep hn).2, Nat.not_lt]

theorem previousBlock_stays_iff (hl : n.Linked) (hn : n.history.Navigable) :
    (n.previousBlock.1 = false → n.previousBlock.2 = n) ↔ ¬ (n.Midway ∧ n.blockStep = 0) := by
  rcases hl.previousBlock_cases hn with ⟨hfirst, hmoved, -⟩ | ⟨hfirst, hprevious⟩
  · simp [hmoved, Nat.ne_of_gt hfirst]
  · rw [and_iff_left hfirst, ← hl.gotoBlock_blockStep_eq_iff hn, hprevious]
    exact imp_iff_right rfl

theorem previousBlock_step_le (hl : n.Linked) (hn : n.history.Navigable) :
    n.previousBlock.2.step ≤ n.step := by
  rcases hl.previousBlock_cases hn with ⟨-, -, hback⟩ | ⟨-, hprevious⟩
  · exact Nat.le_of_lt hback
  · rw [hprevious]
    exact (hl.step_gotoBlock_blockStep hn).1

end Linked

end Navigator

namespace AnalysisKind

variable {k : AnalysisKind} {g : Flowgraph} {h : History k.Value} {n : Navigator k.Value}

theorem navigable_of_records (hg : g.Built) (hh : k.analysis.Records g h) : h.Navigable := by
  obtain ⟨p, hp, hl⟩ := leaves_of_records hg hh
  exact (shaped_of_leaves hg hp hl).navigable

/-- Whatever the moves over the record of a run, the cursors stand on a recorded step and on the one block
step around it, or both on 0 if nothing was recorded. Going to a recorded step or block step lands on it, in
the latter case on its first step; with any other number one lands on the last. -/
theorem cursors_linked (hg : g.Built) (hh : k.analysis.Records g h) (hn : Navigator.Reached h n) :
    n.history = h ∧
    (h.isEmpty = true → n.step = 0 ∧ n.blockStep = 0 ∧ n.snapshot? = none) ∧
    (h.isEmpty = false → n.step < h.size ∧ n.blockStep < h.blockStepCount ∧
      ∀ i, h.Encloses i n.step ↔ i = n.blockStep) ∧
    (∀ s, s < h.size → (n.goto s).step = s) ∧
    (∀ s, h.size ≤ s → (n.goto s).step = h.size - 1) ∧
    (∀ i start, h.blockStart? i = some start →
      (n.gotoBlock i).blockStep = i ∧ (n.gotoBlock i).step = start) ∧
    ∀ i, h.blockStepCount ≤ i → n.gotoBlock i = n.gotoBlock (h.blockStepCount - 1) := by
  have hnav := navigable_of_records hg hh
  obtain ⟨rfl, hl⟩ := hn.linked hnav
  refine ⟨rfl, fun hempty => ?_, fun hne => ?_, fun s hs => Navigator.step_goto_of_lt hs, fun s hs => ?_,
    fun i start hi => ?_, fun i hi => Navigator.gotoBlock_of_le hi⟩
  · exact hl.of_empty hnav (History.isEmpty_iff.1 hempty)
  · have hpos : 0 < n.history.size := by
      rw [Bool.eq_false_iff, ne_eq, History.isEmpty_iff] at hne
      exact Nat.pos_of_ne_zero hne
    have hstep := hl.step_le
    exact ⟨by omega, hl.blockStep_lt hnav hpos, fun i => hl.encloses_iff hnav hpos⟩
  · rw [Navigator.step_goto]
    omega
  · have hstep : (n.goto start).step = start := Navigator.step_goto_of_lt (hnav.start_lt hi)
    rw [Navigator.gotoBlock_eq_goto hnav hi, (Navigator.linked_goto n start).blockStep_eq, hstep]
    exact ⟨hnav.blockStepOf_start hi, rfl⟩

/-- A run stopped in the middle of its only block step, and the whole of it: the last step is found by its
number, and by the number of a block step that there is not. -/
theorem cursors_linked_sheltering :
    (∃ h n, ((Engine.start ⟨LiveVariables.analysis, sheltering, 0⟩ (.naive [])).drive 1).1.history = h ∧
      n = (Navigator.start h).followAll [.goto 7, .previousBlock] ∧ n.step = 0 ∧ h.Encloses 0 n.step) ∧
    ∃ h n, LiveVariables.analysis.runFrom sheltering (.naive []) = .ok h ∧
      n = (Navigator.start h).followAll [.gotoBlock 7, .next] ∧ n.step = 1 ∧ h.Encloses 0 n.step := by
  constructor
  · obtain ⟨-, -, hplaced, -⟩ := cursors_linked (k := liveVariables) sheltering_built (.driven 1 rfl .naive)
      ⟨[.goto 7, .previousBlock], rfl⟩
    obtain ⟨-, -, hencloses⟩ := hplaced rfl
    exact ⟨_, _, rfl, rfl, rfl, (hencloses 0).2 rfl⟩
  · obtain ⟨-, -, hplaced, -⟩ := cursors_linked (k := liveVariables) sheltering_built (.completed .naive rfl)
      ⟨[.gotoBlock 7, .next], rfl⟩
    obtain ⟨-, -, hencloses⟩ := hplaced rfl
    exact ⟨_, _, rfl, rfl, rfl, (hencloses 0).2 rfl⟩

/-- A refused step on or back leaves the cursors where they are, and no step on goes back or the other way
round. A refused block step ends at the start of the block step where it began. So at the last block step a
block step on, and at the first one a block step back, leaves the cursors where they are exactly if they stand
at that start; else the first cursor goes back, which a block step on does in no other case. -/
theorem refused_moves_stay_iff (hg : g.Built) (hh : k.analysis.Records g h) (hn : Navigator.Reached h n) :
    ((n.next.1 = false → n.next.2 = n) ∧ n.step ≤ n.next.2.step) ∧
    ((n.previous.1 = false → n.previous.2 = n) ∧ n.previous.2.step ≤ n.step) ∧
    ((n.nextBlock.1 = false → n.nextBlock.2 = n) ↔
      ¬ (n.Midway ∧ n.blockStep + 1 = h.blockStepCount)) ∧
    (n.step ≤ n.nextBlock.2.step ↔ ¬ (n.Midway ∧ n.blockStep + 1 = h.blockStepCount)) ∧
    ((n.previousBlock.1 = false → n.previousBlock.2 = n) ↔ ¬ (n.Midway ∧ n.blockStep = 0)) ∧
    n.previousBlock.2.step ≤ n.step ∧
    (n.nextBlock.1 = false → n.nextBlock.2 = n.gotoBlock n.blockStep) ∧
    (n.previousBlock.1 = false → n.previousBlock.2 = n.gotoBlock n.blockStep) := by
  have hnav := navigable_of_records hg hh
  obtain ⟨rfl, hl⟩ := hn.linked hnav
  exact ⟨⟨hl.next_of_refused, hl.step_le_next⟩, ⟨hl.previous_of_refused, n.previous_step_le⟩,
    hl.nextBlock_stays_iff hnav, hl.step_le_nextBlock_iff hnav, hl.previousBlock_stays_iff hnav,
    hl.previousBlock_step_le hnav, hl.nextBlock_of_refused hnav, hl.previousBlock_of_refused hnav⟩

/-- In the middle of the only block step, both block steps are refused. -/
theorem refused_moves_stay_iff_sheltering :
    ∃ h n, LiveVariables.analysis.runFrom sheltering (.naive []) = .ok h ∧
      n = (Navigator.start h).followAll [.next] ∧ n.Midway ∧ n.nextBlock.1 = false ∧
      n.nextBlock.2 = n.gotoBlock 0 ∧ ¬ n.step ≤ n.nextBlock.2.step := by
  obtain ⟨-, -, -, hback, -, -, hstart, -⟩ :=
    refused_moves_stay_iff (k := liveVariables) sheltering_built (.completed .naive rfl) ⟨[.next], rfl⟩
  exact ⟨_, _, rfl, rfl, ⟨0, rfl, by decide⟩, rfl, hstart rfl, fun hle =>
    hback.1 hle ⟨⟨0, rfl, by decide⟩, rfl⟩⟩

/-- A block step on that is refused and goes back, and a refused block step back that moves the cursor. -/
theorem refused_block_steps_move :
    ∃ h n, liveVariables.analysis.Records sheltering h ∧ Navigator.Reached h n ∧
      n.nextBlock.1 = false ∧ n.nextBlock.2.step < n.step ∧
      n.previousBlock.1 = false ∧ n.previousBlock.2.step ≠ n.step :=
  ⟨_, _, .completed .naive rfl, ⟨[.next], rfl⟩, rfl, by decide, rfl, by decide⟩

end AnalysisKind

end FlowHistory
