import FlowHistory.History

/-!
Walking through a history with two linked cursors.

One cursor stands on an elementary step, the other on the block step around it. Moving the first
moves the second along; moving the second puts the first on the first step of the block. No move
leaves the recorded steps.
-/
namespace FlowHistory

structure Navigator (V : Type) where
  history : History V
  step : Nat
  blockStep : Nat

namespace Navigator

variable {V : Type}

/-- On the first step. -/
def start (h : History V) : Navigator V := ⟨h, 0, 0⟩

/-- Goes to a step, or to the last one if there are not that many. -/
def goto (n : Navigator V) (step : Nat) : Navigator V :=
  let step := min step (n.history.size - 1)
  { n with step, blockStep := n.history.blockStepOf step }

/-- Goes to the first step of a block step, or of the last one if there are not that many. -/
def gotoBlock (n : Navigator V) (blockStep : Nat) : Navigator V :=
  let blockStep := min blockStep (n.history.blockStepCount - 1)
  { n with step := (n.history.blockStart? blockStep).getD 0, blockStep }

/-- One step on. Says whether there was one. -/
def next (n : Navigator V) : Bool × Navigator V :=
  let m := n.goto (n.step + 1)
  (m.step != n.step, m)

/-- One step back. Says whether there was one. -/
def previous (n : Navigator V) : Bool × Navigator V :=
  let m := n.goto (n.step - 1)
  (m.step != n.step, m)

/-- On to the start of the next block step. Says whether there was one. -/
def nextBlock (n : Navigator V) : Bool × Navigator V :=
  let m := n.gotoBlock (n.blockStep + 1)
  (m.blockStep != n.blockStep, m)

/-- Back to the start of the block step before. Says whether there was one. -/
def previousBlock (n : Navigator V) : Bool × Navigator V :=
  let m := n.gotoBlock (n.blockStep - 1)
  (m.blockStep != n.blockStep, m)

/-- The snapshot under the cursor; an empty history has none. -/
def snapshot? (n : Navigator V) : Option (Snapshot V) := n.history.snapshot? n.step

/-- Whether the instruction under the cursor is marked. -/
def atBreakpoint (n : Navigator V) (marks : Breakpoints) : Bool :=
  match n.snapshot?.bind n.history.site? with
  | some site => marks.isSet site.id
  | none => false

/-- Goes on, at most the given number of steps, until a marked instruction. -/
def seekBreakpoint (marks : Breakpoints) : Nat → Navigator V → Bool × Navigator V
  | 0, n => (false, n)
  | limit + 1, n =>
    let (moved, m) := n.next
    if !moved then (false, m)
    else if m.atBreakpoint marks then (true, m)
    else seekBreakpoint marks limit m

/-- Goes on at least one step, until a marked instruction or the last step. Says whether it stands
on a marked one. -/
def runToBreakpoint (n : Navigator V) (marks : Breakpoints) : Bool × Navigator V :=
  seekBreakpoint marks n.history.size n

def color? (n : Navigator V) (b : Nat) : Option Color := n.snapshot?.bind fun s => s.color? b

/-- The waiting blocks under the cursor. -/
def worklist (n : Navigator V) : List Nat := (n.snapshot?.map Snapshot.worklist).getD []

def blockState? (n : Navigator V) (b : Nat) : Option (BlockState V) :=
  n.snapshot?.bind fun s => s.state? b

/-- The states of the block under the cursor. -/
def current? (n : Navigator V) : Option (BlockState V) := n.snapshot?.bind Snapshot.current?

end Navigator

end FlowHistory
