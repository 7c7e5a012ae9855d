import FlowHistory.Proofs.BlockStep

/-!
# All that an elementary step leaves behind

Whether it begins a visit or carries one on, an elementary step stores the state of one block, may put the
targets of that block on the list, and shows what it leaves. The steps in the order that the list keeps are
a special case, and they are what a driven run is made of.
-/
namespace FlowHistory

/-- What remains of a visit after one more instruction. -/
def Walk.onward {V : Type} (w : Walk V) (current : Env V) : Option (Walk V) :=
  match w.rest with
  | [] => none
  | next :: rest => some { w with current, next, rest }

namespace Engine

variable {V : Type}

/-- The snapshot of the present state, with the cursor at a given place. -/
def view (e : Engine V) (cursor : Cursor) : Snapshot V :=
  ⟨e.queue.toList, e.problem.graph.blockIds.map (e.colorOf cursor.block), e.states, cursor⟩

@[simp] theorem view_worklist (e : Engine V) (c : Cursor) : (e.view c).worklist = e.queue.toList := rfl
@[simp] theorem view_states (e : Engine V) (c : Cursor) : (e.view c).states = e.states := rfl
@[simp] theorem view_cursor (e : Engine V) (c : Cursor) : (e.view c).cursor = c := rfl

/-- A block is taken off the list, with `q` waiting behind it. -/
def entered (e : Engine V) (b : Nat) (q : Worklist) : Engine V :=
  { e with
    queue := q
    visited := e.visited.set b true
    blockStarts := e.blockStarts.push e.snapshots.size }

/-- All but the visit under way: `s` is stored for block `b`, a result that is `renewed` is passed on, and
what comes of it is shown with the cursor at position `i`. -/
structure Stored (e : Engine V) (b i : Nat) (s : BlockState V) (renewed : Bool) (m : Engine V) :
    Prop where
  problem_eq : m.problem = e.problem
  states_eq : m.states = e.states.set b s
  visited_eq : m.visited = e.visited
  queue_eq : m.queue = if renewed then e.queue.addAll (e.problem.targets b) else e.queue
  snapshots_eq : m.snapshots = e.snapshots.push (m.view ⟨b, i⟩)
  starts_eq : m.blockStarts = e.blockStarts

/-- Whether a visit passes a result on: only with its last instruction. -/
def passesOn [DecidableEq V] (w : Walk V) (current : Env V) : Bool :=
  w.rest.isEmpty && (w.firstVisit || current != w.before)

variable [DecidableEq V]

theorem advance_eq_recorded {e m : Engine V} {w : Walk V} (h : e.advance w = .recorded m) :
    ∃ current, e.problem.apply w.next.2 w.current = .ok current ∧ m.walk = w.onward current ∧
      Stored e w.block w.next.1 ⟨w.input, current⟩ (passesOn w current) m := by
  rw [advance] at h
  split at h
  · cases h
  · rename_i current happly
    refine ⟨current, happly, ?_⟩
    rw [Walk.onward, passesOn]
    split at h
    · rename_i hrest
      cases h
      rw [hrest]
      exact ⟨rfl, rfl, rfl, rfl, rfl, rfl, rfl⟩
    · rename_i next rest hrest
      cases h
      rw [hrest]
      exact ⟨rfl, rfl, rfl, rfl, rfl, rfl, rfl⟩

variable [LatticeValue V]

/-- The visit of block `b` that is about to begin. -/
structure Beginning (e : Engine V) (b : Nat) (block : Block) (w : Walk V) : Prop where
  order : e.problem.walkOrder block = w.next :: w.rest
  input_eq : e.problem.inputOf e.states b = .ok w.input
  current_eq : w.current = w.input
  block_eq : w.block = b
  first_eq : w.firstVisit = !(e.visited[b]?.getD false)
  before_eq : w.before = ((e.states[b]?).map BlockState.output).getD w.input

theorem enter_eq_recorded {e m : Engine V} {b : Nat} {q : Worklist} (h : e.enter b q = .recorded m) :
    ∃ block, e.problem.graph.block? b = some block ∧
      ((∃ input, e.problem.walkOrder block = [] ∧ e.problem.inputOf e.states b = .ok input ∧
          m.walk = e.walk ∧ Stored (e.entered b q) b 0 ⟨input, input⟩ (e.renews b input input) m) ∨
        ∃ w, Beginning e b block w ∧ (e.entered b q).advance w = .recorded m) := by
  rw [enter] at h
  split at h
  · cases h
  · rename_i block hblock
    refine ⟨block, Flowgraph.block_eq_ok.1 hblock, ?_⟩
    split at h
    · cases h
    · rename_i input hinput
      split at h
      · rename_i horder
        cases h
        exact .inl ⟨input, horder, hinput, rfl, rfl, rfl, rfl, rfl, rfl, rfl⟩
      · rename_i next rest horder
        exact .inr ⟨_, ⟨horder, hinput, rfl, rfl, rfl, rfl⟩, h⟩

/-- A recorded step stores something from where it stands, or from where the block it takes is off the
list. -/
theorem stored_of_step {e m : Engine V} (h : e.step = .recorded m) : ∃ b i s renewed,
    Stored e b i s renewed m ∨ ∃ q, Stored (e.entered b q) b i s renewed m := by
  rw [step] at h
  split at h
  · obtain ⟨current, -, -, hstored⟩ := advance_eq_recorded h
    exact ⟨_, _, _, _, .inl hstored⟩
  · split at h
    · cases h
    · rename_i b q hpoll
      obtain ⟨block, -, ⟨input, -, -, -, hstored⟩ | ⟨w, hw, hadv⟩⟩ := enter_eq_recorded h
      · exact ⟨_, _, _, _, .inr ⟨q, hstored⟩⟩
      · obtain ⟨current, -, -, hstored⟩ := advance_eq_recorded hadv
        exact ⟨b, _, _, _, .inr ⟨q, hw.block_eq ▸ hstored⟩⟩

/-- A recorded step adds one snapshot, and at most the start of a block step. -/
theorem grows_of_step {e m : Engine V} (h : e.step = .recorded m) :
    m.problem = e.problem ∧ (∃ snap, m.snapshots = e.snapshots.push snap) ∧
      (m.blockStarts = e.blockStarts ∨ m.blockStarts = e.blockStarts.push e.snapshots.size) := by
  obtain ⟨b, i, s, renewed, hstored | ⟨q, hstored⟩⟩ := stored_of_step h
  · exact ⟨hstored.problem_eq, ⟨_, hstored.snapshots_eq⟩, .inl hstored.starts_eq⟩
  · exact ⟨hstored.problem_eq, ⟨_, hstored.snapshots_eq⟩, .inr hstored.starts_eq⟩

/-- Some number of elementary steps, in the order that the list of waiting blocks keeps. -/
inductive Stepped (e : Engine V) : Nat → Engine V → Prop
  | refl : Stepped e 0 e
  | tail {n : Nat} {m m' : Engine V} : Stepped e n m → m.step = .recorded m' → Stepped e (n + 1) m'

namespace Stepped

variable {e m : Engine V} {n : Nat}

theorem ready (he : e.queue.Ready) (h : Stepped e n m) : m.queue.Ready := by
  induction h with
  | refl => exact he
  | tail _ hstep ih => exact ready_step ih hstep

theorem moved (he : e.queue.Ready) (h : Stepped e n m) : Moved e n m := by
  induction h with
  | refl => exact .refl
  | tail hsteps hstep ih =>
    have hmay := step_mayStep (hsteps.ready he)
    rw [hstep] at hmay
    exact .tail ih hmay

/-- Every step adds one snapshot. -/
theorem size_eq (h : Stepped e n m) : m.snapshots.size = e.snapshots.size + n := by
  induction h with
  | refl => rfl
  | tail _ hstep ih =>
    obtain ⟨-, ⟨snap, hsnap⟩, -⟩ := grows_of_step hstep
    rw [hsnap, Array.size_push, ih, Nat.add_assoc]

/-- A driven run gets to every state that steps lead to. -/
theorem drive_eq (h : Stepped e n m) (k : Nat) : e.drive (n + k) = m.drive k := by
  induction h generalizing k with
  | refl => rw [Nat.zero_add]
  | tail _ hstep ih => rw [Nat.add_right_comm, Nat.add_assoc, ih (k + 1), drive, hstep]

end Stepped

end Engine

end FlowHistory
