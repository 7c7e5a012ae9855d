import FlowHistory.Proofs.ElementaryStep
import FlowHistory.Proofs.Recording
import FlowHistory.Proofs.Sessions

/-!
# A history can be checked step by step

Each snapshot of a history follows from those before it: which block was taken and what flowed into it,
what the instruction under the cursor made of that, what waits afterwards, and how the blocks are colored.
The record of a run needs no trust in the run. It is enough to know the graph, the analysis and the
snapshots before.
-/
namespace FlowHistory

namespace Problem

variable {V : Type}

/-- The states after the given snapshots; the seeded ones before any. -/
def tableAfter (p : Problem V) (past : List (Snapshot V)) : List (BlockState V) :=
  match past.getLast? with
  | none => p.analysis.seededStates p.graph p.boundary
  | some last => last.states

/-- The blocks that wait after the given snapshots; just the boundary before any. -/
def waitingAfter (p : Problem V) (past : List (Snapshot V)) : List Nat :=
  match past.getLast? with
  | none => [p.boundary]
  | some last => last.worklist

/-- The block has been under the cursor. -/
def seenIn (past : List (Snapshot V)) (b : Nat) : Bool := past.any fun s => s.cursor.block == b

/-- What the next instruction is applied to, in a block step that began at step `start`: the input of the
block at first, then the result of the instructions so far. -/
def arriving (p : Problem V) (past : List (Snapshot V)) (start b : Nat) (input : Env V) :
    Option (Env V) :=
  if start = past.length then some input else ((p.tableAfter past)[b]?).map BlockState.output

/-- With the present step the last instruction of the block has been walked, or the block is empty. -/
def Finishes (past : List (Snapshot V)) (start : Nat) (block : Block) : Prop :=
  past.length + 1 = start + max 1 block.size

/-- The result is new: this is the first visit of the block, or the result before the visit differs. -/
def Renewed (p : Problem V) (past : List (Snapshot V)) (start b : Nat) (output : Env V) : Prop :=
  seenIn (past.take start) b = false ∨
    ((p.tableAfter (past.take start))[b]?).map BlockState.output ≠ some output

variable [LatticeValue V]

/-- The snapshot follows from those before it, in a block step that began at step `start`. -/
structure Follows (p : Problem V) (past : List (Snapshot V)) (start : Nat) (snap : Snapshot V)
    (block : Block) (s : BlockState V) : Prop where
  lookup : p.graph.block? snap.cursor.block = some block
  state_eq : snap.states[snap.cursor.block]? = some s
  /-- the states of all other blocks are as before -/
  others {c : Nat} : c ≠ snap.cursor.block → snap.states[c]? = (p.tableAfter past)[c]?
  /-- the block is a waiting one when it is taken -/
  taken : start = past.length → snap.cursor.block ∈ p.waitingAfter past
  /-- without sources the input is the seeded one -/
  seeded : start = past.length → p.sources snap.cursor.block = [] →
    ((p.tableAfter [])[snap.cursor.block]?).map BlockState.input = some s.input
  /-- otherwise it is the join of what flows in -/
  joined : start = past.length → p.sources snap.cursor.block ≠ [] →
    Env.joinAll (p.incoming (p.tableAfter past) snap.cursor.block) = .ok s.input
  /-- in the rest of the block step, the block and its input are as before -/
  carried : start < past.length →
    (past.getLast?.map fun last => last.cursor.block) = some snap.cursor.block ∧
      ((p.tableAfter past)[snap.cursor.block]?).map BlockState.input = some s.input
  /-- an empty block passes its input through -/
  idle : block.size = 0 → start = past.length ∧ snap.cursor.index = 0 ∧ s.output = s.input
  /-- the instruction under the cursor is the next one of the walk, and the result is what it makes of the
  state that arrives -/
  walked : block.size ≠ 0 → ∃ site e,
    (p.walkOrder block)[past.length - start]? = some (snap.cursor.index, site) ∧
      p.graph.siteAt? snap.cursor.block snap.cursor.index = some site ∧
      p.arriving past start snap.cursor.block s.input = some e ∧ p.apply site e = .ok s.output
  nodup : snap.worklist.Nodup
  /-- the block no longer waits when it is taken, and its targets wait when it passes on a new result -/
  waiting {c : Nat} : c ∈ snap.worklist ↔
    (c ∈ p.waitingAfter past ∧ (start = past.length → c ≠ snap.cursor.block)) ∨
      (Finishes past start block ∧ p.Renewed past start snap.cursor.block s.output ∧
        c ∈ p.targets snap.cursor.block)
  colors : snap.colors = p.graph.blockIds.map fun c =>
    if c = snap.cursor.block then .current
    else if c ∈ snap.worklist then .onWorklist
    else if seenIn past c then .visited
    else .notVisited

/-- The block step of step `k` began at step `start`. -/
def IsStart (starts : List Nat) (k start : Nat) : Prop :=
  start ∈ starts ∧ start ≤ k ∧ ∀ j ∈ starts, j ≤ k → j ≤ start

/-- Every snapshot follows from those before it. -/
def Replays (p : Problem V) (snapshots : List (Snapshot V)) (starts : List Nat) : Prop :=
  ∀ k snap, snapshots[k]? = some snap → ∃ start block s, IsStart starts k start ∧
    p.Follows (snapshots.take k) start snap block s

section

variable {p : Problem V} {past : List (Snapshot V)} {starts : List Nat} {snap : Snapshot V}

omit [LatticeValue V] in
theorem tableAfter_concat : p.tableAfter (past ++ [snap]) = snap.states := by
  simp [tableAfter]

omit [LatticeValue V] in
theorem waitingAfter_concat : p.waitingAfter (past ++ [snap]) = snap.worklist := by
  simp [waitingAfter]

omit [LatticeValue V] in
theorem seenIn_iff {b : Nat} : seenIn past b = true ↔ ∃ s ∈ past, s.cursor.block = b := by
  simp [seenIn]

/-- The start of a further block step changes nothing for the steps before. -/
theorem Replays.push_start (h : p.Replays past starts) : p.Replays past (starts ++ [past.length]) := by
  intro k snap hsnap
  obtain ⟨start, block, s, ⟨hmem, hle, hmax⟩, hfollows⟩ := h k snap hsnap
  have hk := (List.getElem?_eq_some_iff.1 hsnap).1
  refine ⟨start, block, s, ⟨List.mem_append_left _ hmem, hle, fun j hj hjk => ?_⟩, hfollows⟩
  rcases List.mem_append.1 hj with hj | hj
  · exact hmax j hj hjk
  · have := List.mem_singleton.1 hj
    omega

theorem Replays.push (h : p.Replays past starts) {start : Nat} {block : Block} {s : BlockState V}
    (hstart : IsStart starts past.length start) (hfollows : p.Follows past start snap block s) :
    p.Replays (past ++ [snap]) starts := by
  intro k snap' hsnap
  by_cases hk : k < past.length
  · rw [List.getElem?_append_left hk] at hsnap
    rw [List.take_append_of_le_length (Nat.le_of_lt hk)]
    exact h k snap' hsnap
  · have hlen := (List.getElem?_eq_some_iff.1 hsnap).1
    rw [List.length_append, List.length_singleton] at hlen
    obtain rfl : k = past.length := by omega
    rw [List.getElem?_concat_length, Option.some.injEq] at hsnap
    subst hsnap
    rw [List.take_left]
    exact ⟨start, block, s, hstart, hfollows⟩

end

end Problem

namespace Engine

variable {V : Type} [DecidableEq V] [LatticeValue V]

/-- The iteration where the block step of `b` that began at step `start` comes to its next instruction. -/
structure Poised (p : Problem V) (past : List (Snapshot V)) (start b : Nat) (e : Engine V) : Prop where
  problem_eq : e.problem = p
  past_eq : e.snapshots.toList = past
  replays : p.Replays past e.blockStarts.toList
  mem_start : start ∈ e.blockStarts.toList
  start_le : start ≤ past.length
  starts_le {j : Nat} : j ∈ e.blockStarts.toList → j ≤ start
  table_eq : e.states = p.tableAfter past
  nodup : e.queue.toList.Nodup
  waiting {c : Nat} : c ∈ e.queue.toList ↔
    c ∈ p.waitingAfter past ∧ (start = past.length → c ≠ b)
  taken : start = past.length → b ∈ p.waitingAfter past
  seen_iff {c : Nat} : c ≠ b → (e.visited[c]?.getD false = true ↔ Problem.seenIn past c = true)

/-- The visit `w` of a block step that began at step `start`. -/
structure Underway (p : Problem V) (past : List (Snapshot V)) (start : Nat) (block : Block) (w : Walk V) :
    Prop where
  lookup : p.graph.block? w.block = some block
  order : (p.walkOrder block).drop (past.length - start) = w.next :: w.rest
  begun : start = past.length → p.inputOf (p.tableAfter past) w.block = .ok w.input ∧
    w.current = w.input
  carried : start < past.length →
    (past.getLast?.map fun last => last.cursor.block) = some w.block ∧
      (p.tableAfter past)[w.block]? = some ⟨w.input, w.current⟩
  first_iff : w.firstVisit = true ↔ Problem.seenIn (past.take start) w.block = false
  before_eq : ((p.tableAfter (past.take start))[w.block]?).map BlockState.output = some w.before

/-- What elementary steps keep: the record replays up to where the iteration stands. -/
structure Replayed (p : Problem V) (e : Engine V) : Prop where
  problem_eq : e.problem = p
  replays : p.Replays e.snapshots.toList e.blockStarts.toList
  table_eq : e.states = p.tableAfter e.snapshots.toList
  waiting_eq : e.queue.toList = p.waitingAfter e.snapshots.toList
  nodup : e.queue.toList.Nodup
  starts_lt {j : Nat} : j ∈ e.blockStarts.toList → j < e.snapshots.toList.length
  walking {w : Walk V} : e.walk = some w → ∃ start block,
    start < e.snapshots.toList.length ∧
    Problem.IsStart e.blockStarts.toList e.snapshots.toList.length start ∧
    Underway p e.snapshots.toList start block w

section

variable {p : Problem V} {past : List (Snapshot V)} {start b i : Nat} {e m : Engine V} {block : Block}
  {s : BlockState V} {w : Walk V} {renewed : Bool}

omit [DecidableEq V] in
/-- What is stored at such a moment makes a snapshot that follows, once the input and the output are
accounted for. -/
theorem Poised.follows (h : Poised p past start b e) (hstored : Stored e b i s renewed m)
    (hlookup : p.graph.block? b = some block) (hlt : b < e.states.length)
    (hrenewed : renewed = true ↔ Problem.Finishes past start block ∧ p.Renewed past start b s.output)
    (hbegun : start = past.length → p.inputOf (p.tableAfter past) b = .ok s.input)
    (hcarried : start < past.length →
      (past.getLast?.map fun last => last.cursor.block) = some b ∧
        ((p.tableAfter past)[b]?).map BlockState.input = some s.input)
    (hidle : block.size = 0 → start = past.length ∧ i = 0 ∧ s.output = s.input)
    (hwalked : block.size ≠ 0 → ∃ site e, (p.walkOrder block)[past.length - start]? = some (i, site) ∧
      p.graph.siteAt? b i = some site ∧ p.arriving past start b s.input = some e ∧
      p.apply site e = .ok s.output) :
    p.Follows past start (m.view ⟨b, i⟩) block s where
  lookup := hlookup
  state_eq := by rw [view_states, view_cursor, hstored.states_eq, List.getElem?_set_self hlt]
  others {c} hc := by
    rw [view_cursor] at hc
    rw [view_states, hstored.states_eq, List.getElem?_set_ne (Ne.symm hc), h.table_eq]
  taken := h.taken
  seeded hstart hnil := by
    rw [view_cursor] at hnil ⊢
    have hinput := hbegun hstart
    rw [Problem.inputOf_of_sources_nil hnil, Except.ok.injEq] at hinput
    have hblock : b < p.graph.blockCount := (List.getElem?_eq_some_iff.1 hlookup).1
    change ((Engine.start p (.naive [])).states[b]?).map BlockState.input = _
    rw [states_start, if_pos hblock, ← hinput]
    rfl
  joined hstart hne := by
    rw [view_cursor] at hne ⊢
    rw [← Problem.inputOf_of_sources_ne_nil hne]
    exact hbegun hstart
  carried := hcarried
  idle := hidle
  walked := hwalked
  nodup := by
    rw [view_worklist, hstored.queue_eq]
    split
    · exact Worklist.nodup_addAll h.nodup _
    · exact h.nodup
  waiting {c} := by
    simp only [view_worklist, view_cursor]
    rw [hstored.queue_eq, h.problem_eq, ← and_assoc, ← hrenewed, ← h.waiting]
    cases renewed <;> simp [Worklist.mem_addAll]
  colors := by
    change m.problem.graph.blockIds.map (m.colorOf b) = _
    rw [hstored.problem_eq, h.problem_eq]
    refine List.map_congr_left fun c _ => ?_
    rw [colorOf, view_cursor, view_worklist, hstored.visited_eq]
    by_cases hc : c = b
    · simp only [hc, if_true]
    · have hseen := Bool.eq_iff_iff.2 (h.seen_iff hc)
      simp only [hc, if_false, hseen, Worklist.contains, List.contains_iff_mem]

omit [DecidableEq V] in
theorem Poised.replayed (h : Poised p past start b e) (hstored : Stored e b i s renewed m)
    (hfollows : p.Follows past start (m.view ⟨b, i⟩) block s)
    (hwalk : ∀ w, m.walk = some w → Underway p (past ++ [m.view ⟨b, i⟩]) start block w) :
    Replayed p m := by
  have hsnapshots : m.snapshots.toList = past ++ [m.view ⟨b, i⟩] := by
    rw [hstored.snapshots_eq, Array.toList_push, h.past_eq]
  have hisStart : ∀ k, start ≤ k → Problem.IsStart e.blockStarts.toList k start := fun k hk =>
    ⟨h.mem_start, hk, fun j hj _ => h.starts_le hj⟩
  have hle := h.start_le
  constructor
  · exact hstored.problem_eq.trans h.problem_eq
  · rw [hsnapshots, hstored.starts_eq]
    exact h.replays.push (hisStart _ hle) hfollows
  · rw [hsnapshots, Problem.tableAfter_concat]
    rfl
  · rw [hsnapshots, Problem.waitingAfter_concat]
    rfl
  · exact hfollows.nodup
  · intro j hj
    rw [hstored.starts_eq] at hj
    have := h.starts_le hj
    rw [hsnapshots, List.length_append, List.length_singleton]
    omega
  · intro w hw
    refine ⟨start, block, ?_, ?_, hsnapshots ▸ hwalk w hw⟩
    · rw [hsnapshots, List.length_append, List.length_singleton]
      omega
    · rw [hstored.starts_eq, hsnapshots, List.length_append]
      exact hisStart _ (by omega)

omit [DecidableEq V] in
/-- What remains to be walked includes the present instruction. -/
theorem Underway.size_eq (h : Underway p past start block w) :
    block.size = past.length - start + 1 + w.rest.length := by
  have hlen := congrArg List.length h.order
  rw [List.length_drop, Problem.length_walkOrder, List.length_cons] at hlen
  omega

omit [DecidableEq V] in
theorem Underway.next_eq (h : Underway p past start block w) :
    (p.walkOrder block)[past.length - start]? = some w.next := by
  have hnext := congrArg (fun l => l[0]?) h.order
  simpa using hnext

/-- One more instruction of a visit keeps the record replaying. -/
theorem Underway.advance (hu : Underway p past start block w) (h : Poised p past start w.block e)
    (hlt : w.block < e.states.length) (hadv : e.advance w = .recorded m) : Replayed p m := by
  obtain ⟨current, happly, hwalk, hstored⟩ := advance_eq_recorded hadv
  have hsize := hu.size_eq
  have hstart := h.start_le
  have hnext := hu.next_eq
  have hsite := Problem.getElem?_of_mem_walkOrder (List.mem_of_getElem? hnext)
  have hfinishes : Problem.Finishes past start block ↔ w.rest = [] := by
    rw [Problem.Finishes, ← List.length_eq_zero_iff]
    omega
  have harriving : p.arriving past start w.block w.input = some w.current := by
    rw [Problem.arriving]
    split
    · rename_i heq
      rw [(hu.begun heq).2]
    · rw [(hu.carried (by omega)).2]
      rfl
  have hfollows := h.follows hstored hu.lookup hlt (by
      rw [hfinishes, Problem.Renewed, ← hu.first_iff, hu.before_eq]
      simp [passesOn, ne_comm])
    (fun heq => (hu.begun heq).1) (fun hlt => by simp [hu.carried hlt]) (fun hzero => by omega)
    (fun _ => ⟨w.next.2, w.current, hnext, by rw [Flowgraph.siteAt?, hu.lookup]; exact hsite,
      harriving, h.problem_eq ▸ happly⟩)
  refine h.replayed hstored hfollows fun w' hw' => ?_
  rw [hwalk, Walk.onward] at hw'
  split at hw'
  · cases hw'
  · rename_i next rest hrest
    cases hw'
    have htake : (past ++ [m.view ⟨w.block, w.next.1⟩]).take start = past.take start :=
      List.take_append_of_le_length hstart
    refine ⟨hu.lookup, ?_, fun heq => ?_, fun _ => ⟨?_, ?_⟩, ?_, ?_⟩
    · rw [List.length_append, List.length_singleton, Nat.sub_add_comm hstart, ← List.drop_drop,
        hu.order, hrest]
      rfl
    · rw [List.length_append, List.length_singleton] at heq
      omega
    · rw [List.getLast?_concat]
      rfl
    · rw [Problem.tableAfter_concat]
      exact hfollows.state_eq
    · rw [htake]
      exact hu.first_iff
    · rw [htake]
      exact hu.before_eq

omit [DecidableEq V] [LatticeValue V] in
theorem Noted.seenIn_eq (h : Noted p e) (b : Nat) :
    Problem.seenIn e.snapshots.toList b = e.visited[b]?.getD false := by
  rw [Bool.eq_iff_iff, Problem.seenIn_iff, h.seen_iff]
  cases e.visited[b]? <;> simp

omit [DecidableEq V] in
/-- With a waiting block taken off the list, a new block step is about to begin. -/
theorem Replayed.poised {q : Worklist} (h : Replayed p e) (hnoted : Noted p e)
    (hperm : (b :: q.toList).Perm e.queue.toList) :
    Poised p e.snapshots.toList e.snapshots.toList.length b (e.entered b q) := by
  have hnodup := hperm.nodup_iff.2 h.nodup
  obtain ⟨hb, hq⟩ := List.nodup_cons.1 hnodup
  have hstarts : (e.entered b q).blockStarts.toList =
      e.blockStarts.toList ++ [e.snapshots.toList.length] := by
    simp [entered]
  constructor
  · exact h.problem_eq
  · rfl
  · rw [hstarts]
    exact h.replays.push_start
  · simp [hstarts]
  · exact Nat.le_refl _
  · intro j hj
    rw [hstarts] at hj
    rcases List.mem_append.1 hj with hj | hj
    · exact Nat.le_of_lt (h.starts_lt hj)
    · exact Nat.le_of_eq (List.mem_singleton.1 hj)
  · exact h.table_eq
  · exact hq
  · intro c
    rw [← h.waiting_eq, ← hperm.mem_iff, List.mem_cons]
    change c ∈ q.toList ↔ _
    constructor
    · intro hc
      exact ⟨.inr hc, fun _ => by rintro rfl; exact hb hc⟩
    · rintro ⟨rfl | hc, hne⟩
      · exact absurd rfl (hne rfl)
      · exact hc
  · intro _
    rw [← h.waiting_eq]
    exact hperm.subset List.mem_cons_self
  · intro c hc
    rw [hnoted.seenIn_eq, entered, List.getElem?_set_ne (Ne.symm hc)]

omit [DecidableEq V] in
/-- In the middle of a visit, the block step that it belongs to goes on. -/
theorem Replayed.poised_walk (h : Replayed p e) (hnoted : Noted p e)
    (hlt : start < e.snapshots.toList.length)
    (hstart : Problem.IsStart e.blockStarts.toList e.snapshots.toList.length start) :
    Poised p e.snapshots.toList start b e := by
  obtain ⟨hmem, hle, hmax⟩ := hstart
  constructor
  · exact h.problem_eq
  · rfl
  · exact h.replays
  · exact hmem
  · exact hle
  · intro j hj
    exact hmax j hj (Nat.le_of_lt (h.starts_lt hj))
  · exact h.table_eq
  · exact h.nodup
  · intro c
    rw [h.waiting_eq]
    exact ⟨fun hc => ⟨hc, fun heq => by omega⟩, fun hc => hc.1⟩
  · intro heq
    omega
  · intro c _
    rw [hnoted.seenIn_eq]

/-- A block step that is about to begin, with an instruction to walk. -/
theorem Replayed.underway (h : Replayed p e) (hnoted : Noted p e) (hlookup : p.graph.block? b = some block)
    (hlt : b < e.states.length) (hw : Beginning e b block w) :
    Underway p e.snapshots.toList e.snapshots.toList.length block w := by
  obtain ⟨horder, hinput, hcurrent, rfl, hfirst, hbefore⟩ := hw
  rw [h.problem_eq] at horder hinput
  refine ⟨hlookup, ?_, fun _ => ⟨h.table_eq ▸ hinput, hcurrent⟩, fun hlt => by omega, ?_, ?_⟩
  · rw [Nat.sub_self, List.drop_zero, horder]
  · rw [List.take_length, hnoted.seenIn_eq, hfirst, Bool.not_eq_true']
  · rw [List.take_length, ← h.table_eq, hbefore, List.getElem?_eq_getElem hlt]
    rfl

/-- A visit of an empty block is over with its first step. -/
theorem Replayed.enter_empty {q : Worklist} {input : Env V} (h : Replayed p e) (hnoted : Noted p e)
    (hperm : (b :: q.toList).Perm e.queue.toList) (hlookup : p.graph.block? b = some block)
    (hlt : b < e.states.length) (hempty : p.walkOrder block = [])
    (hinput : p.inputOf e.states b = .ok input) (hwalk : m.walk = none)
    (hstored : Stored (e.entered b q) b 0 ⟨input, input⟩ (e.renews b input input) m) :
    Replayed p m := by
  have hpoised := h.poised hnoted hperm
  have hsize : block.size = 0 := by rw [← p.length_walkOrder, hempty]; rfl
  have hfollows := hpoised.follows hstored hlookup hlt (by
      rw [Problem.Finishes, hsize, Problem.Renewed, List.take_length, hnoted.seenIn_eq, ← h.table_eq,
        renews, List.getElem?_eq_getElem hlt]
      simp [ne_comm])
    (fun _ => h.table_eq ▸ hinput) (fun hlt => absurd hlt (Nat.lt_irrefl _)) (fun _ => ⟨rfl, rfl, rfl⟩)
    (fun hne => absurd hsize hne)
  refine hpoised.replayed hstored hfollows fun w hw => ?_
  rw [hwalk] at hw
  cases hw

theorem Replayed.step (h : Replayed p e) (hnoted : Noted p e) (hstep : MayStep e (.recorded m)) :
    Replayed p m := by
  have hblock : ∀ {b block}, p.graph.block? b = some block → b < e.states.length := fun hlookup =>
    hnoted.states_length ▸ (List.getElem?_eq_some_iff.1 hlookup).1
  generalize hm : Step.recorded m = step at hstep
  cases hstep with
  | @advance w hw =>
    obtain ⟨start, block, hlt, hstart, hu⟩ := h.walking hw
    exact hu.advance (h.poised_walk hnoted hlt hstart) (hblock hu.lookup) hm.symm
  | @enter b q hidle hperm =>
    obtain ⟨block, hlookup, hcases⟩ := enter_eq_recorded hm.symm
    rw [h.problem_eq] at hlookup hcases
    rcases hcases with ⟨input, hempty, hinput, hwalk, hstored⟩ | ⟨w, hw, hadv⟩
    · exact h.enter_empty hnoted hperm hlookup (hblock hlookup) hempty hinput (hwalk.trans hidle) hstored
    · have hu := h.underway hnoted hlookup (hblock hlookup) hw
      have hpoised := h.poised hnoted hperm
      rw [← hw.block_eq] at hpoised hadv
      exact hu.advance hpoised (hblock hu.lookup) hadv
  | settle _ _ => cases hm

omit [DecidableEq V] in
theorem replayed_start (p : Problem V) {q : Worklist} (hq : q.Fresh) :
    Replayed p (Engine.start p q) := by
  have hqueue : (Engine.start p q).queue.toList = [p.boundary] := by
    simp [Engine.start, Worklist.toList_add, hq.toList_eq]
  refine ⟨rfl, fun k snap hsnap => ?_, rfl, hqueue, ?_, fun hj => ?_, fun hw => ?_⟩
  · simp [Engine.start] at hsnap
  · simp [hqueue]
  · simp [Engine.start] at hj
  · cases hw

/-- Whichever waiting blocks are taken, the record replays at every moment. -/
theorem Moved.replayed {n : Nat} {q : Worklist} (hp : p.Sound) (hq : q.Fresh)
    (h : Moved (Engine.start p q) n m) : Replayed p m := by
  induction h with
  | refl => exact replayed_start p hq
  | tail hmoved hstep ih => exact ih.step (hmoved.noted hp hq) hstep

end

end Engine

namespace AnalysisKind

variable {k : AnalysisKind} {g : Flowgraph} {p : Problem k.Value}

/-- Every history replays, whatever the order of the visits: that of a run driven for any number of steps,
that of a completed run, and whatever a steered session holds as its record or gives to its clients. -/
theorem histories_replay (hg : g.Built) (hp : Problem.create k.analysis g = .ok p) :
    (∀ q, q.Fresh → ∀ n, p.Replays ((Engine.start p q).drive n).1.snapshots.toList
      ((Engine.start p q).drive n).1.blockStarts.toList) ∧
    (∀ q h, q.Fresh → k.analysis.runFrom g q = .ok h →
      p.Replays h.snapshots.toList h.blockStarts.toList) ∧
    ∀ q s h, Session.Reached k.analysis g q s →
      s.worker.record? = some h ∨ s.controller.result = .ok h →
      p.Replays h.snapshots.toList h.blockStarts.toList := by
  have hsound := Problem.sound_of_create hg hp
  have hdriven : ∀ q, q.Fresh → ∀ n, p.Replays ((Engine.start p q).drive n).1.snapshots.toList
      ((Engine.start p q).drive n).1.blockStarts.toList := by
    intro q hq n
    obtain ⟨i, hmoved⟩ := Engine.moved_drive (p := p) hq n
    exact (hmoved.replayed hsound hq).replays
  refine ⟨hdriven, fun q h hq hrun => ?_, fun q s h hs hr => ?_⟩
  · rw [Analysis.runFrom_of_create hp] at hrun
    have hengine : h = (Run.ofQueue p q).engine.history := by
      simp only [Run.outcome] at hrun
      split at hrun
      · cases hrun
      · exact (Except.ok.inj hrun).symm
    rw [hengine]
    exact hdriven q hq (p.analysis.budget p.graph)
  · obtain ⟨p', n, e, hp', hsteps, rfl⟩ := hs.exists_stepped (hs.record_of_held hr)
    rw [hp] at hp'
    cases hp'
    have hmoved := hsteps.moved (Worklist.ready_add hs.fresh.ready p.boundary)
    exact (hmoved.replayed hsound hs.fresh).replays

/-- The loop is replayed in a random order, up to the fixpoint. -/
theorem histories_replay_doubling :
    ∃ h last, constantFolding.analysis.run doubling ⟨.random, some 7⟩ = .ok h ∧ h.last? = some last ∧
      Problem.Replays ⟨constantFolding.analysis, doubling, 0⟩ h.snapshots.toList
        h.blockStarts.toList := by
  obtain ⟨h, hrun⟩ := exists_run_doubling .constantFolding ⟨.random, some 7⟩
  have hfresh := Config.worklist_fresh ⟨.random, some 7⟩
  obtain ⟨last, hlast, -⟩ := constantFolding.lawful.solution_of_run doubling_built rfl hfresh hrun
  have hreplays := (histories_replay (k := constantFolding) doubling_built rfl).2.1 _ h hfresh hrun
  exact ⟨h, last, hrun, hlast, hreplays⟩

end AnalysisKind

end FlowHistory
