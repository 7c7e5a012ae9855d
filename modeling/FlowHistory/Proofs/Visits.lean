import FlowHistory.Proofs.Recording
import FlowHistory.Proofs.SteeredHistory

/-!
# A record is made of visits

The steps of a record fall into block steps, one after the other. Each of them stays in one block and goes
over its positions in the direction of the analysis, over all of them unless it is the last one and the run
was stopped in the middle of it. No block step is empty: the start of a block step is noted together with
its first snapshot, so the starts increase and every step belongs to exactly one of them.
-/
namespace FlowHistory

namespace Direction

/-- The positions of a block with `n` instructions in the order of the walk; an empty block counts as
having one. -/
def positions : Direction → Nat → List Nat
  | .forward, n => List.range (max 1 n)
  | .backward, n => (List.range (max 1 n)).reverse

/-- The cursors of a whole visit of block `b` with `n` instructions. -/
def tour (d : Direction) (b n : Nat) : List Cursor := (d.positions n).map (Cursor.mk b)

@[simp] theorem length_tour (d : Direction) (b n : Nat) : (d.tour b n).length = max 1 n := by
  cases d <;> simp [tour, positions]

theorem tour_zero (d : Direction) (b : Nat) : d.tour b 0 = [⟨b, 0⟩] := by
  cases d <;> rfl

theorem block_of_mem_tour {d : Direction} {b n : Nat} {c : Cursor} (h : c ∈ d.tour b n) : c.block = b := by
  obtain ⟨i, -, rfl⟩ := List.mem_map.1 h
  rfl

end Direction

/-- The instructions of a block are walked in the order of its positions. -/
theorem Problem.map_walkOrder {V : Type} (p : Problem V) {block : Block} (hne : block.size ≠ 0) (b : Nat) :
    (p.walkOrder block).map (fun q => Cursor.mk b q.1) = p.direction.tour b block.size := by
  have hmax : max 1 block.size = block.size := by omega
  have hfst : (block.sites.zipIdx.map fun q => (q.2, q.1)).map Prod.fst = List.range block.size := by
    rw [List.map_map, List.range_eq_range']
    simp [Block.sites, Block.size, Function.comp_def]
  have hcursor : ∀ l : List (Nat × Site), l.map (fun q => Cursor.mk b q.1) =
      (l.map Prod.fst).map (Cursor.mk b) := by
    intro l
    rw [List.map_map]
    rfl
  rw [hcursor, walkOrder, Direction.tour]
  cases p.direction with
  | forward =>
    simp only [Direction.positions, hmax]
    rw [hfst]
  | backward =>
    simp only [Direction.positions, hmax, List.map_reverse]
    rw [hfst]

/-! Parts of a list, and where they start in it. -/

section

variable {α : Type}

/-- Where each of the parts starts in all of them put together. -/
def offsets (parts : List (List α)) : List Nat :=
  (List.range parts.length).map fun i => (parts.take i).flatten.length

@[simp] theorem length_offsets (parts : List (List α)) : (offsets parts).length = parts.length := by
  simp [offsets]

theorem getElem?_offsets {parts : List (List α)} {i : Nat} (h : i < parts.length) :
    (offsets parts)[i]? = some (parts.take i).flatten.length := by
  simp [offsets, List.getElem?_range h]

theorem offsets_concat (parts : List (List α)) (part : List α) :
    offsets (parts ++ [part]) = offsets parts ++ [parts.flatten.length] := by
  have htake : ∀ i ∈ List.range parts.length,
      ((parts ++ [part]).take i).flatten.length = (parts.take i).flatten.length := by
    intro i hi
    rw [List.take_append_of_le_length (Nat.le_of_lt (List.mem_range.1 hi))]
  simp only [offsets, List.length_append, List.length_singleton, List.range_succ, List.map_append,
    List.map_singleton, List.map_congr_left htake, List.take_left]

theorem offsets_lt {parts : List (List α)} (hne : [] ∉ parts) {start : Nat}
    (h : start ∈ offsets parts) : start < parts.flatten.length := by
  obtain ⟨i, hi, rfl⟩ := List.mem_map.1 h
  have hlt := List.mem_range.1 hi
  have hpos : 0 < parts[i].length := by
    apply List.length_pos_of_ne_nil
    intro hnil
    exact hne (hnil ▸ List.getElem_mem hlt)
  have hsplit := congrArg (fun l => l.flatten.length) (List.take_append_drop i parts)
  simp only [List.drop_eq_getElem_cons hlt, List.flatten_append, List.flatten_cons,
    List.length_append] at hsplit
  omega

/-- Where no part is empty, each starts after the one before. -/
theorem pairwise_offsets {parts : List (List α)} (hne : [] ∉ parts) :
    (offsets parts).Pairwise (· < ·) := by
  induction parts using List.reverseRecOn with
  | nil => exact .nil
  | append_singleton parts part ih =>
    rw [List.mem_append, not_or] at hne
    rw [offsets_concat, List.pairwise_append]
    refine ⟨ih hne.1, List.pairwise_singleton _ _, fun start hstart stop hstop => ?_⟩
    rw [List.mem_singleton.1 hstop]
    exact offsets_lt hne.1 hstart

/-- A part is what stands between its start and its end. -/
theorem extract_flatten {parts : List (List α)} {i : Nat} {part : List α} (h : parts[i]? = some part) :
    parts.flatten.extract (parts.take i).flatten.length (parts.take (i + 1)).flatten.length = part := by
  obtain ⟨hlt, rfl⟩ := List.getElem?_eq_some_iff.1 h
  have hnext : (parts.take (i + 1)).flatten.length =
      (parts.take i).flatten.length + parts[i].length := by
    rw [List.take_succ_eq_append_getElem hlt, List.flatten_append, List.length_append]
    simp
  have hsplit := congrArg List.flatten (List.take_append_drop i parts)
  rw [List.drop_eq_getElem_cons hlt, List.flatten_append, List.flatten_cons] at hsplit
  rw [List.extract_eq_take_drop, ← hsplit, List.drop_left, hnext, Nat.add_sub_cancel_left, List.take_left]

end

namespace History

variable {V : Type}

/-- Where a block step ends: with the start of the next one, or with the record. -/
def blockEnd (h : History V) (i : Nat) : Nat := (h.blockStart? (i + 1)).getD h.size

/-- The snapshots of a block step. -/
def visit (h : History V) (i : Nat) : List (Snapshot V) :=
  match h.blockStart? i with
  | some start => h.snapshots.toList.extract start (h.blockEnd i)
  | none => []

theorem lt_of_mem_visit {h : History V} {i : Nat} {s : Snapshot V} (hs : s ∈ h.visit i) :
    i < h.blockStepCount := by
  by_contra hge
  have hnone : h.blockStart? i = none := Array.getElem?_eq_none (Nat.le_of_not_lt hge)
  rw [visit, hnone] at hs
  cases hs

def cursors (h : History V) (i : Nat) : List Cursor := (h.visit i).map Snapshot.cursor

/-- The block step goes over a whole block. -/
def Whole (h : History V) (g : Flowgraph) (d : Direction) (i : Nat) : Prop :=
  ∃ b block, g.block? b = some block ∧ h.cursors i = d.tour b block.size

/-- The block step goes over the first positions of a block, one of them at least. -/
def Begun (h : History V) (g : Flowgraph) (d : Direction) (i : Nat) : Prop :=
  ∃ b block, g.block? b = some block ∧ h.cursors i ≠ [] ∧ h.cursors i <+: d.tour b block.size

/-- The record falls into block steps that are not empty, all whole but perhaps the last. -/
structure Shaped (h : History V) (g : Flowgraph) (d : Direction) : Prop where
  increasing : h.blockStarts.toList.Pairwise (· < ·)
  begins : h.isEmpty = false → h.blockStart? 0 = some 0
  begun {i : Nat} : i < h.blockStepCount → h.Begun g d i
  whole {i : Nat} : i + 1 < h.blockStepCount → h.Whole g d i

/-- Two whole block steps at one block are equally long. -/
theorem Whole.length_eq {h : History V} {g : Flowgraph} {d : Direction} {i j : Nat} {s t : Snapshot V}
    (hi : h.Whole g d i) (hj : h.Whole g d j) (hs : s ∈ h.visit i) (ht : t ∈ h.visit j)
    (hblock : s.cursor.block = t.cursor.block) : (h.visit i).length = (h.visit j).length := by
  obtain ⟨b, block, hlookup, hcursors⟩ := hi
  obtain ⟨c, block', hlookup', hcursors'⟩ := hj
  have hs' : s.cursor ∈ d.tour b block.size := hcursors ▸ List.mem_map_of_mem hs
  have ht' : t.cursor ∈ d.tour c block'.size := hcursors' ▸ List.mem_map_of_mem ht
  have hbc : b = c := by
    rw [← Direction.block_of_mem_tour hs', ← Direction.block_of_mem_tour ht', hblock]
  subst hbc
  rw [hlookup, Option.some.injEq] at hlookup'
  subst hlookup'
  have hlen := congrArg List.length (hcursors.trans hcursors'.symm)
  rwa [cursors, cursors, List.length_map, List.length_map] at hlen

/-- The number of instructions of the block that a block step visits. -/
def visitedSize (h : History V) (g : Flowgraph) (i : Nat) : Nat :=
  (((h.visit i).head?).bind fun s => g.block? s.cursor.block).elim 0 Block.size

/-- All block steps are whole, and together they make up the record. -/
structure Complete (h : History V) (g : Flowgraph) (d : Direction) : Prop extends h.Shaped g d where
  all_whole {i : Nat} : i < h.blockStepCount → h.Whole g d i
  size_eq : h.size = ((List.range h.blockStepCount).map fun i => max 1 (h.visitedSize g i)).sum

/-- The snapshots and starts are those of the given parts. -/
structure Divided (h : History V) (parts : List (List (Snapshot V))) : Prop where
  snapshots_eq : h.snapshots.toList = parts.flatten
  starts_eq : h.blockStarts.toList = offsets parts

section

variable {h : History V} {parts : List (List (Snapshot V))}

theorem Divided.blockStepCount_eq (hd : h.Divided parts) : h.blockStepCount = parts.length := by
  have hlen := congrArg List.length hd.starts_eq
  rwa [Array.length_toList, length_offsets] at hlen

theorem Divided.size_eq (hd : h.Divided parts) : h.size = parts.flatten.length := by
  rw [← hd.snapshots_eq, Array.length_toList]
  rfl

theorem Divided.blockStart?_eq (hd : h.Divided parts) {i : Nat} (hi : i < parts.length) :
    h.blockStart? i = some (parts.take i).flatten.length := by
  rw [blockStart?, ← Array.getElem?_toList, hd.starts_eq, getElem?_offsets hi]

theorem Divided.blockEnd_eq (hd : h.Divided parts) {i : Nat} (hi : i < parts.length) :
    h.blockEnd i = (parts.take (i + 1)).flatten.length := by
  by_cases hnext : i + 1 < parts.length
  · rw [blockEnd, hd.blockStart?_eq hnext]
    rfl
  · have hnone : h.blockStart? (i + 1) = none := by
      rw [blockStart?, ← Array.getElem?_toList, hd.starts_eq]
      exact List.getElem?_eq_none (by rw [length_offsets]; omega)
    rw [blockEnd, hnone, List.take_of_length_le (by omega)]
    exact hd.size_eq

/-- The parts are the block steps. -/
theorem Divided.visit_eq (hd : h.Divided parts) {i : Nat} {part : List (Snapshot V)}
    (hpart : parts[i]? = some part) : h.visit i = part := by
  have hi := (List.getElem?_eq_some_iff.1 hpart).1
  rw [visit, hd.blockStart?_eq hi, hd.blockEnd_eq hi, hd.snapshots_eq]
  exact extract_flatten hpart

theorem Divided.begins (hd : h.Divided parts) (hne : h.isEmpty = false) : h.blockStart? 0 = some 0 := by
  have hpos : 0 < parts.length := by
    apply List.length_pos_of_ne_nil
    intro hnil
    have hsize := hd.size_eq
    rw [hnil] at hsize
    have hempty : h.snapshots = #[] := Array.eq_empty_of_size_eq_zero hsize
    simp [isEmpty, hempty] at hne
  rw [hd.blockStart?_eq hpos]
  rfl

/-- The record is as long as its parts together. -/
theorem Divided.size_eq_sum (hd : h.Divided parts) :
    h.size = ((List.range h.blockStepCount).map fun i => (h.visit i).length).sum := by
  have hmap : (List.range parts.length).map (fun i => (h.visit i).length) = parts.map List.length := by
    apply List.ext_getElem?
    intro i
    by_cases hi : i < parts.length
    · have hvisit := hd.visit_eq (List.getElem?_eq_getElem hi)
      simp [hvisit, hi]
    · rw [List.getElem?_eq_none (by simpa using hi), List.getElem?_eq_none (by simpa using hi)]
  rw [hd.blockStepCount_eq, hmap, hd.size_eq, List.length_flatten]

/-- One more snapshot in the last block step. -/
theorem Divided.push (h' : History V) {part : List (Snapshot V)} {snap : Snapshot V}
    (hd : h.Divided (parts ++ [part])) (hsnap : h'.snapshots = h.snapshots.push snap)
    (hstarts : h'.blockStarts = h.blockStarts) : h'.Divided (parts ++ [part ++ [snap]]) := by
  constructor
  · rw [hsnap, Array.toList_push, hd.snapshots_eq]
    simp
  · rw [hstarts, hd.starts_eq, offsets_concat, offsets_concat]

/-- A block step begins. -/
theorem Divided.enter (h' : History V) (hd : h.Divided parts) (hsnap : h'.snapshots = h.snapshots)
    (hstarts : h'.blockStarts = h.blockStarts.push h.size) : h'.Divided (parts ++ [[]]) := by
  constructor
  · rw [hsnap, hd.snapshots_eq]
    simp
  · rw [hstarts, Array.toList_push, hd.starts_eq, offsets_concat, hd.size_eq]

end

end History

/-- A block step as it has been recorded so far. -/
structure Visit (V : Type) where
  block : Nat
  input : Env V
  snapshots : List (Snapshot V)

namespace Visit

variable {V : Type}

/-- One more recorded step. -/
def push (v : Visit V) (snap : Snapshot V) : Visit V := { v with snapshots := v.snapshots ++ [snap] }

/-- What the visit is about: the block, and what flowed into it. -/
def occasion (v : Visit V) : Nat × Env V := (v.block, v.input)

theorem length_push (v : Visit V) (snap : Snapshot V) :
    (v.push snap).snapshots.length = v.snapshots.length + 1 := by
  simp [push]

end Visit

namespace Problem

variable {V : Type}

/-- The snapshots of a visit are at the first positions of its block, and each shows what the instructions
walked so far make of the input. -/
structure Walks (p : Problem V) (block : Block) (v : Visit V) : Prop where
  lookup : p.graph.block? v.block = some block
  cursors : v.snapshots.map Snapshot.cursor =
    (p.direction.tour v.block block.size).take v.snapshots.length
  shows {n : Nat} {snap : Snapshot V} : v.snapshots[n]? = some snap →
    ∃ output, snap.states[v.block]? = some ⟨v.input, output⟩ ∧
      p.applyAll ((p.walkOrder block).take (n + 1)) v.input = .ok output

/-- A visit that has come to its end. -/
def Finished (p : Problem V) (v : Visit V) : Prop :=
  ∃ block, p.Walks block v ∧ v.snapshots.length = max 1 block.size

variable {p : Problem V} {block : Block} {v : Visit V}

theorem Walks.nil {b : Nat} {input : Env V} (h : p.graph.block? b = some block) :
    p.Walks block ⟨b, input, []⟩ :=
  ⟨h, rfl, fun hsnap => by cases hsnap⟩

theorem Walks.push {snap : Snapshot V} (output : Env V) (h : p.Walks block v)
    (hcursor : (p.direction.tour v.block block.size)[v.snapshots.length]? = some snap.cursor)
    (hstate : snap.states[v.block]? = some ⟨v.input, output⟩)
    (houtput : p.applyAll ((p.walkOrder block).take (v.snapshots.length + 1)) v.input = .ok output) :
    p.Walks block (v.push snap) := by
  refine ⟨h.lookup, ?_, fun {n last} hlast => ?_⟩
  · rw [Visit.length_push, List.take_add_one]
    simp [Visit.push, h.cursors, hcursor]
  · by_cases hn : n < v.snapshots.length
    · rw [Visit.push, List.getElem?_append_left hn] at hlast
      exact h.shows hlast
    · have hlen := (List.getElem?_eq_some_iff.1 hlast).1
      rw [Visit.length_push] at hlen
      obtain rfl : n = v.snapshots.length := by omega
      rw [Visit.push, List.getElem?_concat_length, Option.some.injEq] at hlast
      subst hlast
      exact ⟨output, hstate, houtput⟩

/-- A visit stays in its block. -/
theorem Walks.block_of_mem {snap : Snapshot V} (h : p.Walks block v) (hsnap : snap ∈ v.snapshots) :
    snap.cursor.block = v.block := by
  have hmem : snap.cursor ∈ v.snapshots.map Snapshot.cursor := List.mem_map_of_mem hsnap
  rw [h.cursors] at hmem
  exact Direction.block_of_mem_tour (List.mem_of_mem_take hmem)

theorem Walks.cursors_eq (h : p.Walks block v) (hlen : v.snapshots.length = max 1 block.size) :
    v.snapshots.map Snapshot.cursor = p.direction.tour v.block block.size := by
  rw [h.cursors, List.take_of_length_le]
  rw [Direction.length_tour, hlen]

theorem Finished.ne_nil (h : p.Finished v) : v.snapshots ≠ [] := by
  obtain ⟨block, -, hlen⟩ := h
  intro hnil
  rw [hnil, List.length_nil] at hlen
  omega

end Problem

namespace Engine

variable {V : Type} [DecidableEq V] [LatticeValue V]

/-- The iteration comes to the next instruction of a visit of which `v` has been recorded, after the block
steps `visits`. -/
structure Walking (p : Problem V) (visits : List (Visit V)) (v : Visit V) (block : Block) (w : Walk V)
    (e : Engine V) : Prop where
  problem_eq : e.problem = p
  divided : e.history.Divided (visits.map Visit.snapshots ++ [v.snapshots])
  finished : ∀ u ∈ visits, p.Finished u
  walks : p.Walks block v
  block_eq : w.block = v.block
  input_eq : w.input = v.input
  order : (p.walkOrder block).drop v.snapshots.length = w.next :: w.rest
  current_eq : p.applyAll ((p.walkOrder block).take v.snapshots.length) v.input = .ok w.current

/-- What has been recorded is made of the given visits: finished ones, and last one that is under way if the
iteration stands in the middle of a block. -/
inductive Charted (p : Problem V) (e : Engine V) : List (Visit V) → Prop
  | between {visits : List (Visit V)} : e.problem = p → e.walk = none →
    e.history.Divided (visits.map Visit.snapshots) → (∀ v ∈ visits, p.Finished v) →
    Charted p e visits
  | midway {visits : List (Visit V)} {v : Visit V} {block : Block} {w : Walk V} :
    e.walk = some w → v.snapshots ≠ [] → Walking p visits v block w e → Charted p e (visits ++ [v])

/-- What an elementary step does to the visits: it carries on with the last one, or begins a visit of a
waiting block with what flows into it. -/
inductive Extended (e m : Engine V) (visits : List (Visit V)) (visits' : List (Visit V)) : Prop
  | onward {w : Walk V} (output : Env V) : e.walk = some w →
    m.states = e.states.set w.block ⟨w.input, output⟩ →
    visits'.map Visit.occasion = visits.map Visit.occasion → Extended e m visits visits'
  | begun {b : Nat} {input : Env V} (output : Env V) : e.walk = none → b ∈ e.queue.toList →
    e.problem.inputOf e.states b = .ok input → m.states = e.states.set b ⟨input, output⟩ →
    visits'.map Visit.occasion = visits.map Visit.occasion ++ [(b, input)] → Extended e m visits visits'

section

variable {p : Problem V} {visits : List (Visit V)} {v : Visit V} {block : Block} {w : Walk V}
  {e m : Engine V}

omit [DecidableEq V] [LatticeValue V] in
/-- What is stored goes to the last block step. -/
theorem Stored.divided {b i : Nat} {s : BlockState V} {renewed : Bool} {parts : List (List (Snapshot V))}
    {part : List (Snapshot V)} (h : Stored e b i s renewed m) (hd : e.history.Divided (parts ++ [part])) :
    m.history.Divided (parts ++ [part ++ [m.view ⟨b, i⟩]]) :=
  hd.push m.history h.snapshots_eq h.starts_eq

omit [DecidableEq V] [LatticeValue V] in
/-- A waiting block is taken, and nothing of its visit has been recorded. -/
theorem divided_entered (b : Nat) (q : Worklist) (hd : e.history.Divided (visits.map Visit.snapshots)) :
    (e.entered b q).history.Divided (visits.map Visit.snapshots ++ [[]]) :=
  hd.enter (e.entered b q).history rfl rfl

omit [LatticeValue V] in
/-- One more instruction of a visit ends it or leaves it under way, with one more snapshot. -/
theorem Walking.advance (h : Walking p visits v block w e) (hlt : v.block < e.states.length)
    (hadv : e.advance w = .recorded m) :
    (∃ snap, Charted p m (visits ++ [v.push snap])) ∧
      ∃ output, m.states = e.states.set v.block ⟨v.input, output⟩ := by
  obtain ⟨current, happly, hwalk, hstored⟩ := advance_eq_recorded hadv
  rw [h.problem_eq] at happly
  have hstates := hstored.states_eq
  rw [h.block_eq, h.input_eq] at hstates
  refine ⟨⟨m.view ⟨w.block, w.next.1⟩, ?_⟩, current, hstates⟩
  have hnext : (p.walkOrder block)[v.snapshots.length]? = some w.next := by
    have hhead := congrArg (fun l => l[0]?) h.order
    simpa using hhead
  have hsize := congrArg List.length h.order
  rw [List.length_drop, Problem.length_walkOrder, List.length_cons] at hsize
  -- the walk so far, with the present instruction
  have houtput : p.applyAll ((p.walkOrder block).take (v.snapshots.length + 1)) v.input = .ok current := by
    rw [List.take_add_one, hnext]
    exact Problem.applyAll_append.2 ⟨_, h.current_eq, Problem.applyAll_singleton.2 happly⟩
  have hcursor : (p.direction.tour v.block block.size)[v.snapshots.length]? =
      some (m.view ⟨w.block, w.next.1⟩).cursor := by
    rw [← p.map_walkOrder (by omega), List.getElem?_map, hnext, view_cursor, h.block_eq]
    rfl
  have hstate : (m.view ⟨w.block, w.next.1⟩).states[v.block]? = some ⟨v.input, current⟩ := by
    rw [view_states, hstates, List.getElem?_set_self hlt]
  have hwalks := h.walks.push current hcursor hstate houtput
  have hdivided := hstored.divided h.divided
  have hproblem := hstored.problem_eq.trans h.problem_eq
  rw [Walk.onward] at hwalk
  split at hwalk
  · rename_i hrest
    refine .between hproblem hwalk ?_ ?_
    · rw [List.map_append]
      exact hdivided
    · rw [List.forall_mem_append]
      refine ⟨h.finished, fun u hu => ?_⟩
      rw [List.mem_singleton.1 hu]
      refine ⟨block, hwalks, ?_⟩
      rw [hrest, List.length_nil] at hsize
      rw [Visit.length_push]
      omega
  · rename_i next rest hrest
    refine .midway hwalk (by simp [Visit.push]) ⟨hproblem, hdivided, h.finished, hwalks, h.block_eq,
      h.input_eq, ?_, ?_⟩
    · rw [Visit.length_push, ← List.drop_drop, h.order, hrest]
      rfl
    · rw [Visit.length_push]
      exact houtput

theorem Charted.step (h : Charted p e visits) (hnoted : Noted p e) (hstep : MayStep e (.recorded m)) :
    ∃ visits', Charted p m visits' ∧ Extended e m visits visits' := by
  have hlt : ∀ {b block}, p.graph.block? b = some block → b < e.states.length := by
    intro b block hlookup
    rw [hnoted.states_length]
    exact (List.getElem?_eq_some_iff.1 hlookup).1
  generalize hm : Step.recorded m = step at hstep
  cases hstep with
  | settle _ _ => cases hm
  | @advance w hw =>
    cases h with
    | between _ hidle _ _ =>
      rw [hidle] at hw
      cases hw
    | @midway visits v block w' hw' hne hwalking =>
      rw [hw] at hw'
      cases hw'
      obtain ⟨⟨snap, hcharted⟩, output, hstates⟩ := hwalking.advance (hlt hwalking.walks.lookup) hm.symm
      refine ⟨_, hcharted, .onward output hw ?_ (by simp [Visit.occasion, Visit.push])⟩
      rw [hstates, hwalking.block_eq, hwalking.input_eq]
  | @enter b q hidle hperm =>
    have hb : b ∈ e.queue.toList := hperm.subset List.mem_cons_self
    cases h with
    | midway hw _ _ =>
      rw [hidle] at hw
      cases hw
    | between hproblem _ hdivided hfinished =>
      obtain ⟨block, hlookup, hcases⟩ := enter_eq_recorded hm.symm
      rw [hproblem] at hlookup hcases
      rcases hcases with ⟨input, hempty, hinput, hwalk, hstored⟩ | ⟨w, hw, hadv⟩
      · -- an empty block: its visit is over with the first step
        have hsize : block.size = 0 := by rw [← p.length_walkOrder, hempty, List.length_nil]
        have hwalks : p.Walks block (Visit.push ⟨b, input, []⟩ (m.view ⟨b, 0⟩)) := by
          refine (Problem.Walks.nil hlookup).push input ?_ ?_ ?_
          · rw [hsize, Direction.tour_zero]
            rfl
          · rw [view_states, hstored.states_eq]
            exact List.getElem?_set_self (hlt hlookup)
          · rw [hempty]
            rfl
        refine ⟨visits ++ [Visit.push ⟨b, input, []⟩ (m.view ⟨b, 0⟩)], ?_, ?_⟩
        · refine .between (hstored.problem_eq.trans hproblem) (hwalk.trans hidle) ?_ ?_
          · rw [List.map_append]
            exact hstored.divided (divided_entered b q hdivided)
          · rw [List.forall_mem_append]
            refine ⟨hfinished, fun u hu => ?_⟩
            rw [List.mem_singleton.1 hu]
            exact ⟨block, hwalks, by rw [hsize]; rfl⟩
        · exact .begun input hidle hb (hproblem ▸ hinput) hstored.states_eq
            (by simp [Visit.occasion, Visit.push])
      · -- the first instruction of the block
        obtain ⟨horder, hinput, hcurrent, hblock, -, -⟩ := hw
        have hwalking : Walking p visits ⟨b, w.input, []⟩ block w (e.entered b q) :=
          ⟨hproblem, divided_entered b q hdivided, hfinished, .nil hlookup, hblock, rfl, hproblem ▸ horder,
            by rw [hcurrent]; rfl⟩
        obtain ⟨⟨snap, hcharted⟩, output, hstates⟩ := hwalking.advance (hlt hlookup) hadv
        exact ⟨_, hcharted, .begun output hidle hb hinput hstates (by simp [Visit.occasion, Visit.push])⟩

omit [DecidableEq V] [LatticeValue V] in
theorem charted_start (p : Problem V) (q : Worklist) : Charted p (start p q) [] :=
  .between rfl rfl ⟨rfl, rfl⟩ (by simp)

/-- At every moment of every run, what has been recorded is made of visits. -/
theorem Moved.charted {n : Nat} {q : Worklist} (hp : p.Sound) (hq : q.Fresh)
    (h : Moved (start p q) n m) : ∃ visits, Charted p m visits := by
  induction h with
  | refl => exact ⟨[], charted_start p q⟩
  | tail hmoved hstep ih =>
    obtain ⟨visits, hvisits⟩ := ih
    obtain ⟨visits', hvisits', -⟩ := hvisits.step (hmoved.noted hp hq) hstep
    exact ⟨visits', hvisits'⟩

omit [DecidableEq V] [LatticeValue V] in
theorem Charted.divided (h : Charted p e visits) :
    e.history.Divided (visits.map Visit.snapshots) := by
  cases h with
  | between _ _ hdivided _ => exact hdivided
  | midway _ _ hwalking =>
    rw [List.map_append]
    exact hwalking.divided

omit [DecidableEq V] [LatticeValue V] in
theorem Charted.problem_eq (h : Charted p e visits) : e.problem = p := by
  cases h with
  | between hproblem _ _ _ => exact hproblem
  | midway _ _ hwalking => exact hwalking.problem_eq

omit [DecidableEq V] [LatticeValue V] in
theorem Charted.walks (h : Charted p e visits) (hv : v ∈ visits) :
    v.snapshots ≠ [] ∧ ∃ block, p.Walks block v := by
  have hfinished : p.Finished v → v.snapshots ≠ [] ∧ ∃ block, p.Walks block v := by
    intro hf
    have hne := hf.ne_nil
    obtain ⟨block, hwalks, -⟩ := hf
    exact ⟨hne, block, hwalks⟩
  cases h with
  | between _ _ _ hall => exact hfinished (hall v hv)
  | @midway _ _ block _ _ hne hwalking =>
    rcases List.mem_append.1 hv with hv | hv
    · exact hfinished (hwalking.finished v hv)
    · rw [List.mem_singleton.1 hv]
      exact ⟨hne, block, hwalking.walks⟩

omit [DecidableEq V] [LatticeValue V] in
/-- All visits are finished but the last one of an iteration that stands in the middle of a block. -/
theorem Charted.finished (h : Charted p e visits) {i : Nat} (hv : visits[i]? = some v)
    (hi : i + 1 < visits.length ∨ e.walk = none) : p.Finished v := by
  cases h with
  | between _ _ _ hall => exact hall v (List.mem_of_getElem? hv)
  | @midway visits _ _ _ hwalk _ hwalking =>
    have hlt : i < visits.length := by
      rcases hi with hi | hi
      · rw [List.length_append, List.length_singleton] at hi
        exact Nat.lt_of_succ_lt_succ hi
      · rw [hi] at hwalk
        cases hwalk
    rw [List.getElem?_append_left hlt] at hv
    exact hwalking.finished v (List.mem_of_getElem? hv)

omit [DecidableEq V] [LatticeValue V] in
theorem Charted.exists_visit (h : Charted p e visits) {i : Nat} (hi : i < e.history.blockStepCount) :
    ∃ v, visits[i]? = some v ∧ e.history.visit i = v.snapshots := by
  rw [h.divided.blockStepCount_eq, List.length_map] at hi
  refine ⟨visits[i], List.getElem?_eq_getElem hi, h.divided.visit_eq ?_⟩
  rw [List.getElem?_map, List.getElem?_eq_getElem hi]
  rfl

omit [DecidableEq V] [LatticeValue V] in
theorem Charted.whole (h : Charted p e visits) {i : Nat} (hi : i < e.history.blockStepCount)
    (hend : i + 1 < e.history.blockStepCount ∨ e.walk = none) :
    e.history.Whole p.graph p.direction i := by
  obtain ⟨v, hv, hvisit⟩ := h.exists_visit hi
  rw [h.divided.blockStepCount_eq, List.length_map] at hend
  obtain ⟨block, hwalks, hlen⟩ := h.finished hv hend
  refine ⟨v.block, block, hwalks.lookup, ?_⟩
  rw [History.cursors, hvisit, hwalks.cursors_eq hlen]

omit [DecidableEq V] [LatticeValue V] in
theorem Charted.shaped (h : Charted p e visits) : e.history.Shaped p.graph p.direction where
  increasing := by
    rw [h.divided.starts_eq]
    apply pairwise_offsets
    intro hnil
    obtain ⟨v, hv, hempty⟩ := List.mem_map.1 hnil
    exact (h.walks hv).1 hempty
  begins := h.divided.begins
  begun {i} hi := by
    obtain ⟨v, hv, hvisit⟩ := h.exists_visit hi
    obtain ⟨hne, block, hwalks⟩ := h.walks (List.mem_of_getElem? hv)
    refine ⟨v.block, block, hwalks.lookup, ?_, ?_⟩
    · rw [History.cursors, hvisit]
      exact mt List.map_eq_nil_iff.1 hne
    · rw [History.cursors, hvisit, hwalks.cursors]
      exact List.take_prefix _ _
  whole hi := h.whole (Nat.lt_of_succ_lt hi) (.inl hi)

omit [DecidableEq V] [LatticeValue V] in
/-- A finished visit is as long as its block, or of one step. -/
theorem Charted.length_visit (h : Charted p e visits) (hidle : e.walk = none) {i : Nat}
    (hi : i < e.history.blockStepCount) :
    (e.history.visit i).length = max 1 (e.history.visitedSize p.graph i) := by
  obtain ⟨v, hv, hvisit⟩ := h.exists_visit hi
  obtain ⟨block, hwalks, hlen⟩ := h.finished hv (.inr hidle)
  have hne := (h.walks (List.mem_of_getElem? hv)).1
  have hhead := hwalks.block_of_mem (List.head_mem hne)
  rw [History.visitedSize, hvisit, List.head?_eq_some_head hne, Option.bind_some, hhead, hwalks.lookup]
  exact hlen

omit [DecidableEq V] [LatticeValue V] in
theorem Charted.complete (h : Charted p e visits) (hidle : e.walk = none) :
    e.history.Complete p.graph p.direction where
  toShaped := h.shaped
  all_whole hi := h.whole hi (.inr hidle)
  size_eq := by
    rw [h.divided.size_eq_sum]
    congr 1
    apply List.map_congr_left
    intro i hi
    exact h.length_visit hidle (List.mem_range.1 hi)

end

end Engine

/-! The records that runs leave behind, whichever way they end. -/

section

variable {V : Type} [DecidableEq V] [LatticeValue V]

/-- A record of the iteration, with the waiting blocks taken in any order and stopped at any moment. -/
def Problem.Leaves (p : Problem V) (h : History V) : Prop :=
  ∃ q n m, q.Fresh ∧ (Engine.start p q).Moved n m ∧ h = m.history

/-- A record of the iteration between two block steps. -/
def Problem.LeavesWhole (p : Problem V) (h : History V) : Prop :=
  ∃ q n m, q.Fresh ∧ (Engine.start p q).Moved n m ∧ m.walk = none ∧ h = m.history

variable {a : Analysis V} {g : Flowgraph} {p : Problem V} {q : Worklist} {h : History V}

theorem Problem.LeavesWhole.leaves (hl : p.LeavesWhole h) : p.Leaves h := by
  obtain ⟨q, n, m, hq, hmoved, -, hm⟩ := hl
  exact ⟨q, n, m, hq, hmoved, hm⟩

theorem Problem.leaves_drive (hq : q.Fresh) (n : Nat) :
    p.Leaves ((Engine.start p q).drive n).1.history := by
  obtain ⟨i, hmoved⟩ := Engine.moved_drive (p := p) hq n
  exact ⟨q, i, _, hq, hmoved, rfl⟩

/-- A completed run has come to an end between two block steps. -/
theorem Problem.leavesWhole_of_run [LawfulJoin V] (law : a.Lawful) (hg : g.Built)
    (hp : Problem.create a g = .ok p) (hq : q.Fresh) (hrun : a.runFrom g q = .ok h) :
    p.LeavesWhole h := by
  have hsound := sound_of_create hg hp
  rw [Analysis.runFrom_of_create hp] at hrun
  obtain ⟨rfl, -, -⟩ := boundary_of_create hp
  obtain ⟨n, hmoved, ⟨hend, hidle, -⟩ | ⟨f, -, -, hend, -⟩⟩ := Run.ofQueue_cases hsound law hq
  · simp only [Run.outcome, hend, Except.ok.injEq] at hrun
    exact ⟨q, n, _, hq, hmoved, hidle, hrun.symm⟩
  · simp [Run.outcome, hend] at hrun

/-- So does a session, for its own record and for what it hands out. -/
theorem Problem.leaves_of_session (hp : Problem.create a g = .ok p) {s : Session V}
    (hs : Session.Reached a g q s)
    (hr : s.worker.record? = some h ∨ s.controller.result = .ok h) : p.Leaves h := by
  obtain ⟨p', n, e, hp', hsteps, rfl⟩ := hs.exists_stepped (hs.record_of_held hr)
  rw [hp, Except.ok.injEq] at hp'
  subst hp'
  exact ⟨q, n, e, hs.fresh, hsteps.moved (Worklist.ready_add hs.fresh.ready p.boundary), rfl⟩

end

namespace AnalysisKind

variable {k : AnalysisKind} {g : Flowgraph} {p : Problem k.Value}

/-- What a completed session hands out is the record of the run that nobody steers. -/
theorem run_of_completed (hg : g.Built) {q : Worklist} {s : Session k.Value} {h : History k.Value}
    (hs : Session.Reached k.analysis g q s)
    (hr : s.worker.record? = some h ∨ s.controller.result = .ok h)
    (hstate : s.controller.state = .completed) : k.analysis.runFrom g q = .ok h := by
  obtain ⟨calls, hcalled⟩ := hs.exists_called
  have hfinal := hcalled.coherent.final_iff.2 hstate
  obtain ⟨hist, hok, hw, -⟩ := Session.result_of_published hg hs (by rw [hfinal]; decide)
  have hrun := run_of_finished hg hs hw (by rw [hstate]; decide)
  rw [hrun]
  rcases hr with hr | hr
  · rw [hw] at hr
    exact congrArg Except.ok (Option.some.inj hr)
  · rw [← hok, hr]

theorem direction_of_create (hp : Problem.create k.analysis g = .ok p) :
    p.graph = g ∧ p.direction = k.direction := by
  obtain ⟨ha, hgraph, -⟩ := Problem.boundary_of_create hp
  refine ⟨hgraph, ?_⟩
  rw [Problem.direction, ha, Analysis.direction, kind_analysis]

theorem shaped_of_leaves (hg : g.Built) (hp : Problem.create k.analysis g = .ok p) {h : History k.Value}
    (hl : p.Leaves h) : h.Shaped g k.direction := by
  obtain ⟨q, n, m, hq, hmoved, rfl⟩ := hl
  obtain ⟨visits, hvisits⟩ := hmoved.charted (Problem.sound_of_create hg hp) hq
  obtain ⟨hgraph, hdir⟩ := direction_of_create hp
  rw [← hgraph, ← hdir]
  exact hvisits.shaped

theorem complete_of_leavesWhole (hg : g.Built) (hp : Problem.create k.analysis g = .ok p)
    {h : History k.Value} (hl : p.LeavesWhole h) : h.Complete g k.direction := by
  obtain ⟨q, n, m, hq, hmoved, hidle, rfl⟩ := hl
  obtain ⟨visits, hvisits⟩ := hmoved.charted (Problem.sound_of_create hg hp) hq
  obtain ⟨hgraph, hdir⟩ := direction_of_create hp
  rw [← hgraph, ← hdir]
  exact hvisits.complete hidle

/-- Every record falls into block steps that go over their blocks in the direction of the analysis: that
of a run stopped after any number of steps, and whatever a steered session holds or hands out. In the record
of a completed run every block step is whole, so it is as long as the blocks visited, an empty one counting
as one step. -/
theorem histories_shaped (hg : g.Built) (hp : Problem.create k.analysis g = .ok p) :
    (∀ q, q.Fresh → ∀ n, ((Engine.start p q).drive n).1.history.Shaped g k.direction) ∧
    (∀ q h, q.Fresh → k.analysis.runFrom g q = .ok h → h.Complete g k.direction) ∧
    ∀ q s h, Session.Reached k.analysis g q s →
      s.worker.record? = some h ∨ s.controller.result = .ok h →
      h.Shaped g k.direction ∧ (s.controller.state = .completed → h.Complete g k.direction) := by
  have hcomplete : ∀ q h, q.Fresh → k.analysis.runFrom g q = .ok h → h.Complete g k.direction := by
    intro q h hq hrun
    exact complete_of_leavesWhole hg hp (Problem.leavesWhole_of_run k.lawful hg hp hq hrun)
  refine ⟨fun q hq n => ?_, hcomplete, fun q s h hs hr => ⟨?_, fun hstate => ?_⟩⟩
  · exact shaped_of_leaves hg hp (Problem.leaves_drive hq n)
  · exact shaped_of_leaves hg hp (Problem.leaves_of_session hp hs hr)
  · exact hcomplete q h hs.fresh (run_of_completed hg hs hr hstate)

/-- Backward over a block of two instructions: stopped after the first step, its only block step is at the
second position; the completed run goes on to the first. -/
theorem histories_shaped_sheltering :
    (∃ h : History LiveValue, ((Engine.start ⟨LiveVariables.analysis, sheltering, 0⟩ (.naive [])).drive
        1).1.history = h ∧ h.Shaped sheltering .backward ∧ h.cursors 0 = [⟨0, 1⟩]) ∧
    ∃ h, LiveVariables.analysis.runFrom sheltering (.naive []) = .ok h ∧
      h.Complete sheltering .backward ∧ h.cursors 0 = [⟨0, 1⟩, ⟨0, 0⟩] := by
  obtain ⟨hstopped, hcompleted, -⟩ := histories_shaped (k := liveVariables) sheltering_built rfl
  exact ⟨⟨_, rfl, hstopped _ .naive 1, rfl⟩, _, rfl, hcompleted _ _ .naive rfl, rfl⟩

end AnalysisKind

end FlowHistory
