import FlowHistory.Proofs.BuiltGraph
import FlowHistory.Proofs.Waiting

/-!
# Block steps

Elementary steps group into block steps: a block is taken off the list of waiting blocks, its
instructions are walked, and its result is stored. A state of the iteration between two elementary
steps is either the result of whole block steps or lies midway in one. Which waiting block is taken is
left open here, so what follows holds for every order of visits.
-/
namespace FlowHistory

namespace Problem

variable {V : Type}

/-- The effect of several instructions, one after the other. -/
def applyAll (p : Problem V) (sites : List (Nat × Site)) (e : Env V) : Except Fault (Env V) :=
  sites.foldlM (fun e s => p.apply s.2 e) e

/-- The composition of a block's transfers, in the order in which they are walked. -/
def flow (p : Problem V) (block : Block) (e : Env V) : Except Fault (Env V) :=
  p.applyAll (p.walkOrder block) e

/-- The blocks that the flow from the boundary arrives at. -/
def Reachable (p : Problem V) (b : Nat) : Prop :=
  Relation.ReflTransGen (fun a b => b ∈ p.targets a) p.boundary b

/-- The equations of a block in a table of states: the state before it is the seeded one or the join
of what flows in, and the state after it is what its instructions make of that. -/
def Satisfied [LatticeValue V] (p : Problem V) (states : List (BlockState V)) (b : Nat) : Prop :=
  ∃ block s, p.graph.block? b = some block ∧ states[b]? = some s ∧
    p.inputOf states b = .ok s.input ∧ p.flow block s.input = .ok s.output

theorem applyAll_append {p : Problem V} {l m : List (Nat × Site)} {e e' : Env V} :
    p.applyAll (l ++ m) e = .ok e' ↔ ∃ f, p.applyAll l e = .ok f ∧ p.applyAll m f = .ok e' := by
  rw [applyAll, List.foldlM_append, bind_eq_ok]
  rfl

theorem applyAll_singleton {p : Problem V} {s : Nat × Site} {e e' : Env V} :
    p.applyAll [s] e = .ok e' ↔ p.apply s.2 e = .ok e' := by
  simp [applyAll]

theorem applyAll_cons {p : Problem V} {s : Nat × Site} {l : List (Nat × Site)} {e e' : Env V} :
    p.applyAll (s :: l) e = .ok e' ↔ ∃ f, p.apply s.2 e = .ok f ∧ p.applyAll l f = .ok e' := by
  rw [applyAll, List.foldlM_cons, bind_eq_ok]
  rfl

theorem length_walkOrder (p : Problem V) (block : Block) : (p.walkOrder block).length = block.size := by
  simp only [walkOrder]
  cases p.direction <;> simp [Block.sites, Block.size]

theorem getElem?_of_mem_walkOrder {p : Problem V} {block : Block} {s : Nat × Site}
    (h : s ∈ p.walkOrder block) : block.sites[s.1]? = some s.2 := by
  have h' : s ∈ block.sites.zipIdx.map fun q => (q.2, q.1) := by
    simp only [walkOrder] at h
    cases hd : p.direction with
    | forward => simpa only [hd] using h
    | backward => simpa only [hd, List.mem_reverse] using h
  obtain ⟨q, hq, rfl⟩ := List.mem_map.1 h'
  exact List.mem_zipIdx_iff_getElem?.1 hq

theorem mem_sites_of_mem_walkOrder {p : Problem V} {block : Block} {s : Nat × Site}
    (h : s ∈ p.walkOrder block) : s.2 ∈ block.sites :=
  List.mem_of_getElem? (getElem?_of_mem_walkOrder h)

end Problem

namespace Engine

variable {V : Type} [DecidableEq V] [LatticeValue V]

/-- What the next elementary step may come to, whichever waiting block is taken. -/
inductive MayStep (e : Engine V) : Step V → Prop
  | advance {w : Walk V} : e.walk = some w → MayStep e (e.advance w)
  | enter {b : Nat} {q : Worklist} : e.walk = none → (b :: q.toList).Perm e.queue.toList →
    MayStep e (e.enter b q)
  | settle : e.walk = none → e.queue.toList = [] → MayStep e .settled

/-- Some number of elementary steps, with any choice of the blocks taken. -/
inductive Moved (e : Engine V) : Nat → Engine V → Prop
  | refl : Moved e 0 e
  | tail {n : Nat} {m m' : Engine V} : Moved e n m → MayStep m (.recorded m') → Moved e (n + 1) m'

/-- Whether a new result of a block is passed on: on the first visit, or if it differs. -/
def renews (e : Engine V) (b : Nat) (input output : Env V) : Bool :=
  !(e.visited[b]?.getD false) || output != ((e.states[b]?).map BlockState.output).getD input

/-- Everything that a whole visit of block `b` does, with `q` waiting behind it. -/
structure BlockStep (e : Engine V) (b : Nat) (q : Worklist) (block : Block) (input output : Env V)
    (m : Engine V) : Prop where
  lookup : e.problem.graph.block? b = some block
  input_eq : e.problem.inputOf e.states b = .ok input
  flow_eq : e.problem.flow block input = .ok output
  problem_eq : m.problem = e.problem
  states_eq : m.states = e.states.set b ⟨input, output⟩
  visited_eq : m.visited = e.visited.set b true
  queue_eq : m.queue = if e.renews b input output then q.addAll (e.problem.targets b) else q
  walk_eq : m.walk = none
  recorded : ∃ added last, m.snapshots.toList = e.snapshots.toList ++ added ∧
    (∀ s ∈ added, s.cursor.block = b) ∧ added.getLast? = some last ∧
    last.worklist = m.queue.toList ∧ last.states = m.states

/-- A visit of block `b` that has walked the instructions `done` and goes on with `w`. -/
structure Midway (e : Engine V) (b : Nat) (q : Worklist) (block : Block) (input : Env V)
    (done : List (Nat × Site)) (w : Walk V) (m : Engine V) : Prop where
  lookup : e.problem.graph.block? b = some block
  input_eq : e.problem.inputOf e.states b = .ok input
  order : e.problem.walkOrder block = done ++ w.next :: w.rest
  current_eq : e.problem.applyAll done input = .ok w.current
  block_eq : w.block = b
  walk_input : w.input = input
  before_eq : w.before = ((e.states[b]?).map BlockState.output).getD input
  first_eq : w.firstVisit = !(e.visited[b]?.getD false)
  problem_eq : m.problem = e.problem
  states_eq (s : BlockState V) : m.states.set b s = e.states.set b s
  visited_eq : m.visited = e.visited.set b true
  queue_eq : m.queue = q
  recorded : ∃ added, m.snapshots.toList = e.snapshots.toList ++ added ∧
    ∀ s ∈ added, s.cursor.block = b

omit [DecidableEq V] [LatticeValue V] in
/-- A recorded snapshot shows the present list and table. -/
theorem exists_record (e : Engine V) (c : Cursor) :
    ∃ s, (e.record c).snapshots.toList = e.snapshots.toList ++ [s] ∧ s.cursor = c ∧
      s.worklist = e.queue.toList ∧ s.states = e.states :=
  ⟨⟨e.queue.toList, e.problem.graph.blockIds.map (e.colorOf c.block), e.states, c⟩, by
    simp [record], rfl, rfl, rfl⟩

/-- One more instruction of a visit: a fault of its transfer, the end of the visit, or a visit that has
come one instruction further. -/
theorem advance_midway {e m : Engine V} {b : Nat} {q : Worklist} {block : Block} {input : Env V}
    {done : List (Nat × Site)} {w : Walk V} (h : Midway e b q block input done w m) :
    (∃ f, m.advance w = .failed f ∧ e.problem.apply w.next.2 w.current = .error f) ∨
    (∃ output m', m.advance w = .recorded m' ∧ w.rest = [] ∧ BlockStep e b q block input output m') ∨
    (∃ w' m', m.advance w = .recorded m' ∧ m'.walk = some w' ∧
      Midway e b q block input (done ++ [w.next]) w' m') := by
  obtain ⟨added, hadded, hcursor⟩ := h.recorded
  cases happly : e.problem.apply w.next.2 w.current with
  | error f =>
    refine .inl ⟨f, ?_, rfl⟩
    simp only [advance, h.problem_eq, happly]
  | ok current =>
    have hnext : e.problem.applyAll (done ++ [w.next]) input = .ok current :=
      Problem.applyAll_append.2 ⟨_, h.current_eq, Problem.applyAll_singleton.2 happly⟩
    cases hrest : w.rest with
    | nil =>
      refine .inr (.inl ⟨current, _, by simp only [advance, h.problem_eq, happly, hrest]; rfl, rfl, ?_⟩)
      have horder := h.order
      rw [hrest] at horder
      exact {
        lookup := h.lookup
        input_eq := h.input_eq
        flow_eq := by rw [Problem.flow, horder]; exact hnext
        problem_eq := h.problem_eq
        states_eq := by simp [record, store, h.block_eq, h.walk_input, h.states_eq]
        visited_eq := h.visited_eq
        queue_eq := by
          rw [renews, ← h.before_eq, ← h.first_eq, ← h.problem_eq, ← h.queue_eq, ← h.block_eq]
          rfl
        walk_eq := rfl
        recorded := by
          obtain ⟨s, hs, hc, hq, ht⟩ := exists_record (m.store w.block ⟨w.input, current⟩
            (([] : List (Nat × Site)).isEmpty && (w.firstVisit || current != w.before)))
            ⟨w.block, w.next.1⟩
          refine ⟨added ++ [s], s, ?_, ?_, List.getLast?_concat, hq, ht⟩
          · rw [← List.append_assoc, ← hadded]
            exact hs
          · exact List.forall_mem_append.2 ⟨hcursor, by simp [hc, h.block_eq]⟩ }
    | cons next rest =>
      refine .inr (.inr ⟨{ w with current := current, next := next, rest := rest }, _, by
        simp only [advance, h.problem_eq, happly, hrest]; rfl, rfl, ?_⟩)
      exact {
        lookup := h.lookup
        input_eq := h.input_eq
        order := by rw [h.order, hrest]; simp
        current_eq := hnext
        block_eq := h.block_eq
        walk_input := h.walk_input
        before_eq := h.before_eq
        first_eq := h.first_eq
        problem_eq := h.problem_eq
        states_eq := fun s => by simp [record, store, h.block_eq, h.states_eq]
        visited_eq := h.visited_eq
        queue_eq := by simp [record, store, h.queue_eq]
        recorded := by
          obtain ⟨s, hs, hc, -, -⟩ := exists_record (m.store w.block ⟨w.input, current⟩
            ((next :: rest).isEmpty && (w.firstVisit || current != w.before))) ⟨w.block, w.next.1⟩
          refine ⟨added ++ [s], ?_, ?_⟩
          · rw [← List.append_assoc, ← hadded]
            exact hs
          · exact List.forall_mem_append.2 ⟨hcursor, by simp [hc, h.block_eq]⟩ }

/-- The first step of a visit: the block or its input is missing, or the walk begins, or there is
nothing to walk and the visit is over. -/
theorem enter_cases {e : Engine V} (hidle : e.walk = none) (b : Nat) (q : Worklist) :
    (∃ f, e.enter b q = .failed f ∧
      (e.problem.graph.block b = .error f ∨ e.problem.inputOf e.states b = .error f)) ∨
    (∃ block input m, e.enter b q = .recorded m ∧ BlockStep e b q block input input m) ∨
    (∃ block input w m, e.enter b q = m.advance w ∧ Midway e b q block input [] w m) := by
  cases hblock : e.problem.graph.block b with
  | error f => exact .inl ⟨f, by simp only [enter, hblock], .inl rfl⟩
  | ok block =>
    cases hinput : e.problem.inputOf e.states b with
    | error f => exact .inl ⟨f, by simp only [enter, hblock, hinput], .inr rfl⟩
    | ok input =>
      have hlookup := Flowgraph.block_eq_ok.1 hblock
      cases horder : e.problem.walkOrder block with
      | nil =>
        refine .inr (.inl ⟨block, input, _, by simp only [enter, hblock, hinput, horder]; rfl, ?_⟩)
        exact {
          lookup := hlookup
          input_eq := hinput
          flow_eq := by rw [Problem.flow, horder]; rfl
          problem_eq := rfl
          states_eq := rfl
          visited_eq := rfl
          queue_eq := rfl
          walk_eq := hidle
          recorded := by
            obtain ⟨s, hs, hc, hq, ht⟩ := exists_record
              ({ e with
                queue := q
                visited := e.visited.set b true
                blockStarts := e.blockStarts.push e.snapshots.size }.store b ⟨input, input⟩
                (e.renews b input input)) ⟨b, 0⟩
            exact ⟨[s], s, hs, by simp [hc], rfl, hq, ht⟩ }
      | cons next rest =>
        refine .inr (.inr ⟨block, input, _, _, by simp only [enter, hblock, hinput, horder]; rfl, ?_⟩)
        exact {
          lookup := hlookup
          input_eq := hinput
          order := horder
          current_eq := rfl
          block_eq := rfl
          walk_input := rfl
          before_eq := rfl
          first_eq := rfl
          problem_eq := rfl
          states_eq := fun s => rfl
          visited_eq := rfl
          queue_eq := rfl
          recorded := ⟨[], by simp, by simp⟩ }

/-- Some number of whole block steps, with any choice of the blocks taken. -/
inductive Toured (e : Engine V) : Nat → Engine V → Prop
  | refl : Toured e 0 e
  | tail {k b : Nat} {m m' : Engine V} {q : Worklist} {block : Block} {input output : Env V} :
    Toured e k m → (b :: q.toList).Perm m.queue.toList → BlockStep m b q block input output m' →
    Toured e (k + 1) m'

theorem Toured.problem_eq {e m : Engine V} {k : Nat} (h : Toured e k m) : m.problem = e.problem := by
  induction h with
  | refl => rfl
  | tail _ _ hstep ih => exact hstep.problem_eq.trans ih

/-- Where `n` elementary steps lead: to the end of some number of block steps, or midway into a
further one. Each whole block step takes at most one more elementary step than the graph has
instructions. -/
inductive Stands (e : Engine V) (n : Nat) (m : Engine V) : Prop
  | between {k : Nat} : Toured e k m → m.walk = none →
    n ≤ k * (e.problem.graph.instructionCount + 1) → Stands e n m
  | midway {k b : Nat} {t : Engine V} {q : Worklist} {block : Block} {input : Env V}
      {done : List (Nat × Site)} {w : Walk V} :
    Toured e k t → t.walk = none → (b :: q.toList).Perm t.queue.toList →
    Midway t b q block input done w m → m.walk = some w →
    n ≤ k * (e.problem.graph.instructionCount + 1) + done.length → Stands e n m

omit [DecidableEq V] in
theorem length_done_lt {e m : Engine V} {b : Nat} {q : Worklist} {block : Block} {input : Env V}
    {done : List (Nat × Site)} {w : Walk V} (hg : e.problem.graph.Sane)
    (h : Midway e b q block input done w m) : done.length + 1 ≤ e.problem.graph.instructionCount := by
  have hlen := congrArg List.length h.order
  rw [Problem.length_walkOrder, List.length_append, List.length_cons] at hlen
  have hsize := Flowgraph.size_le_instructionCount hg h.lookup
  omega

/-- A visit in which the transfer of the next instruction shows a fault. -/
inductive Stuck (e : Engine V) (f : Fault) : Prop
  | intro {k b : Nat} {t m : Engine V} {q : Worklist} {block : Block} {input : Env V}
      {done : List (Nat × Site)} {w : Walk V} :
    Toured e k t → (b :: q.toList).Perm t.queue.toList → Midway t b q block input done w m →
    t.problem.apply w.next.2 w.current = .error f → Stuck e f

theorem Stuck.exists_site {e : Engine V} {f : Fault} (h : Stuck e f) :
    ∃ s env, s ∈ e.problem.graph.sites ∧ e.problem.apply s env = .error f := by
  obtain @⟨k, b, t, m, q, block, input, done, w, ht, -, hmid, hfault⟩ := h
  have hp := ht.problem_eq
  have hmem : w.next ∈ t.problem.walkOrder block := by simp [hmid.order]
  have hblock := Flowgraph.mem_blocks_of_block? hmid.lookup
  rw [hp] at hblock hfault
  exact ⟨_, _, List.mem_flatMap.2 ⟨block, hblock, Problem.mem_sites_of_mem_walkOrder hmem⟩, hfault⟩

/-- From a state midway in a visit, the next elementary step ends the visit, carries it further, or
shows the fault of a transfer. -/
theorem stands_advance {e t m : Engine V} {n k b : Nat} {q : Worklist} {block : Block} {input : Env V}
    {done : List (Nat × Site)} {w : Walk V} (hg : e.problem.graph.Sane) (ht : Toured e k t)
    (hidle : t.walk = none) (hperm : (b :: q.toList).Perm t.queue.toList)
    (hmid : Midway t b q block input done w m)
    (hn : n ≤ k * (e.problem.graph.instructionCount + 1) + done.length) :
    (∃ m', m.advance w = .recorded m' ∧ Stands e (n + 1) m') ∨
    (∃ f, m.advance w = .failed f ∧ Stuck e f) := by
  have hp := ht.problem_eq
  have hlt := length_done_lt (hp ▸ hg) hmid
  rw [hp] at hlt
  rcases advance_midway hmid with ⟨f, hf, hfault⟩ | ⟨output, m', hm', -, hstep⟩ | ⟨w', m', hm', hw', hmid'⟩
  · exact .inr ⟨f, hf, .intro ht hperm hmid hfault⟩
  · refine .inl ⟨m', hm', .between (ht.tail hperm hstep) hstep.walk_eq ?_⟩
    rw [Nat.succ_mul]
    omega
  · refine .inl ⟨m', hm', .midway ht hidle hperm hmid' hw' ?_⟩
    rw [List.length_append, List.length_singleton]
    omega

/-- What an elementary step can come to from where a run stands: the run stands one step further, or it
settles with nothing waiting, or it shows the fault of a transfer, or the block taken has no entry or no
input. -/
theorem mayStep_cases {e m : Engine V} {n : Nat} {s : Step V} (hg : e.problem.graph.Sane)
    (h : Stands e n m) (hs : MayStep m s) :
    (∃ m', s = .recorded m' ∧ Stands e (n + 1) m') ∨
    (s = .settled ∧ m.walk = none ∧ m.queue.toList = []) ∨
    (∃ f, s = .failed f ∧ Stuck e f) ∨
    (∃ k b f, Toured e k m ∧ m.walk = none ∧ b ∈ m.queue.toList ∧ s = .failed f ∧
      (e.problem.graph.block b = .error f ∨ e.problem.inputOf m.states b = .error f)) := by
  cases h with
  | midway ht hidle hperm hmid hw hn =>
    cases hs with
    | advance hw' =>
      rw [hw] at hw'
      cases hw'
      rcases stands_advance hg ht hidle hperm hmid hn with h | h
      · exact .inl h
      · exact .inr (.inr (.inl h))
    | enter hnone _ => rw [hw] at hnone; cases hnone
    | settle hnone _ => rw [hw] at hnone; cases hnone
  | @between k ht hidle hn =>
    have hp := ht.problem_eq
    cases hs with
    | advance hw => rw [hidle] at hw; cases hw
    | settle _ hempty => exact .inr (.inl ⟨rfl, hidle, hempty⟩)
    | @enter b q _ hperm =>
      rcases enter_cases hidle b q with ⟨f, hf, hcause⟩ | ⟨block, input, m', hm', hstep⟩ |
        ⟨block, input, w, t, hadv, hmid⟩
      · refine .inr (.inr (.inr ⟨k, b, f, ht, hidle, hperm.subset (by simp), hf, ?_⟩))
        rwa [hp] at hcause
      · refine .inl ⟨m', hm', .between (ht.tail hperm hstep) hstep.walk_eq ?_⟩
        rw [Nat.succ_mul]
        omega
      · rw [hadv]
        rcases stands_advance hg ht hidle hperm hmid (by simpa using hn) with h | h
        · exact .inl h
        · exact .inr (.inr (.inl h))

theorem Moved.stands {e m : Engine V} {n : Nat} (hg : e.problem.graph.Sane) (hidle : e.walk = none)
    (h : Moved e n m) : Stands e n m := by
  induction h with
  | refl => exact .between .refl hidle (by simp)
  | tail _ hstep ih =>
    rcases mayStep_cases hg ih hstep with ⟨m', heq, hm'⟩ | ⟨heq, -⟩ | ⟨f, heq, -⟩ |
      ⟨k, b, f, -, -, -, heq, -⟩
    · cases heq
      exact hm'
    · cases heq
    · cases heq
    · cases heq

/-! The order that a list of waiting blocks keeps is one of the choices left open above. -/

theorem Moved.head {e e' m : Engine V} {n : Nat} (hstep : MayStep e (.recorded e')) (h : Moved e' n m) :
    Moved e (n + 1) m := by
  induction h with
  | refl => exact .tail .refl hstep
  | tail _ hlast ih => exact .tail ih hlast

omit [LatticeValue V] in
theorem queue_advance {e e' : Engine V} {w : Walk V} (h : e.advance w = .recorded e') :
    ∃ bs, e'.queue = e.queue.addAll bs := by
  simp only [advance] at h
  split at h
  · cases h
  · rename_i current _
    have hstore : ∀ renewed : Bool, ∃ bs,
        (if renewed then e.queue.addAll (e.problem.targets w.block) else e.queue) = e.queue.addAll bs := by
      intro renewed
      cases renewed with
      | false => exact ⟨[], rfl⟩
      | true => exact ⟨_, rfl⟩
    split at h <;> (cases h; exact hstore _)

theorem queue_enter {e e' : Engine V} {b : Nat} {q : Worklist} (h : e.enter b q = .recorded e') :
    ∃ bs, e'.queue = q.addAll bs := by
  simp only [enter] at h
  split at h
  · cases h
  · split at h
    · cases h
    · split at h
      · rename_i input _ _
        cases h
        simp only [record, store]
        split
        · exact ⟨_, rfl⟩
        · exact ⟨[], rfl⟩
      · exact queue_advance h

theorem step_mayStep {e : Engine V} (h : e.queue.Ready) : MayStep e e.step := by
  simp only [step]
  split
  · rename_i w hw
    exact .advance hw
  · rename_i hnone
    split
    · rename_i hpoll
      exact .settle hnone (Worklist.poll_eq_none h hpoll)
    · rename_i b q hpoll
      exact .enter hnone (Worklist.poll_eq_some h hpoll).1

theorem ready_step {e e' : Engine V} (h : e.queue.Ready) (hstep : e.step = .recorded e') :
    e'.queue.Ready := by
  simp only [step] at hstep
  split at hstep
  · obtain ⟨bs, hbs⟩ := queue_advance hstep
    exact hbs ▸ Worklist.ready_addAll h bs
  · split at hstep
    · cases hstep
    · rename_i b q hpoll
      obtain ⟨bs, hbs⟩ := queue_enter hstep
      exact hbs ▸ Worklist.ready_addAll (Worklist.poll_eq_some h hpoll).2 bs

/-- A driven run makes elementary steps until its fuel is used up, nothing waits, or a step fails. -/
theorem drive_cases {n : Nat} {e m : Engine V} {ending : Ending} (h : e.queue.Ready)
    (hd : e.drive n = (m, ending)) :
    ∃ k ≤ n, Moved e k m ∧
      ((ending = .unfinished ∧ k = n) ∨
        (ending = .settled ∧ MayStep m .settled) ∨
        ∃ f, ending = .failed f ∧ MayStep m (.failed f)) := by
  induction n generalizing e with
  | zero =>
    cases hd
    exact ⟨0, Nat.le_refl 0, .refl, .inl ⟨rfl, rfl⟩⟩
  | succ n ih =>
    have hmay := step_mayStep h
    simp only [drive] at hd
    split at hd
    · rename_i e' hstep
      obtain ⟨k, hk, hmoved, hend⟩ := ih (ready_step h hstep) hd
      refine ⟨k + 1, by omega, hmoved.head (hstep ▸ hmay), ?_⟩
      rcases hend with ⟨hend, hkn⟩ | hend
      · exact .inl ⟨hend, by omega⟩
      · exact .inr hend
    · rename_i hstep
      cases hd
      exact ⟨0, Nat.zero_le _, .refl, .inr (.inl ⟨rfl, hstep ▸ hmay⟩)⟩
    · rename_i f hstep
      cases hd
      exact ⟨0, Nat.zero_le _, .refl, .inr (.inr ⟨f, rfl, hstep ▸ hmay⟩)⟩

end Engine

end FlowHistory
