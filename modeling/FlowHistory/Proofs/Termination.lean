import FlowHistory.Proofs.Adjacency
import FlowHistory.Proofs.Growth
import Mathlib.Algebra.BigOperators.Ring.List

/-!
# Termination

A block step uses up a budget. A block can pass its result on once on its first visit, and then only
as often as the result can still grow; each time it puts at most as many blocks on the list as it has
targets. What can still be passed on, together with what waits, is the potential of a state of the
iteration, and every block step lowers it, whichever block is taken.
-/
namespace FlowHistory

/-- Lowering one summand by `d` and raising none lowers a sum by `d`. -/
theorem sum_map_add_le {l : List Nat} {f f' : Nat → Nat} {b d : Nat} (hb : b ∈ l)
    (hle : ∀ c, f' c ≤ f c) (hd : f' b + d ≤ f b) : (l.map f').sum + d ≤ (l.map f).sum := by
  have hall : ∀ l : List Nat, (l.map f').sum ≤ (l.map f).sum := by
    intro l
    induction l with
    | nil => exact Nat.le_refl 0
    | cons c l ih =>
      have := hle c
      simp only [List.map_cons, List.sum_cons]
      omega
  induction l with
  | nil => cases hb
  | cons c l ih =>
    simp only [List.map_cons, List.sum_cons]
    rcases List.mem_cons.1 hb with rfl | hb
    · have := hall l
      omega
    · have := ih hb
      have := hle c
      omega

/-- The edges counted by one of their ends are no more than all edges. -/
theorem Flowgraph.sum_targets_le (g : Flowgraph) (d : Direction) (n : Nat) :
    ((List.range n).map fun b => (g.targets d b).length).sum ≤ g.edgeCount := by
  cases d with
  | forward =>
    exact (Digraph.sum_length_listed Prod.fst Prod.snd n g.graph.edges).trans_le
      (List.length_filter_le _ _)
  | backward =>
    exact (Digraph.sum_length_listed Prod.snd Prod.fst n g.graph.edges).trans_le
      (List.length_filter_le _ _)

namespace Engine

variable {V : Type} [DecidableEq V] [LatticeValue V] [LawfulJoin V] {p : Problem V}

/-- How often a result over the tracked locals can grow. -/
def growths (p : Problem V) : Nat :=
  (p.analysis.locals p.graph).toList.length * p.analysis.height p.graph.instructionCount

/-- How often a block may still pass its result on. -/
def remaining (law : p.analysis.Lawful) (e : Engine V) (b : Nat) : Nat :=
  match e.visited[b]?, e.states[b]? with
  | some true, some s => growths p - law.envRank p.graph s.output
  | _, _ => growths p + 1

/-- The blocks that wait and those that may still be put on the list. -/
def potential (law : p.analysis.Lawful) (e : Engine V) : Nat :=
  e.queue.toList.length +
    ((List.range p.graph.blockCount).map fun b => remaining law e b * (p.targets b).length).sum

section

variable {law : p.analysis.Lawful} {e m : Engine V} {b : Nat} {q : Worklist} {block : Block}
  {input output : Env V}

/-- A visit that passes its result on has one such visit less ahead of it; any other visit leaves what
is ahead as it was. -/
theorem remaining_blockStep (hp : p.Sound) (h : Growing law e) (hb : b ∈ e.queue.toList)
    (hstep : BlockStep e b q block input output m) :
    remaining law m b + (if e.renews b input output then 1 else 0) ≤ remaining law e b := by
  have hlt := hp.reachable_lt (h.queued_reachable hb)
  have hbs : b < e.states.length := h.states_length ▸ hlt
  have hbv : b < e.visited.length := h.visited_length ▸ hlt
  obtain ⟨old, hold⟩ := h.exists_state hlt
  obtain ⟨hin, hout, hgrow⟩ := h.visit hp hb hstep hold
  have hm : remaining law m b = growths p - law.envRank p.graph output := by
    have hv : m.visited[b]? = some true := by rw [hstep.visited_eq, List.getElem?_set_self hbv]
    have hs : m.states[b]? = some ⟨input, output⟩ := by
      rw [hstep.states_eq, List.getElem?_set_self hbs]
    simp only [remaining, hv, hs]
  rw [hm]
  rcases h.visited_or hlt with hv | hv
  · simp only [remaining, renews, hv, hold, Option.getD_some, Bool.not_true, Bool.false_or,
      Option.map_some]
    by_cases hne : output = old.output
    · simp [hne]
    · have hrank := law.envRank_lt (h.fits hold).2 hout.toFits hgrow (Ne.symm hne)
      have hmax : law.envRank p.graph output ≤ growths p := law.envRank_le hout.toFits
      simp only [bne_iff_ne, ne_eq, hne, not_false_eq_true, if_true]
      omega
  · simp only [remaining, renews, hv, Option.getD_some, Bool.not_false, Bool.true_or, if_true]
    omega

omit [LawfulJoin V] in
theorem remaining_of_ne (hstep : BlockStep e b q block input output m) {c : Nat} (hc : c ≠ b) :
    remaining law m c = remaining law e c := by
  simp only [remaining, hstep.visited_eq, hstep.states_eq, List.getElem?_set_ne (Ne.symm hc)]

/-- Every block step lowers the potential. -/
theorem potential_blockStep (hp : p.Sound) (h : Growing law e)
    (hperm : (b :: q.toList).Perm e.queue.toList) (hstep : BlockStep e b q block input output m) :
    potential law m + 1 ≤ potential law e := by
  have hb : b ∈ e.queue.toList := hperm.subset (by simp)
  have hlt := hp.reachable_lt (h.queued_reachable hb)
  have hrem := remaining_blockStep hp h hb hstep
  have hlen : q.toList.length + 1 = e.queue.toList.length := by simpa using hperm.length_eq
  have hprob := h.problem_eq
  let d := (p.targets b).length
  have hqueue : m.queue.toList.length ≤
      q.toList.length + (if e.renews b input output then d else 0) := by
    rw [hstep.queue_eq, hprob]
    split
    · exact Worklist.length_addAll_le q (p.targets b)
    · exact Nat.le_refl _
  have hle : ∀ c, remaining law m c * (p.targets c).length ≤ remaining law e c * (p.targets c).length := by
    intro c
    by_cases hc : c = b
    · subst hc
      exact Nat.mul_le_mul_right _ (by omega)
    · rw [remaining_of_ne hstep hc]
  have hself : remaining law m b * d + (if e.renews b input output then d else 0) ≤
      remaining law e b * d := by
    split at hrem
    · rename_i hr
      rw [if_pos hr]
      calc remaining law m b * d + d = (remaining law m b + 1) * d := by rw [Nat.succ_mul]
        _ ≤ remaining law e b * d := Nat.mul_le_mul_right d hrem
    · rename_i hr
      rw [if_neg hr]
      exact Nat.mul_le_mul_right d hrem
  have hsum := sum_map_add_le (List.mem_range.2 hlt) hle hself
  simp only [potential]
  omega

theorem Toured.potential_le {k : Nat} (hp : p.Sound) (he : Growing law e) (h : Toured e k m) :
    potential law m + k ≤ potential law e := by
  induction h with
  | refl => exact Nat.le_refl _
  | tail htour hperm hstep ih =>
    have := potential_blockStep hp (htour.growing hp he) hperm hstep
    omega

omit [DecidableEq V] [LawfulJoin V] in
theorem potential_start (law : p.analysis.Lawful) (hq : q.Fresh) :
    potential law (start p q) ≤ 1 + (growths p + 1) * p.graph.edgeCount := by
  have hlen : (start p q).queue.toList.length = 1 := by
    simp [start, Worklist.toList_add, hq.toList_eq]
  have hrem : ∀ b, remaining law (start p q) b = growths p + 1 := by
    intro b
    have hv : (start p q).visited[b]? ≠ some true := by
      intro hv
      have hmem := List.mem_of_getElem? hv
      simp [start] at hmem
    simp only [remaining]
    split
    · rename_i hv' _
      exact absurd hv' hv
    · rfl
  have hsum := p.graph.sum_targets_le p.direction p.graph.blockCount
  have hmul := Nat.mul_le_mul_left (growths p + 1) hsum
  rw [← List.sum_map_mul_left] at hmul
  simp only [potential, hlen, hrem]
  exact Nat.add_le_add_left hmul 1

/-- However the waiting blocks are taken, a run makes fewer elementary steps than its budget. -/
theorem Moved.lt_budget {n : Nat} (hp : p.Sound) (law : p.analysis.Lawful) (hq : q.Fresh)
    (h : Moved (start p q) n m) : n < p.analysis.budget p.graph := by
  let size := p.graph.instructionCount + 1
  have hstart := growing_start law hq
  have hpot := potential_start law hq
  have hbudget : p.analysis.budget p.graph =
      (1 + (growths p + 1) * p.graph.edgeCount) * size + 1 := rfl
  -- at most as many block steps as the potential at the start, each of at most `size` steps
  have hbound : ∀ k, k ≤ potential law (start p q) → k * size < p.analysis.budget p.graph := by
    intro k hk
    have := Nat.mul_le_mul_right size (Nat.le_trans hk hpot)
    omega
  cases h.stands hp.sane rfl with
  | @between k htour _ hn =>
    have hk := htour.potential_le hp hstart
    have := hbound k (by omega)
    change n ≤ k * size at hn
    omega
  | @midway k b t q' block input done w htour _ hperm hmid _ hn =>
    have hprob : t.problem = p := htour.problem_eq
    have hk := htour.potential_le hp hstart
    have hwaiting : 1 ≤ potential law t := by
      have hlen := hperm.length_eq
      rw [List.length_cons] at hlen
      simp only [potential]
      omega
    have hdone := length_done_lt (hprob ▸ hp.sane) hmid
    rw [hprob] at hdone
    have := hbound (k + 1) (by omega)
    rw [Nat.succ_mul] at this
    change n ≤ k * size + done.length at hn
    omega

/-- Under the laws of the analysis, a step that fails shows the fault of a transfer. -/
theorem Moved.step_ends {n : Nat} {s : Step V} (hp : p.Sound) (law : p.analysis.Lawful) (hq : q.Fresh)
    (h : Moved (start p q) n m) (hs : MayStep m s) :
    (∃ m', s = .recorded m') ∨
    (s = .settled ∧ m.walk = none ∧ m.queue.toList = []) ∨
    ∃ f, s = .failed f ∧ Stuck (start p q) f := by
  rcases mayStep_cases hp.sane (h.stands hp.sane rfl) hs with ⟨m', hm', -⟩ | hset | hfail |
    ⟨k, b, f, htour, -, hb, -, hcause⟩
  · exact .inl ⟨m', hm'⟩
  · exact .inr (.inl hset)
  · exact .inr (.inr hfail)
  · -- the block taken is one of the graph, and joins never refuse
    have hgrow := htour.growing hp (growing_start law hq)
    have hlt := hp.reachable_lt (hgrow.queued_reachable hb)
    exfalso
    rcases hcause with hcause | hcause
    · obtain ⟨block, hblock⟩ := Flowgraph.block?_eq_some_of_lt hlt
      have hok := Flowgraph.block_eq_ok.2 hblock
      rw [show (start p q).problem = p from rfl, hok] at hcause
      cases hcause
    · obtain ⟨j, hj, -⟩ := hgrow.exists_input hp b
      rw [show (start p q).problem = p from rfl, hj] at hcause
      cases hcause

theorem Moved.step_cases {n : Nat} {s : Step V} (hp : p.Sound) (law : p.analysis.Lawful) (hq : q.Fresh)
    (h : Moved (start p q) n m) (hs : MayStep m s) :
    (∃ m', s = .recorded m') ∨
    (s = .settled ∧ m.walk = none ∧ m.queue.toList = []) ∨
    ∃ f site env, s = .failed f ∧ site ∈ p.graph.sites ∧ p.apply site env = .error f := by
  rcases h.step_ends hp law hq hs with hrec | hset | ⟨f, hf, hstuck⟩
  · exact .inl hrec
  · exact .inr (.inl hset)
  · obtain ⟨site, env, hsite⟩ := hstuck.exists_site
    exact .inr (.inr ⟨f, site, env, hf, hsite⟩)

end

end Engine

namespace Run

variable {V : Type} [DecidableEq V] [LatticeValue V] [LawfulJoin V] {p : Problem V} {q : Worklist}

/-- A run comes to its end before its fuel does. -/
theorem ofQueue_ends (hp : p.Sound) (law : p.analysis.Lawful) (hq : q.Fresh) :
    ∃ n, (Engine.start p q).Moved n (ofQueue p q).engine ∧
      (((ofQueue p q).ending = .settled ∧ (ofQueue p q).engine.walk = none ∧
        (ofQueue p q).engine.queue.toList = []) ∨
      ∃ f, (ofQueue p q).ending = .failed f ∧ (Engine.start p q).Stuck f) := by
  have hready : (Engine.start p q).queue.Ready := Worklist.ready_add hq.ready p.boundary
  have hdrive : (Engine.start p q).drive (p.analysis.budget p.graph) =
      ((ofQueue p q).engine, (ofQueue p q).ending) := rfl
  obtain ⟨n, -, hmoved, hend⟩ := Engine.drive_cases hready hdrive
  refine ⟨n, hmoved, ?_⟩
  rcases hend with ⟨-, hn⟩ | ⟨hend, hstep⟩ | ⟨f, hend, hstep⟩
  · have := hmoved.lt_budget hp law hq
    omega
  · rcases hmoved.step_ends hp law hq hstep with ⟨m', h⟩ | ⟨-, hset⟩ | ⟨f, h, -⟩
    · cases h
    · exact .inl ⟨hend, hset⟩
    · cases h
  · rcases hmoved.step_ends hp law hq hstep with ⟨m', h⟩ | ⟨h, -⟩ | ⟨f', h, hstuck⟩
    · cases h
    · cases h
    · cases h
      exact .inr ⟨f, hend, hstuck⟩

theorem ofQueue_cases (hp : p.Sound) (law : p.analysis.Lawful) (hq : q.Fresh) :
    ∃ n, (Engine.start p q).Moved n (ofQueue p q).engine ∧
      (((ofQueue p q).ending = .settled ∧ (ofQueue p q).engine.walk = none ∧
        (ofQueue p q).engine.queue.toList = []) ∨
      ∃ f site env, (ofQueue p q).ending = .failed f ∧ site ∈ p.graph.sites ∧
        p.apply site env = .error f) := by
  obtain ⟨n, hmoved, hset | ⟨f, hend, hstuck⟩⟩ := ofQueue_ends hp law hq
  · exact ⟨n, hmoved, .inl hset⟩
  · obtain ⟨site, env, hsite⟩ := hstuck.exists_site
    exact ⟨n, hmoved, .inr ⟨f, site, env, hend, hsite⟩⟩

end Run

end FlowHistory
