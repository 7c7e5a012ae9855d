import FlowHistory.Proofs.Fixpoint

/-!
# What each elementary step records

An elementary step stores the state of one block and adds a snapshot of the table that it leaves. So every
snapshot of a run shows the table of an earlier moment. At each moment, also midway in a visit, the blocks
that have been under the cursor hold reached states, and after the first step all others hold nothing. A
property of single values that joins and transfers keep holds of every value at every moment.
-/
namespace FlowHistory

theorem set_eq_self {α : Type} {l : List α} {i : Nat} {a : α} (h : l[i]? = some a) : l.set i a = l := by
  obtain ⟨hlt, rfl⟩ := List.getElem?_eq_some_iff.1 h
  exact List.set_getElem_self hlt

namespace Engine

variable {V : Type} [DecidableEq V] [LatticeValue V]

/-- An elementary step stores `s` as the state of block `b` and shows the table. A walk that goes on
stands at what was stored. -/
structure Recorded (e : Engine V) (b : Nat) (s : BlockState V) (m : Engine V) : Prop where
  states_eq : m.states = e.states.set b s
  shown : ∃ snap, m.snapshots.toList = e.snapshots.toList ++ [snap] ∧ snap.cursor.block = b ∧
    snap.states = m.states
  walking {w : Walk V} : m.walk = some w → w.block = b ∧ s = ⟨w.input, w.current⟩

variable {e m : Engine V} {b n : Nat} {q : Worklist}

omit [LatticeValue V] in
theorem recorded_advance {w : Walk V} (h : e.advance w = .recorded m) :
    ∃ s, Recorded e w.block s m ∧ m.visited = e.visited := by
  simp only [advance] at h
  split at h
  · cases h
  · rename_i current _
    obtain ⟨snap, hsnap, hcursor, -, hstates⟩ := exists_record (e.store w.block ⟨w.input, current⟩
      (w.rest.isEmpty && (w.firstVisit || current != w.before))) ⟨w.block, w.next.1⟩
    have hblock : snap.cursor.block = w.block := by rw [hcursor]
    split at h
    · cases h
      exact ⟨_, ⟨rfl, ⟨snap, hsnap, hblock, hstates⟩, fun hw => by cases hw⟩, rfl⟩
    · cases h
      refine ⟨_, ⟨rfl, ⟨snap, hsnap, hblock, hstates⟩, fun hw => ?_⟩, rfl⟩
      cases hw
      exact ⟨rfl, rfl⟩

theorem recorded_enter (hidle : e.walk = none) (h : e.enter b q = .recorded m) :
    ∃ s, Recorded e b s m ∧ m.visited = e.visited.set b true := by
  simp only [enter] at h
  split at h
  · cases h
  · split at h
    · cases h
    · rename_i input _
      split at h
      · obtain ⟨snap, hsnap, hcursor, -, hstates⟩ := exists_record
          ({ e with
            queue := q
            visited := e.visited.set b true
            blockStarts := e.blockStarts.push e.snapshots.size }.store b ⟨input, input⟩
            (e.renews b input input)) ⟨b, 0⟩
        cases h
        refine ⟨_, ⟨rfl, ⟨snap, hsnap, by rw [hcursor], hstates⟩, fun hw => ?_⟩, rfl⟩
        exact absurd hw (by simp [record, store, hidle])
      · obtain ⟨s, hs, hvisited⟩ := recorded_advance h
        exact ⟨s, ⟨hs.states_eq, hs.shown, hs.walking⟩, hvisited⟩

/-- A recorded step carries on with the block under way, or takes a waiting block and marks it as
visited. -/
theorem MayStep.recorded (h : MayStep e (.recorded m)) : ∃ b s, Recorded e b s m ∧
    ((∃ w, e.walk = some w ∧ w.block = b ∧ m.visited = e.visited) ∨
      (e.walk = none ∧ b ∈ e.queue.toList ∧ m.visited = e.visited.set b true)) := by
  generalize hs : Step.recorded m = step at h
  cases h with
  | @advance w hw =>
    obtain ⟨s, hrec, hvisited⟩ := recorded_advance hs.symm
    exact ⟨_, s, hrec, .inl ⟨w, hw, rfl, hvisited⟩⟩
  | @enter b q hidle hperm =>
    obtain ⟨s, hrec, hvisited⟩ := recorded_enter hidle hs.symm
    exact ⟨b, s, hrec, .inr ⟨hidle, hperm.subset List.mem_cons_self, hvisited⟩⟩
  | settle _ _ => cases hs

variable {p : Problem V}

/-- What elementary steps keep: the blocks that have been under the cursor are those marked as visited,
and a walk under way stands at what is stored of its block. -/
structure Noted (p : Problem V) (e : Engine V) : Prop where
  states_length : e.states.length = p.graph.blockCount
  visited_length : e.visited.length = p.graph.blockCount
  seen_iff {b : Nat} : (∃ s ∈ e.snapshots.toList, s.cursor.block = b) ↔ e.visited[b]? = some true
  walking {w : Walk V} : e.walk = some w →
    e.visited[w.block]? = some true ∧ e.states[w.block]? = some ⟨w.input, w.current⟩

omit [DecidableEq V] [LatticeValue V] in
theorem Noted.recorded {s : BlockState V} (h : Noted p e) (hb : b < p.graph.blockCount)
    (hstep : Recorded e b s m) (hvisited : m.visited = e.visited.set b true) : Noted p m := by
  have hbv : b < e.visited.length := h.visited_length ▸ hb
  have hbs : b < e.states.length := h.states_length ▸ hb
  obtain ⟨snap, hsnap, hcursor, -⟩ := hstep.shown
  refine ⟨by rw [hstep.states_eq, List.length_set, h.states_length],
    by rw [hvisited, List.length_set, h.visited_length], fun {c} => ?_, fun {w} hw => ?_⟩
  · rw [hvisited, visited_set hbv, ← h.seen_iff, hsnap]
    simp [hcursor, or_and_right, exists_or, or_comm, eq_comm]
  · obtain ⟨hblock, rfl⟩ := hstep.walking hw
    rw [hblock, hvisited, hstep.states_eq, List.getElem?_set_self hbv, List.getElem?_set_self hbs]
    exact ⟨rfl, rfl⟩

theorem Moved.noted (hp : p.Sound) (hq : q.Fresh) (h : Moved (start p q) n m) : Noted p m := by
  have hstart := consistent_start p hq
  induction h with
  | refl => exact ⟨hstart.states_length, hstart.visited_length, hstart.recorded, fun hw => by cases hw⟩
  | tail hmoved hstep ih =>
    obtain ⟨b, s, hrec, ⟨w, hw, rfl, hvisited⟩ | ⟨hidle, hb, hvisited⟩⟩ := hstep.recorded
    · obtain ⟨hseen, -⟩ := ih.walking hw
      have hlt := (List.getElem?_eq_some_iff.1 hseen).1
      exact ih.recorded (ih.visited_length ▸ hlt) hrec (hvisited.trans (set_eq_self hseen).symm)
    · obtain ⟨k, htour⟩ := hmoved.toured hp hidle
      have hcons := htour.consistent hp.sane hp.boundary_lt hstart
      exact ih.recorded (hp.reachable_lt (hcons.queued_reachable hb)) hrec hvisited

/-- Every snapshot shows the table of the moment when it was the last one. -/
theorem Moved.exists_moment (h : Moved (start p q) n m) {i : Nat} {snap : Snapshot V}
    (hsnap : m.snapshots.toList[i]? = some snap) :
    ∃ k m', Moved (start p q) (k + 1) m' ∧ m'.states = snap.states ∧
      m'.snapshots.toList = m.snapshots.toList.take (i + 1) := by
  induction h with
  | refl => simp [start] at hsnap
  | @tail n e m hmoved hstep ih =>
    obtain ⟨b, s, hrec, -⟩ := hstep.recorded
    obtain ⟨last, hlast, -, hstates⟩ := hrec.shown
    rw [hlast] at hsnap ⊢
    by_cases hi : i < e.snapshots.toList.length
    · rw [List.getElem?_append_left hi] at hsnap
      rw [List.take_append_of_le_length hi]
      exact ih hsnap
    · have hlen := (List.getElem?_eq_some_iff.1 hsnap).1
      rw [List.length_append, List.length_singleton] at hlen
      obtain rfl : i = e.snapshots.toList.length := by omega
      rw [List.getElem?_concat_length, Option.some.injEq] at hsnap
      subst hsnap
      refine ⟨n, m, hmoved.tail hstep, hstates.symm, ?_⟩
      rw [hlast, List.take_of_length_le (by simp)]

/-- The table at a moment is that of whole block steps, or differs from it at the block under way, which
holds what the instructions walked so far make of its input. -/
theorem Moved.table_cases (hp : p.Sound) (hq : q.Fresh) (h : Moved (start p q) n m) :
    ∃ k t, Toured (start p q) k t ∧ (m = t ∨ ∃ b block input done current, b ∈ t.queue.toList ∧
      p.graph.block? b = some block ∧ p.inputOf t.states b = .ok input ∧
      (∀ s ∈ done, s ∈ p.walkOrder block) ∧ p.applyAll done input = .ok current ∧
      m.states = t.states.set b ⟨input, current⟩ ∧ m.visited = t.visited.set b true) := by
  cases h.stands hp.sane rfl with
  | @between k htour _ _ => exact ⟨k, m, htour, .inl rfl⟩
  | @midway k b t q' block input done w htour _ hperm hmid hwalk _ =>
    have hprob : t.problem = p := htour.problem_eq
    obtain ⟨-, hstored⟩ := (h.noted hp hq).walking hwalk
    rw [hmid.block_eq, hmid.walk_input] at hstored
    have horder := hmid.order
    rw [hprob] at horder
    refine ⟨k, t, htour, .inr ⟨b, block, input, done, w.current, hperm.subset List.mem_cons_self,
      hprob ▸ hmid.lookup, hprob ▸ hmid.input_eq, fun s hs => ?_, hprob ▸ hmid.current_eq, ?_,
      hmid.visited_eq⟩⟩
    · rw [horder]
      exact List.mem_append_left _ hs
    · rw [← hmid.states_eq, set_eq_self hstored]

variable [LawfulJoin V]

/-- Nothing is visited before the boundary. -/
theorem Moved.boundary_visited (hp : p.Sound) (law : p.analysis.Lawful) (hq : q.Fresh)
    (h : Moved (start p q) n m) {c : Nat} (hc : m.visited[c]? = some true) :
    m.visited[p.boundary]? = some true := by
  induction h generalizing c with
  | refl =>
    obtain ⟨s, hs, -⟩ := (consistent_start p hq).recorded.2 hc
    simp [start] at hs
  | tail hmoved hstep ih =>
    obtain ⟨b, s, -, ⟨w, -, -, hvisited⟩ | ⟨hidle, hb, hvisited⟩⟩ := hstep.recorded
    · rw [hvisited] at hc ⊢
      exact ih hc
    · obtain ⟨k, htour⟩ := hmoved.toured hp hidle
      have hgrow := htour.growing hp (growing_start law hq)
      have hlt : b < _ := hgrow.visited_length ▸ hp.reachable_lt (hgrow.queued_reachable hb)
      rw [hvisited, visited_set hlt] at hc ⊢
      rcases hc with rfl | hc
      · rcases hgrow.fed hb with hb | ⟨a, -, ha⟩
        · exact .inl hb.symm
        · exact .inr (ih ha)
      · exact .inr (ih hc)

/-- What the table holds at every moment. -/
structure Held (law : p.analysis.Lawful) (m : Engine V) : Prop where
  fits {b : Nat} {s : BlockState V} : m.states[b]? = some s →
    law.Fits p.graph s.input ∧ law.Fits p.graph s.output
  reached {b : Nat} {s : BlockState V} : m.visited[b]? = some true → m.states[b]? = some s →
    law.Reached p.graph s.input ∧ law.Reached p.graph s.output
  untouched {b : Nat} : m.visited[b]? = some false →
    m.states[b]? = some ⟨p.analysis.seed p.graph p.boundary b, p.analysis.bottomEnv p.graph⟩

theorem Moved.held (hp : p.Sound) (law : p.analysis.Lawful) (hq : q.Fresh)
    (h : Moved (start p q) n m) : Held law m := by
  obtain ⟨k, t, htour, rfl | ⟨b, block, input, done, current, hb, hblock, hinput, hdone, hcurrent,
    hstates, hvisited⟩⟩ := h.table_cases hp hq
  · have hgrow := htour.growing hp (growing_start law hq)
    exact ⟨hgrow.fits, hgrow.reached, hgrow.untouched⟩
  · have hgrow := htour.growing hp (growing_start law hq)
    have hlt := hp.reachable_lt (hgrow.queued_reachable hb)
    have hin := hgrow.input_reached hp hb hinput
    have hout := Problem.applyAll_reached law hin hcurrent
    -- only the block under way differs
    have hself : m.states[b]? = some ⟨input, current⟩ := by
      rw [hstates, List.getElem?_set_self (hgrow.states_length ▸ hlt)]
    have hother : ∀ c, c ≠ b → m.states[c]? = t.states[c]? ∧ m.visited[c]? = t.visited[c]? := by
      intro c hc
      rw [hstates, hvisited, List.getElem?_set_ne (Ne.symm hc), List.getElem?_set_ne (Ne.symm hc)]
      exact ⟨rfl, rfl⟩
    have hmark : m.visited[b]? = some true := by
      rw [hvisited, List.getElem?_set_self (hgrow.visited_length ▸ hlt)]
    refine ⟨fun {c s} hs => ?_, fun {c s} hv hs => ?_, fun {c} hv => ?_⟩
    · by_cases hc : c = b
      · rw [hc, hself] at hs
        cases hs
        exact ⟨hin.toFits, hout.toFits⟩
      · exact hgrow.fits ((hother c hc).1 ▸ hs)
    · by_cases hc : c = b
      · rw [hc, hself] at hs
        cases hs
        exact ⟨hin, hout⟩
      · exact hgrow.reached ((hother c hc).2 ▸ hv) ((hother c hc).1 ▸ hs)
    · have hc : c ≠ b := by
        rintro rfl
        rw [hmark] at hv
        cases hv
      rw [(hother c hc).1]
      exact hgrow.untouched ((hother c hc).2 ▸ hv)

/-- After the first step, a block that has not been under the cursor holds nothing. -/
theorem Moved.bottom_of_not_visited (hp : p.Sound) (law : p.analysis.Lawful) (hq : q.Fresh)
    (h : Moved (start p q) (n + 1) m) (hb : b < p.graph.blockCount)
    (hnot : m.visited[b]? ≠ some true) :
    m.states[b]? = some ⟨p.analysis.bottomEnv p.graph, p.analysis.bottomEnv p.graph⟩ := by
  have hnoted := h.noted hp hq
  have hfalse : m.visited[b]? = some false := by
    have hlt := hnoted.visited_length ▸ hb
    rw [List.getElem?_eq_getElem hlt] at hnot ⊢
    simpa using hnot
  have hne : b ≠ p.boundary := by
    rintro rfl
    obtain ⟨c, hc⟩ : ∃ c, m.visited[c]? = some true := by
      cases h with
      | tail hmoved hstep =>
        obtain ⟨c, s, hrec, -⟩ := hstep.recorded
        obtain ⟨snap, hsnap, hcursor, -⟩ := hrec.shown
        exact ⟨c, hnoted.seen_iff.1 ⟨snap, by simp [hsnap], hcursor⟩⟩
    exact hnot (h.boundary_visited hp law hq hc)
  rw [(h.held hp law hq).untouched hfalse, Problem.seed_of_ne hne]

end Engine

/-- A property of single values that everything in a run on `g` keeps. -/
structure Analysis.Keeps {V : Type} [LatticeValue V] (a : Analysis V) (g : Flowgraph)
    (P : Local → V → Prop) : Prop where
  bottom {x : Local} : a.tracks x = true → P x (a.bottom x)
  fresh {x : Local} : a.tracks x = true → P x (a.fresh g.instructionCount x)
  join {x : Local} {v w u : V} : P x v → P x w → LatticeValue.join v w = .ok u → P x u
  transfer {s : Site} {e e' : Env V} : s ∈ g.sites → e.All P →
    a.transfer g.instructionCount s e = .ok e' → e'.All P

theorem Env.all_joinAll {V : Type} [LatticeValue V] {P : Local → V → Prop}
    (hjoin : ∀ x v w u, P x v → P x w → LatticeValue.join v w = .ok u → P x u) {es : List (Env V)}
    {j : Env V} (h : ∀ e ∈ es, e.All P) (hj : Env.joinAll es = .ok j) : j.All P := by
  cases es with
  | nil => cases hj
  | cons e rest =>
    obtain ⟨hl, hfold⟩ := Env.joinAll_cons.1 hj
    induction rest generalizing e with
    | nil =>
      cases hfold
      exact h _ (by simp)
    | cons f rest ih =>
      obtain ⟨i, hi, hrest⟩ := Env.foldlM_joinSame_cons.1 hfold
      have hlf := hl f (by simp)
      have hi' : i.All P := by
        intro x u hu
        obtain ⟨v, w, hv, hw, huv⟩ := (Env.get?_joinSame hlf hi).1 hu
        exact hjoin x v w u (h e (by simp) x v hv) (h f (by simp) x w hw) huv
      have hli : ∀ f' ∈ rest, i.locals = f'.locals := fun f' hf' =>
        (Env.locals_joinSame hlf hi).trans (hl f' (by simp [hf']))
      refine ih i ?_ (Env.joinAll_cons.2 ⟨hli, hrest⟩) hli hrest
      simp only [List.forall_mem_cons]
      exact ⟨hi', fun f' hf' => h f' (by simp [hf'])⟩

namespace Analysis.Keeps

variable {V : Type} [LatticeValue V] {p : Problem V} {P : Local → V → Prop}

theorem seed (hP : p.analysis.Keeps p.graph P) (b : Nat) :
    (p.analysis.seed p.graph p.boundary b).All P := by
  rw [Analysis.seed]
  split
  · exact Env.all_ofFn fun x hx => hP.fresh (LocalSet.mem_filter.1 hx).2
  · exact Env.all_ofFn fun x hx => hP.bottom (LocalSet.mem_filter.1 hx).2

theorem applyAll (hP : p.analysis.Keeps p.graph P) {l : List (Nat × Site)} {e e' : Env V}
    (hl : ∀ s ∈ l, s.2 ∈ p.graph.sites) (he : e.All P) (h : p.applyAll l e = .ok e') : e'.All P := by
  induction l generalizing e with
  | nil =>
    cases h
    exact he
  | cons s l ih =>
    obtain ⟨f, hs, hrest⟩ := Problem.applyAll_cons.1 h
    exact ih (fun t ht => hl t (by simp [ht])) (hP.transfer (hl s (by simp)) he hs) hrest

theorem inputOf (hP : p.analysis.Keeps p.graph P) {states : List (BlockState V)} {b : Nat} {j : Env V}
    (hstates : ∀ (c : Nat) (s : BlockState V), states[c]? = some s → s.output.All P)
    (hj : p.inputOf states b = .ok j) : j.All P := by
  by_cases hs : p.sources b = []
  · rw [Problem.inputOf_of_sources_nil hs, Except.ok.injEq] at hj
    exact hj ▸ hP.seed b
  · rw [Problem.inputOf_of_sources_ne_nil hs] at hj
    refine Env.all_joinAll (P := P) (fun _ _ _ _ => hP.join) (fun e he => ?_) hj
    obtain ⟨c, -, s, hs, rfl⟩ := Problem.mem_incoming.1 he
    exact hstates c s hs

/-- A part of a visit keeps the property. -/
theorem visit (hP : p.analysis.Keeps p.graph P) {states : List (BlockState V)} {b : Nat} {block : Block}
    {done : List (Nat × Site)} {input current : Env V}
    (hstates : ∀ (c : Nat) (s : BlockState V), states[c]? = some s → s.input.All P ∧ s.output.All P)
    (hblock : p.graph.block? b = some block) (hinput : p.inputOf states b = .ok input)
    (hdone : ∀ s ∈ done, s ∈ p.walkOrder block) (hcurrent : p.applyAll done input = .ok current) {c : Nat}
    {s : BlockState V} (hs : (states.set b ⟨input, current⟩)[c]? = some s) :
    s.input.All P ∧ s.output.All P := by
  have hin := hP.inputOf (fun c s hs => (hstates c s hs).2) hinput
  have hsites : ∀ s ∈ done, s.2 ∈ p.graph.sites := fun s hs =>
    Flowgraph.mem_sites_of_block? hblock (Problem.mem_sites_of_mem_walkOrder (hdone s hs))
  rw [List.getElem?_set] at hs
  split at hs
  · split at hs
    · cases hs
      exact ⟨hin, hP.applyAll hsites hin hcurrent⟩
    · cases hs
  · exact hstates c s hs

variable [DecidableEq V] {q : Worklist} {m : Engine V} {n b : Nat} {s : BlockState V}

theorem toured (hP : p.analysis.Keeps p.graph P) (h : (Engine.start p q).Toured n m)
    (hs : m.states[b]? = some s) : s.input.All P ∧ s.output.All P := by
  induction h generalizing b s with
  | refl =>
    rw [Engine.states_start] at hs
    split at hs
    · cases hs
      exact ⟨hP.seed b, Env.all_ofFn fun x hx => hP.bottom (LocalSet.mem_filter.1 hx).2⟩
    · cases hs
  | tail htour _ hstep ih =>
    have hprob : _ = p := htour.problem_eq
    rw [hstep.states_eq] at hs
    exact hP.visit (fun _ _ => ih) (hprob ▸ hstep.lookup) (hprob ▸ hstep.input_eq)
      (fun _ hs => hs) (hprob ▸ hstep.flow_eq) hs

theorem moved (hP : p.analysis.Keeps p.graph P) (hp : p.Sound) (hq : q.Fresh)
    (h : (Engine.start p q).Moved n m) (hs : m.states[b]? = some s) :
    s.input.All P ∧ s.output.All P := by
  obtain ⟨k, t, htour, rfl | ⟨c, block, input, done, current, -, hblock, hinput, hdone, hcurrent,
    hstates, -⟩⟩ := h.table_cases hp hq
  · exact hP.toured htour hs
  · rw [hstates] at hs
    exact hP.visit (fun _ _ => hP.toured htour) hblock hinput hdone hcurrent hs

end Analysis.Keeps

end FlowHistory
