import FlowHistory.Proofs.TaintPaths

/-!
# Violations last

No instruction takes a mark of violation away: the tags of an invocation force the taint of a local and an
assignment replaces it, but both carry the mark over. Neither does a join. So what a completed run holds as
violated at the end of a block is violated at the top and at the end of every block downstream, by induction
along the path with one edge and one block at a time.
-/
namespace FlowHistory

/-- Control can go on from the end of block `a` to block `b`. It takes an edge at least, so a block is
downstream of itself only on a cycle. -/
def Flowgraph.Downstream (g : Flowgraph) (a b : Nat) : Prop := ∃ c ∈ g.successors a, g.Leads c b

namespace Taint

/-- The state holds the local as violated. -/
def Violated (e : Env TaintValue) (x : Local) : Prop := ∃ v, e.get? x = some v ∧ v.violated = true

namespace Violated

variable {e f : Env TaintValue} {x : Local}

theorem of_below (h : Violated e x) (hef : e.Below f) : Violated f x :=
  marking.meets_up (c := some (x, .violation)) h hef

/-- A change of single values that keeps their marks. -/
theorem mapValues {change : Local → TaintValue → TaintValue} (h : Violated e x)
    (hkeep : ∀ v, v.violated = true → (change x v).violated = true) : Violated (e.mapValues change) x := by
  obtain ⟨v, hv, hviolated⟩ := h
  exact ⟨change x v, by rw [Env.get?_mapValues, hv]; rfl, hkeep v hviolated⟩

theorem afterCall (i : Instruction) (h : Violated e x) : Violated (afterCall i e) x := by
  obtain ⟨tags, hcall⟩ := afterCall_eq i
  rw [hcall]
  exact h.mapValues fun v hv => violation_mark.2 (.inl hv)

theorem overwrite (y : Local) (v : TaintValue) (h : Violated e x) : Violated (overwrite e y v) x := by
  rw [overwrite_eq]
  refine h.mapValues fun old hold => ?_
  by_cases hx : x = y <;> simp [hx, hold]

theorem afterWrite (i : Instruction) (h : Violated e x) : Violated (afterWrite i e) x := by
  rcases afterWrite_cases i with hs | ⟨y, value, hs⟩ | ⟨y, hs⟩ <;> rw [hs]
  · exact h
  · exact h.overwrite y _
  · exact h.overwrite y _

/-- An invocation whose result is assigned marks its argument first and then overwrites the target, which
may be the same local. -/
theorem step (i : Instruction) (h : Violated e x) : Violated (step i e) x := (h.afterCall i).afterWrite i

variable {p : Problem TaintValue}

theorem applyAll (hp : p.analysis = analysis) {l : List (Nat × Site)} (h : Violated e x)
    (hl : p.applyAll l e = .ok f) : Violated f x := by
  induction l generalizing e with
  | nil =>
    cases hl
    exact h
  | cons s l ih =>
    obtain ⟨e₁, hs, hrest⟩ := Problem.applyAll_cons.1 hl
    rw [Problem.apply, hp] at hs
    cases hs
    exact ih (h.step s.2.instruction) hrest

/-- What is violated at the top of a block is violated at the top and at the end of all blocks that it leads
to. -/
theorem along {g : Flowgraph} {X : List (BlockState TaintValue)} {a b : Nat} {path : List Nat}
    {s : BlockState TaintValue} (hg : g.Built) (hX : Problem.Solution ⟨analysis, g, g.entry⟩ X)
    (hpath : g.Path a path b) (ha : Problem.Reachable ⟨analysis, g, g.entry⟩ a) (hs : X[a]? = some s)
    (h : Violated s.input x) : ∃ t, X[b]? = some t ∧ Violated t.input x ∧ Violated t.output x := by
  have hsound := Problem.sound_of_create hg (Problem.create_forward (a := analysis) hg rfl)
  -- the path is followed block by block: through its first block, then over the edge to the second
  induction hpath generalizing s with
  | single a =>
    obtain ⟨block, -, -, hflow⟩ := hX.equations ha hs
    exact ⟨s, hs, h, h.applyAll rfl hflow⟩
  | @cons a c b path hac _ ih =>
    obtain ⟨block, -, -, hflow⟩ := hX.equations ha hs
    have hout : Violated s.output x := h.applyAll rfl hflow
    have hc : Problem.Reachable ⟨analysis, g, g.entry⟩ c := ha.tail hac
    obtain ⟨t, ht⟩ := hX.exists_state (hsound.reachable_lt hc)
    exact ih hc ht (hout.of_below (hX.output_below_input ha hac hs ht))

end Violated

variable {g : Flowgraph} {q : Worklist}

/-- Every instruction keeps the violations of a state. So a run, which always completes, holds what is
violated at the end of a block as violated at the top and at the end of each block downstream. -/
theorem violations_last (hg : g.Built) (hq : q.Fresh) :
    (∀ n s e, ∃ e', analysis.transfer n s e = .ok e' ∧ ∀ x, Violated e x → Violated e' x) ∧
    ∃ h last, analysis.runFrom g q = .ok h ∧ h.last? = some last ∧
      ∀ b s x, g.Leads g.entry b → last.states[b]? = some s → Violated s.output x →
        ∀ c, g.Downstream b c →
          ∃ t, last.states[c]? = some t ∧ Violated t.input x ∧ Violated t.output x := by
  have hp := Problem.create_forward (a := analysis) hg rfl
  have hsound := Problem.sound_of_create hg hp
  refine ⟨fun n s e => ⟨step s.instruction e, rfl, fun x hx => hx.step s.instruction⟩, ?_⟩
  obtain ⟨h, hrun⟩ := lawful.exists_run hg hp hq fun s _ e => ⟨_, rfl⟩
  obtain ⟨last, hlast, -, hX, -⟩ := lawful.solution_of_run hg hp hq hrun
  refine ⟨h, last, hrun, hlast, ?_⟩
  rintro b s x hb hs hviolated c ⟨d, hbd, path, hpath⟩
  have hreach : Problem.Reachable ⟨analysis, g, g.entry⟩ b := (Problem.reachable_forward_iff rfl).2 hb
  have hnext : Problem.Reachable ⟨analysis, g, g.entry⟩ d := hreach.tail hbd
  obtain ⟨t, ht⟩ := hX.exists_state (hsound.reachable_lt hnext)
  have htop : Violated t.input x := hviolated.of_below (hX.output_below_input hreach hbd hs ht)
  exact htop.along hg hX hpath hnext ht

/-- The top of the block itself is left out unless a cycle leads back to it: here a block violates a local
that is not violated at its top. -/
example : ∃ h last s, analysis.runFrom scrubbing (.naive []) = .ok h ∧ h.last? = some last ∧
    last.states[1]? = some s ∧ Violated s.output ⟨"x", .int⟩ ∧ ¬ Violated s.input ⟨"x", .int⟩ := by
  refine ⟨_, _, _, rfl, rfl, rfl, ⟨_, rfl, rfl⟩, ?_⟩
  rintro ⟨v, hv, hviolated⟩
  cases hv
  cases hviolated

/-- A program that sends a parameter to a sensitive place and sets it to zero, over and over. -/
def resending : Flowgraph where
  graph := ⟨[⟨0, [.bind ⟨"x", .int⟩ (.parameter 0)], false⟩,
    ⟨1, [.invoke ⟨"send", [.read ⟨"x", .int⟩], ⟨false, false, true⟩⟩], false⟩,
    ⟨2, [.assign (.var ⟨"x", .int⟩) (.operand (.literal (.int 0)))], false⟩,
    ⟨3, [.ret none], false⟩], [(0, 1), (1, 2), (2, 1), (2, 3)]⟩
  entry := 0
  exit := some 3
  locals := .ofList [⟨"x", .int⟩, ⟨"x", .int⟩, ⟨"x", .int⟩]

theorem resending_built : resending.Built := by
  have hblocks := (((Draft.Made.empty.addBlock [.bind ⟨"x", .int⟩ (.parameter 0)]).addBlock
    [.invoke ⟨"send", [.read ⟨"x", .int⟩], ⟨false, false, true⟩⟩]).addBlock
    [.assign (.var ⟨"x", .int⟩) (.operand (.literal (.int 0)))]).addBlock [.ret none]
  have hfirst := @Draft.Made.addEdge _ _ 0 1 hblocks rfl
  have hset := @Draft.Made.addEdge _ _ 1 2 hfirst rfl
  have hagain := @Draft.Made.addEdge _ _ 2 1 hset rfl
  have hlast := @Draft.Made.addEdge _ _ 2 3 hagain rfl
  exact ⟨_, hlast, rfl⟩

/-- The violation comes back to the top of the block that caused it, and stays after the local was set to
zero. -/
theorem violations_last_resending :
    ∃ h last s t, analysis.runFrom resending (.naive []) = .ok h ∧ h.last? = some last ∧
      last.states[1]? = some s ∧ Violated s.input ⟨"x", .int⟩ ∧
      last.states[3]? = some t ∧ Violated t.output ⟨"x", .int⟩ := by
  obtain ⟨-, h, last, hrun, hlast, hdown⟩ := violations_last resending_built .naive
  have hentry : resending.Leads 0 1 := ⟨_, .cons (by decide) (.single 1)⟩
  have hcycle : resending.Downstream 1 1 := ⟨2, by decide, _, .cons (by decide) (.single 1)⟩
  have hexit : resending.Downstream 1 3 := ⟨2, by decide, _, .cons (by decide) (.single 3)⟩
  cases hrun
  cases hlast
  have hsent := hdown 1 _ ⟨"x", .int⟩ hentry rfl ⟨_, rfl, rfl⟩
  obtain ⟨s, hs, htop, -⟩ := hsent 1 hcycle
  obtain ⟨t, ht, -, hend⟩ := hsent 3 hexit
  exact ⟨_, _, s, t, rfl, rfl, hs, htop, ht, hend⟩

end Taint

end FlowHistory
