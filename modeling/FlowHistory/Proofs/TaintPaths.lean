import FlowHistory.Proofs.PathStates

/-!
# Taint along single paths

Values are marked by taint and by violation. Each mark that an instruction leaves has a single cause, as
when the taint of a sensitive argument becomes its violation. So a completed run calls a local tainted or
violated at the end of a block exactly if some path to the block leaves it so.
-/
namespace FlowHistory

namespace Taint

/-- What a value may be marked with. -/
inductive Mark
  | taint | violation
  deriving DecidableEq, Repr

def bears (v : TaintValue) : Mark → Prop
  | .taint => v.state = .tainted
  | .violation => v.violated = true

variable {v w old : TaintValue} {k : Mark}

theorem bears_union : bears (v.union w) k ↔ bears v k ∨ bears w k := by
  obtain ⟨s, b⟩ := v
  obtain ⟨t, c⟩ := w
  cases k with
  | taint => cases s <;> cases t <;> simp [bears, TaintValue.union, TaintState.max]
  | violation => simp [bears, TaintValue.union]

theorem bears_combine : bears (v.combine w) k ↔ bears v k ∨ bears w k := by
  cases k with
  | taint =>
    simp only [bears, TaintValue.combine]
    split_ifs <;> simp_all
  | violation => simp [bears, TaintValue.combine]

/-- A new value keeps an old violation, and nothing else of the old value. -/
theorem bears_keep : bears { v with violated := v.violated || old.violated } k ↔
    bears v k ∨ (k = .violation ∧ bears old k) := by
  cases k <;> simp [bears]

theorem taint_mark {tags : Tags} :
    bears (mark tags v) .taint ↔ tags.taint = true ∨ (tags.clean = false ∧ bears v .taint) := by
  simp only [mark]
  split_ifs <;> simp_all [bears, TaintValue.withState]

theorem violation_mark {tags : Tags} :
    bears (mark tags v) .violation ↔ bears v .violation ∨
      (tags.taint = false ∧ tags.clean = false ∧ tags.sensitive = true ∧ bears v .taint) := by
  simp only [mark]
  split_ifs <;> simp_all [bears, TaintValue.withState]

/-- Tags put a mark on every value, or turn a mark of the value into it. -/
theorem bears_mark {tags : Tags} (h : bears (mark tags v) k) :
    (∀ w, bears (mark tags w) k) ∨ ∃ k', bears v k' ∧ ∀ w, bears w k' → bears (mark tags w) k := by
  cases k with
  | taint =>
    rcases taint_mark.1 h with htags | ⟨htags, hv⟩
    · exact .inl fun w => taint_mark.2 (.inl htags)
    · exact .inr ⟨.taint, hv, fun w hw => taint_mark.2 (.inr ⟨htags, hw⟩)⟩
  | violation =>
    rcases violation_mark.1 h with hv | ⟨htaint, hclean, hsensitive, hv⟩
    · exact .inr ⟨.violation, hv, fun w hw => violation_mark.2 (.inl hw)⟩
    · exact .inr ⟨.taint, hv, fun w hw => violation_mark.2 (.inr ⟨htaint, hclean, hsensitive, hw⟩)⟩

/-- Each mark that a change of the state leaves has a single cause: a mark of one local before, or
nothing at all. -/
def Traces (change : Env TaintValue → Env TaintValue) : Prop :=
  ∀ e c, (change e).Meets bears c → ∃ c', e.Meets bears c' ∧
    ∀ f, f.locals = e.locals → f.Meets bears c' → (change f).Meets bears c

/-- Likewise for a value that is read off the state. -/
def Reads (value : Env TaintValue → TaintValue) : Prop :=
  ∀ e k, bears (value e) k → ∃ c, e.Meets bears c ∧
    ∀ f, f.locals = e.locals → f.Meets bears c → bears (value f) k

theorem reads_const (v : TaintValue) : Reads fun _ => v :=
  fun _ _ h => ⟨none, trivial, fun _ _ _ => h⟩

theorem reads_operand (x : Operand) : Reads (operand · x) := by
  cases x with
  | literal c => exact reads_const _
  | read x =>
    intro e k h
    simp only [operand] at h ⊢
    cases hv : e.get? x with
    | some v =>
      rw [hv] at h
      refine ⟨some (x, k), ⟨v, hv, h⟩, ?_⟩
      rintro f - ⟨w, hw, hbears⟩
      rwa [hw]
    | none =>
      -- the local is not tracked in any state over the same locals
      rw [hv] at h
      refine ⟨none, trivial, fun f hf _ => ?_⟩
      cases hw : f.get? x with
      | none => exact h
      | some w =>
        obtain ⟨v, hv'⟩ := Env.exists_get?_of_locals_eq hf hw
        rw [hv] at hv'
        cases hv'

theorem reads_combine {value value' : Env TaintValue → TaintValue} (h : Reads value)
    (h' : Reads value') : Reads fun e => (value e).combine (value' e) := by
  intro e k hk
  rcases bears_combine.1 hk with hk | hk
  · obtain ⟨c, hc, hkeep⟩ := h e k hk
    exact ⟨c, hc, fun f hf hm => bears_combine.2 (.inl (hkeep f hf hm))⟩
  · obtain ⟨c, hc, hkeep⟩ := h' e k hk
    exact ⟨c, hc, fun f hf hm => bears_combine.2 (.inr (hkeep f hf hm))⟩

theorem reads_evaluate (value : Expr) : Reads (evaluate · value) := by
  cases value with
  | operand x | neg x | cast _ x | instanceOf x _ => exact reads_operand x
  | binary op lhs rhs => exact reads_combine (reads_operand lhs) (reads_operand rhs)
  | _ => exact reads_const _

theorem traces_id : Traces fun e => e := fun _ c h => ⟨c, h, fun _ _ hm => hm⟩

theorem Traces.comp {first second : Env TaintValue → Env TaintValue} (h : Traces first)
    (h' : Traces second) (hlocals : ∀ e, (first e).locals = e.locals) :
    Traces fun e => second (first e) := by
  intro e c hc
  obtain ⟨c₁, hc₁, hkeep₁⟩ := h' (first e) c hc
  obtain ⟨c₀, hc₀, hkeep₀⟩ := h e c₁ hc₁
  refine ⟨c₀, hc₀, fun f hf hm => hkeep₁ (first f) ?_ (hkeep₀ f hf hm)⟩
  rw [hlocals, hlocals, hf]

theorem traces_mapValues_mark (tags : Local → Tags) :
    Traces fun e => e.mapValues fun x => mark (tags x) := by
  rintro e (_ | ⟨x, k⟩) h
  · exact ⟨none, trivial, fun _ _ _ => trivial⟩
  · obtain ⟨u, hu, hk⟩ := h
    rw [Env.get?_mapValues] at hu
    obtain ⟨v, hv, rfl⟩ := Option.map_eq_some_iff.1 hu
    rcases bears_mark hk with hall | ⟨k', hk', hkeep⟩
    · refine ⟨none, trivial, fun f hf _ => ?_⟩
      obtain ⟨w, hw⟩ := Env.exists_get?_of_locals_eq hf.symm hv
      exact ⟨_, by rw [Env.get?_mapValues, hw]; rfl, hall w⟩
    · refine ⟨some (x, k'), ⟨v, hv, hk'⟩, ?_⟩
      rintro f - ⟨w, hw, hbears⟩
      exact ⟨_, by rw [Env.get?_mapValues, hw]; rfl, hkeep w hbears⟩

theorem get?_overwrite (e : Env TaintValue) (x y : Local) (v : TaintValue) :
    (overwrite e x v).get? y = (e.get? y).map fun old =>
      if y = x then { v with violated := v.violated || old.violated } else old := by
  rw [overwrite_eq, Env.get?_mapValues]

theorem traces_overwrite (x : Local) {value : Env TaintValue → TaintValue} (hvalue : Reads value) :
    Traces fun e => overwrite e x (value e) := by
  rintro e (_ | ⟨y, k⟩) h
  · exact ⟨none, trivial, fun _ _ _ => trivial⟩
  · obtain ⟨u, hu, hk⟩ := h
    rw [get?_overwrite] at hu
    obtain ⟨old, hold, rfl⟩ := Option.map_eq_some_iff.1 hu
    by_cases hy : y = x
    · simp only [hy, if_true] at hk
      rcases bears_keep.1 hk with hk | ⟨hviolation, hk⟩
      · obtain ⟨c, hc, hkeep⟩ := hvalue e k hk
        refine ⟨c, hc, fun f hf hm => ?_⟩
        obtain ⟨w, hw⟩ := Env.exists_get?_of_locals_eq hf.symm hold
        refine ⟨_, by rw [get?_overwrite, hw]; rfl, ?_⟩
        simp only [hy, if_true]
        exact bears_keep.2 (.inl (hkeep f hf hm))
      · refine ⟨some (y, k), ⟨old, hold, hk⟩, ?_⟩
        rintro f - ⟨w, hw, hbears⟩
        refine ⟨_, by rw [get?_overwrite, hw]; rfl, ?_⟩
        simp only [hy, if_true]
        exact bears_keep.2 (.inr ⟨hviolation, hbears⟩)
    · simp only [hy, if_false] at hk
      refine ⟨some (y, k), ⟨old, hold, hk⟩, ?_⟩
      rintro f - ⟨w, hw, hbears⟩
      exact ⟨w, by simp [get?_overwrite, hw, hy], hbears⟩

theorem traces_step (i : Instruction) : Traces (step i) := by
  obtain ⟨tags, hcall⟩ := afterCall_eq i
  have hfirst : Traces (afterCall i) := funext hcall ▸ traces_mapValues_mark tags
  have hsecond : Traces (afterWrite i) := by
    rcases afterWrite_cases i with hs | ⟨x, value, hs⟩ | ⟨x, hs⟩ <;> rw [funext hs]
    · exact traces_id
    · exact traces_overwrite x (reads_evaluate value)
    · exact traces_overwrite x (reads_const _)
  exact hfirst.comp hsecond fun e => by rw [hcall, Env.locals_mapValues]

def marking : analysis.Marking Mark where
  bears := bears
  bears_join h := by
    cases h
    exact bears_union
  not_bears_bottom {x m} := by cases m <;> simp [bears, analysis, TaintValue.bottom]
  transfer_total _ _ := ⟨_, rfl⟩
  transfer_cause {n s e e' x v m} h hv hm := by
    cases h
    obtain ⟨c, hc, hkeep⟩ := traces_step s.instruction e (some (x, m)) ⟨v, hv, hm⟩
    refine ⟨c, hc, fun f f' hf h' hmeets => ?_⟩
    cases h'
    exact hkeep f hf hmeets

/-- The state at the end of a path: what its instructions, one after the other, make of the state in
which every local is clean. -/
def stateAlong (g : Flowgraph) (path : List Nat) : Env TaintValue :=
  (g.sitesAlong path).foldl (fun e s => step s.instruction e) (analysis.freshEnv g)

/-- Some path from the entry to the end of block `b` leaves the local with the mark. -/
def LeftMarked (g : Flowgraph) (k : Mark) (x : Local) (b : Nat) : Prop :=
  ∃ path v, g.Path g.entry path b ∧ (stateAlong g path).get? x = some v ∧ bears v k

theorem applySites_eq {p : Problem TaintValue} (hp : p.analysis = analysis) (l : List Site)
    (e : Env TaintValue) :
    p.applySites l e = .ok (l.foldl (fun e s => step s.instruction e) e) := by
  induction l generalizing e with
  | nil => rfl
  | cons s l ih =>
    have hs : p.apply s e = .ok (step s.instruction e) := by
      rw [Problem.apply, hp]
      rfl
    exact Problem.applySites_cons.2 ⟨_, hs, ih _⟩

variable {g : Flowgraph} {q : Worklist}

/-- A run completes, and at the end of every block that the entry leads to a numeric local is tainted
exactly if some path leaves it tainted, and else clean. It is violated exactly if some path, perhaps
another one, leaves it violated. -/
theorem final_taint_iff (hg : g.Built) (hq : q.Fresh) :
    ∃ h last, analysis.runFrom g q = .ok h ∧ h.last? = some last ∧
      ∀ b, g.Leads g.entry b → ∀ x ∈ g.locals, x.type.isNumeric = true →
        ∃ s v, last.states[b]? = some s ∧ s.output.get? x = some v ∧
          (v.state = .tainted ↔ LeftMarked g .taint x b) ∧
          (¬ LeftMarked g .taint x b → v.state = .clean) ∧
          (v.violated = true ↔ LeftMarked g .violation x b) := by
  have hp := Problem.create_forward (a := analysis) hg rfl
  obtain ⟨h, hrun⟩ := lawful.exists_run hg hp hq fun s _ e => ⟨_, rfl⟩
  obtain ⟨last, hlast, hstates⟩ := marking.bears_iff_of_run lawful hg hp hq hrun
  refine ⟨h, last, hrun, hlast, fun b hb x hx hnumeric => ?_⟩
  obtain ⟨-, hvalues⟩ := hstates b ((Problem.reachable_forward_iff rfl).2 hb)
  obtain ⟨s, v, hs, hv, hne, hbears⟩ := hvalues x hx hnumeric
  have hmarked : ∀ k, bears v k ↔ LeftMarked g k x b := by
    intro k
    refine (hbears k).trans ⟨?_, ?_⟩
    · rintro ⟨route, f, w, hroute, hf, hw, hk⟩
      rw [applySites_eq rfl, Except.ok.injEq] at hf
      subst hf
      exact ⟨route, w, hroute, hw, hk⟩
    · rintro ⟨path, w, hpath, hw, hk⟩
      exact ⟨path, _, w, hpath, applySites_eq rfl _ _, hw, hk⟩
  refine ⟨s, v, hs, hv, hmarked .taint, fun hnot => ?_, hmarked .violation⟩
  have hclean : v.state ≠ .tainted := fun h => hnot ((hmarked .taint).1 h)
  cases hstate : v.state with
  | bottom => exact absurd hstate hne
  | clean => rfl
  | tainted => exact absurd hstate hclean

/-- A program that may send a parameter to a sensitive place and then scrubs it. -/
def scrubbing : Flowgraph where
  graph := ⟨[⟨0, [.branch (.operand (.literal (.int 1)))], false⟩,
    ⟨1, [.bind ⟨"x", .int⟩ (.parameter 0), .invoke ⟨"send", [.read ⟨"x", .int⟩], ⟨false, false, true⟩⟩,
      .invoke ⟨"scrub", [.read ⟨"x", .int⟩], ⟨false, true, false⟩⟩], false⟩,
    ⟨4, [.ret none], false⟩], [(0, 1), (0, 2), (1, 2)]⟩
  entry := 0
  exit := some 2
  locals := .ofList [⟨"x", .int⟩, ⟨"x", .int⟩, ⟨"x", .int⟩]

theorem scrubbing_built : scrubbing.Built := by
  have hblocks := ((Draft.Made.empty.addBlock [.branch (.operand (.literal (.int 1)))]).addBlock
    [.bind ⟨"x", .int⟩ (.parameter 0), .invoke ⟨"send", [.read ⟨"x", .int⟩], ⟨false, false, true⟩⟩,
      .invoke ⟨"scrub", [.read ⟨"x", .int⟩], ⟨false, true, false⟩⟩]).addBlock [.ret none]
  have hsend := @Draft.Made.addEdge _ _ 0 1 hblocks rfl
  have hskip := @Draft.Made.addEdge _ _ 0 2 hsend rfl
  have hreturn := @Draft.Made.addEdge _ _ 1 2 hskip rfl
  exact ⟨_, hreturn, rfl⟩

/-- The violation is still there after the scrubbing and after the join with a path that has none. -/
theorem final_taint_iff_scrubbing :
    ∃ h last s v, analysis.run scrubbing ⟨.random, some 7⟩ = .ok h ∧ h.last? = some last ∧
      last.states[2]? = some s ∧ s.output.get? ⟨"x", .int⟩ = some v ∧ v.violated = true := by
  obtain ⟨h, last, hrun, hlast, hstates⟩ :=
    final_taint_iff scrubbing_built (Config.worklist_fresh ⟨.random, some 7⟩)
  have hpath : scrubbing.Path 0 [0, 1, 2] 2 := .cons (by decide) (.cons (by decide) (.single 2))
  obtain ⟨s, v, hs, hv, -, -, hviolated⟩ := hstates 2 ⟨_, hpath⟩ ⟨"x", .int⟩ (by decide) rfl
  have hmarked : LeftMarked scrubbing .violation ⟨"x", .int⟩ 2 :=
    ⟨[0, 1, 2], ⟨.clean, true⟩, hpath, by decide, rfl⟩
  exact ⟨h, last, s, v, hrun, hlast, hs, hv, hviolated.2 hmarked⟩

end Taint

end FlowHistory
