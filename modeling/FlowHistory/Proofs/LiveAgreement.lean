import FlowHistory.Proofs.BitLaws
import FlowHistory.Proofs.Liveness
import FlowHistory.Proofs.Refusals

/-!
# What is live is all that matters

Liveness looks at an instruction only through the locals that it reads and the local that it writes. An
analysis that values locals is compared with that: if its instructions depend on nothing but what they read
and change nothing but what they write, then two states that agree on the locals live at the top of a block
are refused alike, or agree at its bottom on the locals live there. Constant folding and the analysis of
single bits are such analyses.
-/
namespace FlowHistory

theorem Env.get?_eq_none_iff {V : Type} {e : Env V} {x : Local} : e.get? x = none ↔ x ∉ e.locals := by
  rw [Env.mem_locals_iff, Option.eq_none_iff_forall_ne_some, not_exists]

/-- Both computations are refused with one fault, or both give a state, over the same locals and with equal
values where `P` holds. -/
inductive Alike {V : Type} (P : Local → Prop) :
    Except Fault (Env V) → Except Fault (Env V) → Prop
  | refused (f : Fault) : Alike P (.error f) (.error f)
  | given {e e' : Env V} : e.locals = e'.locals → (∀ x, P x → e.get? x = e'.get? x) →
    Alike P (.ok e) (.ok e')

namespace Alike

variable {V : Type} {P : Local → Prop} {e e' : Env V} {x : Local}

/-- Writing one value makes two states equal at one more local. -/
theorem write (hl : e.locals = e'.locals) (he : ∀ y, P y → some x ≠ some y → e.get? y = e'.get? y) (v : V) :
    Alike P (.ok (e.write x v)) (.ok (e'.write x v)) := by
  refine .given (by rw [Env.locals_write, Env.locals_write, hl]) fun y hy => ?_
  rw [Env.get?_write, Env.get?_write]
  by_cases hyx : y = x
  · have hnone : e.get? y = none ↔ e'.get? y = none := by
      rw [Env.get?_eq_none_iff, Env.get?_eq_none_iff, hl]
    rw [if_pos hyx, if_pos hyx]
    cases hy : e.get? y <;> cases hy' : e'.get? y <;> simp_all
  · rw [if_neg hyx, if_neg hyx]
    exact he y hy (fun h => hyx (Option.some.inj h).symm)

/-- So does assigning a value that is computed in the same way from both. -/
theorem assign (value : Env V → Except Fault V) (hl : e.locals = e'.locals)
    (he : ∀ y, P y → some x ≠ some y → e.get? y = e'.get? y) (hvalue : value e = value e') :
    Alike P (e.assign x value) (e'.assign x value) := by
  have hcontains : e.contains x = e'.contains x := by
    rw [Bool.eq_iff_iff, ← Env.mem_locals, ← Env.mem_locals, hl]
  rw [Env.assign, Env.assign, ← hcontains, ← hvalue]
  cases hx : e.contains x with
  | true =>
    cases value e with
    | error f => exact .refused f
    | ok v => exact write hl he v
  | false =>
    -- an untracked local has a value in neither state
    have hout : x ∉ e.locals := by simp [Env.mem_locals, hx]
    refine .given hl fun y hy => ?_
    by_cases hyx : x = y
    · rw [← hyx, Env.get?_eq_none_iff.2 hout, Env.get?_eq_none_iff.2 (hl ▸ hout)]
    · exact he y hy (fun h => hyx (Option.some.inj h))

/-- Computations that go on from like states in like ways are alike. -/
theorem bind {Q : Local → Prop} {r r' : Except Fault (Env V)} {f : Env V → Except Fault (Env V)}
    (h : Alike Q r r') (hf : ∀ e e' : Env V, e.locals = e'.locals →
      (∀ y, Q y → e.get? y = e'.get? y) → Alike P (f e) (f e')) : Alike P (r >>= f) (r' >>= f) := by
  cases h with
  | refused fault => exact .refused fault
  | given hl he => exact hf _ _ hl he

end Alike

/-- The instructions depend on what they read and change what they write: states that agree on the former,
and on the locals of interest but for the latter, agree afterwards on the locals of interest. -/
def Analysis.Attentive {V : Type} (a : Analysis V) : Prop :=
  ∀ (n : Nat) (s : Site) (e e' : Env V) (P : Local → Prop), e.locals = e'.locals →
    (∀ x ∈ s.instruction.used, e.get? x = e'.get? x) →
    (∀ x, P x → s.instruction.defined? ≠ some x → e.get? x = e'.get? x) →
    Alike P (a.transfer n s e) (a.transfer n s e')

namespace ConstantFolding

variable {e e' : Env ConstValue}

theorem operand_congr {o : Operand} (h : ∀ x ∈ o.local?.toList, e.get? x = e'.get? x) :
    operand e o = operand e' o := by
  cases o with
  | read x => simp [operand, h x (by simp [Operand.local?])]
  | literal c => cases c <;> rfl

theorem evaluate_congr {value : Expr} (h : ∀ x ∈ value.used, e.get? x = e'.get? x) :
    evaluate e value = evaluate e' value := by
  cases value with
  | operand o => exact operand_congr h
  | binary op lhs rhs =>
    have hlhs := operand_congr (o := lhs) fun x hx => h x (List.mem_append_left _ hx)
    have hrhs := operand_congr (o := rhs) fun x hx => h x (List.mem_append_right _ hx)
    simp only [evaluate, hlhs, hrhs]
  | neg o => simp only [evaluate, operand_congr (o := o) h]
  | cast type o => simp only [evaluate, operand_congr (o := o) h]
  | _ => rfl

theorem attentive : analysis.Attentive := by
  intro n s e e' P hl hused hrest
  obtain ⟨id, i⟩ := s
  cases i with
  | assign target value =>
    cases target with
    | var x =>
      apply Alike.assign (evaluate · value) hl hrest
      exact evaluate_congr fun y hy => hused y (List.mem_append_left _ hy)
    | field base name => exact .given hl fun y hy => hrest y hy (by simp [Instruction.defined?])
    | element base index => exact .given hl fun y hy => hrest y hy (by simp [Instruction.defined?])
  | bind x origin => exact .write hl hrest .top
  | _ => exact .given hl fun y hy => hrest y hy (by simp [Instruction.defined?])

end ConstantFolding

namespace ConstantBits

variable {e e' : Env BitPattern}

theorem operand_congr {o : Operand} (h : ∀ x ∈ o.local?.toList, e.get? x = e'.get? x) :
    operand e o = operand e' o := by
  cases o with
  | read x => simp [operand, h x (by simp [Operand.local?])]
  | literal c => cases c <;> rfl

theorem evaluate_congr {value : Expr} (h : ∀ x ∈ value.used, e.get? x = e'.get? x) (width : Nat) :
    evaluate e width value = evaluate e' width value := by
  cases value with
  | operand o => exact operand_congr h
  | binary op lhs rhs =>
    have hlhs := operand_congr (o := lhs) fun x hx => h x (List.mem_append_left _ hx)
    have hrhs := operand_congr (o := rhs) fun x hx => h x (List.mem_append_right _ hx)
    simp only [evaluate, hlhs, hrhs]
  | neg o => simp only [evaluate, operand_congr (o := o) h]
  | cast type o => simp only [evaluate, operand_congr (o := o) h]
  | _ => rfl

theorem attentive : analysis.Attentive := by
  intro n s e e' P hl hused hrest
  obtain ⟨id, i⟩ := s
  cases i with
  | assign target value =>
    cases target with
    | var x =>
      change Alike P (transfer ⟨id, .assign (.var x) value⟩ e) (transfer ⟨id, .assign (.var x) value⟩ e')
      rw [transfer_assign, transfer_assign]
      apply Alike.assign _ hl hrest
      rw [assigned, assigned, evaluate_congr fun y hy => hused y (List.mem_append_left _ hy)]
    | field base name => exact .given hl fun y hy => hrest y hy (by simp [Instruction.defined?])
    | element base index => exact .given hl fun y hy => hrest y hy (by simp [Instruction.defined?])
  | bind x origin => exact .write hl hrest _
  | lookupSwitch key => exact .refused _
  | tableSwitch key => exact .refused _
  | _ => exact .given hl fun y hy => hrest y hy (by simp [Instruction.defined?])

end ConstantBits

namespace LiveVariables

/-- What is live at the top of some instructions, with what is live at their bottom given. -/
def atTop (l : List Site) (e : Env LiveValue) : Env LiveValue :=
  l.foldr (fun s e => step s.instruction e) e

theorem locals_atTop (l : List Site) (e : Env LiveValue) : (atTop l e).locals = e.locals := by
  induction l with
  | nil => rfl
  | cons s l ih => exact (lawful.transfer_locals (n := 0) (s := s) rfl).trans ih

theorem live_step_of_used {i : Instruction} {e : Env LiveValue} {x : Local} (hx : x ∈ e.locals)
    (hused : x ∈ i.used) : (step i e).get? x = some .live := by
  obtain ⟨v, hv⟩ := Env.mem_locals_iff.1 hx
  simp [get?_step, hv, hused]

theorem live_step_of_not_defined {i : Instruction} {e : Env LiveValue} {x : Local}
    (hx : e.get? x = some .live) (hdef : i.defined? ≠ some x) : (step i e).get? x = some .live := by
  simp [get?_step, hx, hdef]

/-- The result of a block is what is live at its top. -/
theorem flow_eq_atTop {p : Problem LiveValue} (hp : p.analysis = analysis) (block : Block)
    (e : Env LiveValue) : p.flow block e = .ok (atTop block.sites e) := by
  have hdir : p.direction = .backward := by rw [Problem.direction, hp]; rfl
  rw [Problem.flow_eq_applySites, Problem.sites_walkOrder_backward hdir]
  induction block.sites with
  | nil => rfl
  | cons s l ih =>
    rw [List.reverse_cons, Problem.applySites_append]
    refine ⟨_, ih, Problem.applySites_cons.2 ⟨_, ?_, rfl⟩⟩
    rw [Problem.apply, hp]
    rfl

end LiveVariables

open LiveVariables (atTop)

/-- Through a list of instructions, agreement on what is live at the top leads to agreement on what is live
at the bottom. -/
theorem Analysis.Attentive.alike {V : Type} {p : Problem V} (ha : p.analysis.Attentive) {l : List Site}
    {live : Env LiveValue} (hl : ∀ s ∈ l, ∀ x ∈ s.instruction.used, x ∈ live.locals) {e e' : Env V}
    (hlocals : e.locals = e'.locals)
    (hagree : ∀ x, (atTop l live).get? x = some .live → e.get? x = e'.get? x) :
    Alike (fun x => live.get? x = some .live) (p.applySites l e) (p.applySites l e') := by
  induction l generalizing e e' with
  | nil => exact .given hlocals hagree
  | cons s l ih =>
    rw [List.forall_mem_cons] at hl
    have hstep : Alike (fun x => (atTop l live).get? x = some .live) (p.apply s e) (p.apply s e') := by
      apply ha _ _ _ _ _ hlocals
      · intro x hx
        have htracked : x ∈ (atTop l live).locals := by
          rw [LiveVariables.locals_atTop]
          exact hl.1 x hx
        exact hagree x (LiveVariables.live_step_of_used htracked hx)
      · intro x hx hdef
        exact hagree x (LiveVariables.live_step_of_not_defined hx hdef)
    rw [Problem.applySites, Problem.applySites, List.foldlM_cons, List.foldlM_cons]
    exact hstep.bind fun _ _ hlocals' hagree' => ih hl.2 hlocals' hagree'

namespace LiveVariables

variable {g : Flowgraph} {exit : Nat} {q : Worklist}

/-- At every block that a run visits, the final states are those at the bottom and at the top of its
instructions. -/
theorem final_atTop (hg : g.Built) (hexit : g.exit = some exit) (hq : q.Fresh) :
    ∃ h last, analysis.runFrom g q = .ok h ∧ h.last? = some last ∧
      ∀ t ∈ h.snapshots.toList, ∃ block s, g.block? t.cursor.block = some block ∧
        last.states[t.cursor.block]? = some s ∧ (∀ x ∈ g.locals, x ∈ s.input.locals) ∧
        s.output = atTop block.sites s.input := by
  have hp := Problem.create_backward (a := analysis) hg rfl hexit
  obtain ⟨h, -, hrun, -⟩ := exists_run hg hexit hq
  obtain ⟨last, hlast, -, hsol, hvisited⟩ := lawful.solution_of_run hg hp hq hrun
  refine ⟨h, last, hrun, hlast, fun t ht => ?_⟩
  have hreach := (hvisited t.cursor.block).1 ⟨t, ht, rfl⟩
  obtain ⟨block, s, hblock, hs, -, hflow⟩ := hsol.satisfied hreach
  have hfits := (hsol.reached (Problem.sound_of_create hg hp) lawful hreach hs).1.toFits
  rw [flow_eq_atTop rfl, Except.ok.injEq] at hflow
  refine ⟨block, s, hblock, hs, fun x hx => ?_, hflow.symm⟩
  rw [hfits.locals_eq]
  exact LocalSet.mem_filter.2 ⟨hx, rfl⟩

end LiveVariables

namespace AnalysisKind

variable {g : Flowgraph} {exit : Nat} {q : Worklist} {k : AnalysisKind} {p : Problem k.Value}

/-- A run of liveness on a program with an exit completes, and certifies at every block that it visits
which values matter to the constants and to the bits: two states that agree on the tracked locals live at
the top of the block are refused with the same fault on the way through it, or agree at its bottom on what
is live there. -/
theorem live_locals_suffice (hg : g.Built) (hexit : g.exit = some exit) (hq : q.Fresh)
    (hk : k = .constantFolding ∨ k = .constantBits) (hp : Problem.create k.analysis g = .ok p) :
    ∃ h last, LiveVariables.analysis.runFrom g q = .ok h ∧ h.last? = some last ∧
      ∀ t ∈ h.snapshots.toList, ∃ block s, g.block? t.cursor.block = some block ∧
        last.states[t.cursor.block]? = some s ∧
        ∀ e e' : Env k.Value, e.locals = (k.analysis.locals g).toList →
          e'.locals = (k.analysis.locals g).toList →
          (∀ x ∈ k.analysis.locals g, s.output.get? x = some .live → e.get? x = e'.get? x) →
          Alike (fun x => s.input.get? x = some .live) (p.flow block e) (p.flow block e') := by
  obtain ⟨h, last, hrun, hlast, hfinal⟩ := LiveVariables.final_atTop hg hexit hq
  refine ⟨h, last, hrun, hlast, fun t ht => ?_⟩
  obtain ⟨block, s, hblock, hs, hlocals, houtput⟩ := hfinal t ht
  refine ⟨block, s, hblock, hs, fun e e' he he' hagree => ?_⟩
  have hdir : p.direction = .forward := by
    rw [Problem.direction_of_create hp]
    rcases hk with rfl | rfl <;> rfl
  have hattentive : p.analysis.Attentive := by
    rw [(Problem.boundary_of_create hp).1]
    rcases hk with rfl | rfl
    · exact ConstantFolding.attentive
    · exact ConstantBits.attentive
  rw [Problem.flow_eq_applySites, Problem.flow_eq_applySites, Problem.sites_walkOrder_forward hdir]
  apply hattentive.alike _ (he.trans he'.symm)
  · intro x hx
    rw [← houtput] at hx
    by_cases htracked : x ∈ k.analysis.locals g
    · exact hagree x htracked hx
    · rw [Env.get?_eq_none_iff.2 (he ▸ htracked), Env.get?_eq_none_iff.2 (he' ▸ htracked)]
  · intro t ht x hx
    apply hlocals
    exact (hg.sane.site_spec (Flowgraph.mem_sites_of_block? hblock ht)).2 x (List.mem_append_left _ hx)

/-- At the top of the first block nothing is live, and at its bottom the local that it sets to four. -/
theorem live_locals_suffice_doubling :
    ∃ h last s, LiveVariables.analysis.runFrom doubling (.naive []) = .ok h ∧ h.last? = some last ∧
      last.states[0]? = some s ∧ s.output.get? ⟨"x", .int⟩ = some .dead ∧
      s.input.get? ⟨"x", .int⟩ = some .live ∧
      ∀ e e' : Env ConstValue, e.locals = [⟨"x", .int⟩] → e'.locals = [⟨"x", .int⟩] →
        Alike (fun x => s.input.get? x = some .live)
          (Problem.flow ⟨ConstantFolding.analysis, doubling, 0⟩ ⟨0, [setFour], false⟩ e)
          (Problem.flow ⟨ConstantFolding.analysis, doubling, 0⟩ ⟨0, [setFour], false⟩ e') := by
  obtain ⟨h, last, hrun, hlast, hfinal⟩ :=
    live_locals_suffice (k := constantFolding) doubling_built rfl .naive (.inl rfl) rfl
  cases hrun
  cases hlast
  obtain ⟨block, s, hblock, hs, halike⟩ := hfinal _ (List.mem_of_getElem? (i := 2) rfl)
  cases hblock
  have hdead : s.output.get? ⟨"x", .int⟩ = some .dead := by
    cases hs
    rfl
  have hlive : s.input.get? ⟨"x", .int⟩ = some .live := by
    cases hs
    rfl
  refine ⟨_, _, s, rfl, rfl, hs, hdead, hlive, fun e e' he he' => halike e e' he he' fun x hx hxlive => ?_⟩
  obtain rfl : x = ⟨"x", .int⟩ := List.mem_singleton.1 hx
  rw [hdead] at hxlive
  cases hxlive

end AnalysisKind

end FlowHistory
