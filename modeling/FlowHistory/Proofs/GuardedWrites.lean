import FlowHistory.Proofs.Refusals

/-!
# Guarded writes

A state refuses to read or to write a local outside of its universe. `Env.revise` asks first whether the
local is tracked, and only then reads and writes it, each call with its refusal. Every change that an analysis
makes to a single local is such a sequence of calls, though the transfers are written with `Env.write`, which
has no refusal. So whatever a state tracks, no transfer is refused for a local.
-/
namespace FlowHistory

namespace Env

variable {V : Type} {e : Env V} {x : Local}

/-- Asks whether a local is tracked, and only then reads its value and sets the one that `f` makes of it. -/
def revise (e : Env V) (x : Local) (f : V → Except Fault V) : Except Fault (Env V) :=
  if e.contains x then do
    let old ← e.get x
    let new ← f old
    e.set x new
  else return e

/-- A read is refused exactly if the local is not tracked, so a default stands in for a refused read. -/
theorem toOption_get (e : Env V) (x : Local) : (e.get x).toOption = e.get? x := by
  rw [get]
  cases e.get? x <;> rfl

theorem write_of_get?_eq_none (h : e.get? x = none) (v : V) : e.write x v = e := by
  refine ext_get? fun y => ?_
  rw [get?_write]
  by_cases hy : y = x
  · rw [if_pos hy, hy, h, Option.map_none]
  · rw [if_neg hy]

theorem revise_of_get?_eq_none (h : e.get? x = none) (f : V → Except Fault V) : e.revise x f = .ok e := by
  have hc : ¬ e.contains x = true := by simp [contains, h]
  exact if_neg hc

theorem revise_of_get?_eq_some {old : V} (h : e.get? x = some old) (f : V → Except Fault V) :
    e.revise x f = (f old).map (e.write x) := by
  have hc : e.contains x = true := by simp [contains, h]
  have hget : e.get x = .ok old := by rw [get, h]
  rw [revise, if_pos hc, hget]
  change (f old >>= e.set x) = _
  cases f old with
  | error fault => rfl
  | ok new => exact if_pos hc

/-- After the question neither the read nor the write is refused: a refusal comes from the new value. -/
theorem revise_eq_error_iff {f : V → Except Fault V} {fault : Fault} :
    e.revise x f = .error fault ↔ ∃ old, e.get? x = some old ∧ f old = .error fault := by
  cases h : e.get? x with
  | none => simp [revise_of_get?_eq_none h]
  | some old =>
    rw [revise_of_get?_eq_some h]
    cases hf : f old <;> simp [Except.map, hf]

/-- An assignment computes its value only if the local is tracked, and does not depend on the old one. -/
theorem revise_eq_assign (e : Env V) (x : Local) (value : Env V → Except Fault V) :
    (e.revise x fun _ => value e) = e.assign x value := by
  rw [assign]
  cases h : e.get? x with
  | none => rw [revise_of_get?_eq_none h, if_neg (by simp [contains, h])]; rfl
  | some old =>
    rw [revise_of_get?_eq_some h, if_pos (by simp [contains, h])]
    cases value e <;> rfl

theorem revise_ok (e : Env V) (x : Local) (v : V) : (e.revise x fun _ => .ok v) = .ok (e.write x v) := by
  cases h : e.get? x with
  | none => rw [revise_of_get?_eq_none h, write_of_get?_eq_none h]
  | some old => rw [revise_of_get?_eq_some h, Except.map]

end Env

namespace ConstantFolding

theorem transfer_eq_revise (site : Site) (e : Env ConstValue) :
    transfer site e = match site.instruction with
      | .assign (.var x) value => e.revise x fun _ => evaluate e value
      | .bind x _ => e.revise x fun _ => .ok .top
      | _ => .ok e := by
  obtain ⟨id, i⟩ := site
  cases i with
  | assign target value =>
    cases target with
    | var x => exact (Env.revise_eq_assign e x (evaluate · value)).symm
    | field base name => rfl
    | element base index => rfl
  | bind x origin => exact (Env.revise_ok e x .top).symm
  | _ => rfl

theorem fault_of_transfer {site : Site} {e : Env ConstValue} {fault : Fault}
    (h : transfer site e = .error fault) : ∃ o, fault = .unsupportedValue .constantFolding o := by
  rw [transfer_eq_revise] at h
  split at h
  · obtain ⟨_, -, hvalue⟩ := Env.revise_eq_error_iff.1 h
    obtain ⟨o, -, rfl⟩ := Option.map_eq_some_iff.1 (evaluate_eq_error_iff.1 hvalue)
    exact ⟨o, rfl⟩
  · obtain ⟨_, -, hvalue⟩ := Env.revise_eq_error_iff.1 h
    cases hvalue
  · cases h

end ConstantFolding

namespace ConstantBits

theorem transfer_eq_revise (site : Site) (e : Env BitPattern) :
    transfer site e = match site.instruction with
      | .assign (.var x) value => e.revise x fun _ => assigned x value e
      | .bind x _ => e.revise x fun _ => .ok (.top x.type.bitWidth)
      | .lookupSwitch _ | .tableSwitch _ =>
        .error (.unsupportedInstruction .constantBits site.instruction)
      | _ => .ok e := by
  obtain ⟨id, i⟩ := site
  cases i with
  | assign target value =>
    cases target with
    | var x => exact (transfer_assign id x value e).trans (Env.revise_eq_assign e x _).symm
    | field base name => rfl
    | element base index => rfl
  | bind x origin => exact (Env.revise_ok e x _).symm
  | _ => rfl

theorem fault_of_transfer {site : Site} {e : Env BitPattern} {fault : Fault}
    (h : transfer site e = .error fault) : (∃ o, fault = .unsupportedValue .constantBits o) ∨
      fault = .unsupportedInstruction .constantBits site.instruction := by
  rw [transfer_eq_revise] at h
  split at h
  · obtain ⟨_, -, hvalue⟩ := Env.revise_eq_error_iff.1 h
    rw [assigned, bind_pure_eq_error, evaluate_eq_error_iff] at hvalue
    obtain ⟨o, -, rfl⟩ := Option.map_eq_some_iff.1 hvalue
    exact .inl ⟨o, rfl⟩
  · obtain ⟨_, -, hvalue⟩ := Env.revise_eq_error_iff.1 h
    cases hvalue
  · cases h
    exact .inr rfl
  · cases h
    exact .inr rfl
  · cases h

end ConstantBits

namespace ReachingDefinitions

theorem transfer_eq_revise (sites : Nat) (site : Site) (e : Env DefValue) :
    transfer sites site e =
      if site.instruction.isSwitch then
        .error (.unsupportedInstruction .reachingDefinitions site.instruction)
      else match site.instruction.defined? with
        | none => .ok e
        | some x => e.revise x fun _ => siteValue sites site := by
  rw [transfer]
  cases site.instruction.defined? with
  | none => rfl
  | some x =>
    dsimp only
    rw [Env.revise_eq_assign e x fun _ => siteValue sites site, Env.assign, siteValue]
    cases IndexSet.singleton? sites site.id <;> rfl

theorem fault_of_transfer {sites : Nat} {site : Site} {e : Env DefValue} {fault : Fault}
    (h : transfer sites site e = .error fault) :
    fault = .unsupportedInstruction .reachingDefinitions site.instruction ∨
      fault = .unknownSite site.id sites := by
  rw [transfer_eq_revise] at h
  split at h
  · cases h
    exact .inl rfl
  · split at h
    · cases h
    · obtain ⟨_, -, hvalue⟩ := Env.revise_eq_error_iff.1 h
      rw [siteValue] at hvalue
      split at hvalue
      · cases hvalue
      · cases hvalue
        exact .inr rfl

end ReachingDefinitions

namespace Taint

/-- Only a single argument is written to by itself. -/
theorem revise_eq_intrinsic {call : Invocation} {x : Local} (hargs : call.args = [.read x])
    (e : Env TaintValue) : (e.revise x fun v => .ok (mark call.tags v)) = .ok (intrinsic call e) := by
  simp only [intrinsic, hargs]
  cases h : e.get? x with
  | none => exact Env.revise_of_get?_eq_none h _
  | some v => exact Env.revise_of_get?_eq_some h _

theorem revise_eq_overwrite (e : Env TaintValue) (x : Local) (v : TaintValue) :
    (e.revise x fun old => .ok { v with violated := v.violated || old.violated }) =
      .ok (overwrite e x v) := by
  rw [overwrite]
  cases h : e.get? x with
  | none => exact Env.revise_of_get?_eq_none h _
  | some old => exact Env.revise_of_get?_eq_some h _

end Taint

namespace LiveVariables

/-- The write of what is defined comes before those of what is used. -/
theorem revise_eq_step (i : Instruction) (e : Env LiveValue) :
    ((match i.defined? with
      | some x => e.revise x fun _ => .ok .dead
      | none => .ok e) >>= fun killed =>
        i.used.foldlM (fun e x => e.revise x fun _ => .ok .live) killed) = .ok (step i e) := by
  have hused (killed : Env LiveValue) :
      i.used.foldlM (fun e x => e.revise x fun _ => .ok .live) killed =
        .ok (i.used.foldl (fun e x => e.write x .live) killed) := by
    simp only [Env.revise_ok]
    exact List.foldlM_pure
  rw [step]
  cases i.defined? with
  | none => exact hused e
  | some x =>
    simp only [Env.revise_ok e x]
    exact hused (e.write x .dead)

end LiveVariables

/-- Whatever a state tracks, a transfer is refused for its instruction, and never for a local that is read or
written. -/
theorem AnalysisKind.fault_of_transfer {k : AnalysisKind} {sites : Nat} {site : Site} {e : Env k.Value}
    {fault : Fault} (h : k.analysis.transfer sites site e = .error fault) :
    (∃ o, fault = .unsupportedValue k o) ∨ fault = .unsupportedInstruction k site.instruction ∨
      fault = .unknownSite site.id sites := by
  cases k with
  | constantFolding => exact .inl (ConstantFolding.fault_of_transfer h)
  | constantBits =>
    rcases ConstantBits.fault_of_transfer h with hvalue | hswitch
    · exact .inl hvalue
    · exact .inr (.inl hswitch)
  | reachingDefinitions => exact .inr (ReachingDefinitions.fault_of_transfer h)
  | taint | liveVariables => cases h

end FlowHistory
