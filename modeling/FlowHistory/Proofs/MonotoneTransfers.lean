import FlowHistory.Proofs.Refusals

/-!
# Monotone transfers

A larger state never makes an instruction fail, nor does it save it from failing: a transfer looks at the
instruction and at which locals are tracked before it refuses, never at their values. Where it succeeds, the
transfers of constant folding, reaching definitions, taint and live variables are monotone on all states, also
where nothing is reached yet, and so are blocks of instructions. Constant bits are left out: there a bit that is
not reached can make a result unknown that is known once the bit settles.
-/
namespace FlowHistory

/-- Both computations are refused for one cause, or both succeed and their results are related. -/
inductive Matched {α : Type} (R : α → α → Prop) : Except Fault α → Except Fault α → Prop
  | refused (f : Fault) : Matched R (.error f) (.error f)
  | given {a b : α} : R a b → Matched R (.ok a) (.ok b)

namespace Matched

variable {α β : Type} {R : α → α → Prop} {S : β → β → Prop} {x y : Except Fault α}

theorem of_same_faults (herror : ∀ f, x = .error f ↔ y = .error f)
    (hok : ∀ a b, x = .ok a → y = .ok b → R a b) : Matched R x y := by
  cases x with
  | error f =>
    rw [(herror f).1 rfl]
    exact .refused f
  | ok a =>
    cases y with
    | error f => cases (herror f).2 rfl
    | ok b => exact .given (hok a b rfl rfl)

theorem refl (hR : ∀ a, R a a) (x : Except Fault α) : Matched R x x := by
  cases x with
  | error f => exact .refused f
  | ok a => exact .given (hR a)

theorem bind {f g : α → Except Fault β} (h : Matched R x y) (hfg : ∀ a b, R a b → Matched S (f a) (g b)) :
    Matched S (x >>= f) (y >>= g) := by
  cases h with
  | refused fault => exact .refused fault
  | given hab => exact hfg _ _ hab

/-- A step that keeps two states related keeps them related along a list. -/
theorem foldlM {step : α → β → Except Fault α} (hstep : ∀ a b s, R a b → Matched R (step a s) (step b s))
    (l : List β) {a b : α} (h : R a b) : Matched R (l.foldlM step a) (l.foldlM step b) := by
  induction l generalizing a b with
  | nil => exact .given h
  | cons s l ih =>
    rw [List.foldlM_cons, List.foldlM_cons]
    exact (hstep a b s h).bind fun _ _ => ih

end Matched

/-- Assignments to states of which one is below the other go together if the computed values do. -/
theorem Env.matched_assign {V : Type} [LatticeValue V] {e f : Env V} {x : Local}
    {value : Env V → Except Fault V} (hef : e.Below f) (hvalue : Matched LatticeValue.Below (value e) (value f)) :
    Matched Env.Below (e.assign x value) (f.assign x value) := by
  rw [assign, assign, hef.contains_eq x]
  cases f.contains x with
  | true => exact hvalue.bind fun v w hvw => .given (below_write hef hvw)
  | false => exact .given hef

theorem ConstantFolding.matched_transfer (s : Site) {e f : Env ConstValue} (hef : e.Below f) :
    Matched Env.Below (transfer s e) (transfer s f) := by
  rcases transfer_cases s with hs | ⟨x, value, hs⟩ | ⟨x, hs⟩ <;> rw [hs, hs]
  · exact .given hef
  · apply Env.matched_assign hef
    apply Matched.of_same_faults
    · exact fun fault => evaluate_eq_error_iff.trans evaluate_eq_error_iff.symm
    · exact fun v w => evaluate_mono hef
  · exact .given (Env.below_write hef (LawfulJoin.refl _))

theorem ReachingDefinitions.matched_transfer (n : Nat) (s : Site) {e f : Env DefValue} (hef : e.Below f) :
    Matched Env.Below (transfer n s e) (transfer n s f) := by
  rcases transfer_cases n s with ⟨fault, hs⟩ | hs | ⟨x, hs⟩ <;> rw [hs, hs]
  · exact .refused fault
  · exact .given hef
  · exact Env.matched_assign hef (.refl LawfulJoin.refl _)

namespace AnalysisKind

variable {k : AnalysisKind}

theorem matched_transfer (hk : k ≠ .constantBits) (n : Nat) (s : Site) {e f : Env k.Value}
    (hef : e.Below f) : Matched Env.Below (k.analysis.transfer n s e) (k.analysis.transfer n s f) := by
  cases k with
  | constantFolding => exact ConstantFolding.matched_transfer s hef
  | constantBits => exact absurd rfl hk
  | reachingDefinitions => exact ReachingDefinitions.matched_transfer n s hef
  | taint => exact .given (Taint.step_mono s.instruction hef)
  | liveVariables => exact .given (LiveVariables.step_mono s.instruction hef)

/-- For every analysis but that of constant bits, and from any two states of which one is below the other: an
instruction is refused in both for one cause, or its results are ordered as the states are. The same holds for
any instructions in sequence. -/
theorem transfers_monotone (hk : k ≠ .constantBits) (n : Nat) {e f : Env k.Value} (hef : e.Below f) :
    (∀ s : Site, Matched Env.Below (k.analysis.transfer n s e) (k.analysis.transfer n s f)) ∧
    ∀ l : List Site, Matched Env.Below (l.foldlM (fun e s => k.analysis.transfer n s e) e)
      (l.foldlM (fun e s => k.analysis.transfer n s e) f) :=
  ⟨fun s => matched_transfer hk n s hef,
    fun l => .foldlM (fun _ _ s => matched_transfer hk n s) l hef⟩

/-- A sum with an operand that is not reached, and that is 3 in the larger state. -/
theorem transfers_monotone_sum :
    ∃ r r' : Env ConstValue,
      ConstantFolding.transfer
        ⟨0, .assign (.var ⟨"y", .int⟩) (.binary .add (.read ⟨"x", .int⟩) (.literal (.int 4)))⟩
        (.ofPairs [(⟨"x", .int⟩, .bottom), (⟨"y", .int⟩, .int 5)]) = .ok r ∧
      ConstantFolding.transfer
        ⟨0, .assign (.var ⟨"y", .int⟩) (.binary .add (.read ⟨"x", .int⟩) (.literal (.int 4)))⟩
        (.ofPairs [(⟨"x", .int⟩, .int 3), (⟨"y", .int⟩, .top)]) = .ok r' ∧
      r.get? ⟨"y", .int⟩ = some .bottom ∧ r'.get? ⟨"y", .int⟩ = some (.int 7) ∧ r.Below r' := by
  have hef : (Env.ofPairs [(⟨"x", .int⟩, ConstValue.bottom), (⟨"y", .int⟩, .int 5)]).Below
      (.ofPairs [(⟨"x", .int⟩, .int 3), (⟨"y", .int⟩, .top)]) := by
    rfl
  have hmatched := (transfers_monotone (k := .constantFolding) (by decide) 1 hef).1
    ⟨0, .assign (.var ⟨"y", .int⟩) (.binary .add (.read ⟨"x", .int⟩) (.literal (.int 4)))⟩
  refine ⟨_, _, rfl, rfl, rfl, rfl, ?_⟩
  cases hmatched with
  | given h => exact h

end AnalysisKind

end FlowHistory
