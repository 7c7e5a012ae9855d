import FlowHistory.Proofs.Lawful
import FlowHistory.Proofs.ValueOrders

/-!
# Four lawful analyses

Constant folding, reaching definitions, taint and live variables obey the laws of the iteration. For
all four the transfers are monotone on every state, reached or not.
-/
namespace FlowHistory

open LatticeValue (Below)

namespace Env

variable {V : Type}

/-- Gives a tracked local the value of a computation; of an untracked one nothing is computed. -/
def assign (e : Env V) (x : Local) (value : Env V → Except Fault V) : Except Fault (Env V) :=
  if e.contains x then do return e.write x (← value e) else return e

theorem assign_eq_ok {e e' : Env V} {x : Local} {value : Env V → Except Fault V}
    (h : e.assign x value = .ok e') :
    (e.contains x = true ∧ ∃ v, value e = .ok v ∧ e' = e.write x v) ∨
      (e.contains x = false ∧ e' = e) := by
  simp only [assign] at h
  split at h
  · rename_i hc
    obtain ⟨v, hv, heq⟩ := bind_eq_ok.1 h
    exact .inl ⟨hc, v, hv, (pure_eq_ok.1 heq).symm⟩
  · rename_i hc
    exact .inr ⟨by simpa using hc, (pure_eq_ok.1 h).symm⟩

theorem locals_assign {e e' : Env V} {x : Local} {value : Env V → Except Fault V}
    (h : e.assign x value = .ok e') : e'.locals = e.locals := by
  rcases assign_eq_ok h with ⟨-, v, -, rfl⟩ | ⟨-, rfl⟩
  · exact locals_write e x v
  · rfl

theorem all_assign {e e' : Env V} {P : Local → V → Prop} {x : Local} {value : Env V → Except Fault V}
    (he : e.All P) (hv : ∀ v, value e = .ok v → P x v) (h : e.assign x value = .ok e') : e'.All P := by
  rcases assign_eq_ok h with ⟨-, v, hval, rfl⟩ | ⟨-, rfl⟩
  · exact all_write he (hv v hval)
  · exact he

theorem get?_assign {e e' : Env V} {x : Local} {value : Env V → Except Fault V} {v : V}
    (h : e.assign x value = .ok e') (hx : e.contains x = true) (hv : value e = .ok v) :
    e'.get? x = some v := by
  rcases assign_eq_ok h with ⟨-, w, hw, rfl⟩ | ⟨hx', -⟩
  · rw [hv, Except.ok.injEq] at hw
    obtain ⟨u, hu⟩ := Option.isSome_iff_exists.1 hx
    rw [get?_write, if_pos rfl, hu, Option.map_some, hw]
  · rw [hx] at hx'
    cases hx'

/-- Assignments keep the order exactly if their values do, where the local is tracked. -/
theorem below_assign_iff [LatticeValue V] {e e' f f' : Env V} {x : Local}
    {value : Env V → Except Fault V} (hef : e.Below f) (he : e.assign x value = .ok e')
    (hf : f.assign x value = .ok f') :
    e'.Below f' ↔ (e.contains x = true →
      ∀ v w, value e = .ok v → value f = .ok w → LatticeValue.Below v w) := by
  have hcontains := hef.contains_eq x
  constructor
  · intro hbelow hx v w hv hw
    exact hbelow.get? (get?_assign he hx hv) (get?_assign hf (hcontains ▸ hx) hw)
  · intro hle
    rcases assign_eq_ok he with ⟨hc, v, hval, rfl⟩ | ⟨hc, rfl⟩
    · rcases assign_eq_ok hf with ⟨-, w, hval', rfl⟩ | ⟨hc', -⟩
      · exact below_write hef (hle hc v w hval hval')
      · rw [hcontains, hc'] at hc
        cases hc
    · rcases assign_eq_ok hf with ⟨hc', -⟩ | ⟨-, rfl⟩
      · rw [hcontains, hc'] at hc
        cases hc
      · exact hef

theorem below_assign [LatticeValue V] {e e' f f' : Env V} {x : Local} {value : Env V → Except Fault V}
    (hef : e.Below f) (hv : ∀ v w, value e = .ok v → value f = .ok w → LatticeValue.Below v w)
    (he : e.assign x value = .ok e') (hf : f.assign x value = .ok f') : e'.Below f' :=
  (below_assign_iff hef he hf).2 fun _ => hv

/-- Whether a value can be assigned does not depend on the state, if it does not for the value. -/
theorem exists_assign {e e' f : Env V} {x : Local} {value : Env V → Except Fault V}
    (hf : f.locals = e.locals) (hvalue : ∀ v, value e = .ok v → ∃ u, value f = .ok u)
    (h : e.assign x value = .ok e') : ∃ f', f.assign x value = .ok f' := by
  have hcontains : f.contains x = e.contains x := by
    rw [Bool.eq_iff_iff, ← mem_locals, ← mem_locals, hf]
  rcases assign_eq_ok h with ⟨hx, v, hv, -⟩ | ⟨hx, -⟩
  · obtain ⟨u, hu⟩ := hvalue v hv
    exact ⟨f.write x u, by rw [assign, hcontains, if_pos hx, hu]; rfl⟩
  · exact ⟨f, by rw [assign, hcontains, hx]; rfl⟩

/-- Reading a local, or a default if it is not tracked, is monotone. -/
theorem below_getD [LatticeValue V] [LawfulJoin V] {e f : Env V} (h : e.Below f) (x : Local) (d : V) :
    LatticeValue.Below ((e.get? x).getD d) ((f.get? x).getD d) := by
  cases hv : e.get? x with
  | none =>
    cases hw : f.get? x with
    | none => exact LawfulJoin.refl d
    | some w =>
      obtain ⟨v, hv'⟩ := exists_get?_of_locals_eq h.locals_eq.symm hw
      rw [hv] at hv'
      cases hv'
  | some v =>
    obtain ⟨w, hw⟩ := exists_get?_of_locals_eq h.locals_eq hv
    rw [hw]
    exact h.get? hv hw

end Env

namespace ConstantFolding

/-- An instruction leaves the state, computes the value of one local, or makes a local unknown. -/
theorem transfer_cases (s : Site) :
    (∀ e, transfer s e = .ok e) ∨
    (∃ x value, ∀ e, transfer s e = e.assign x (evaluate · value)) ∨
    (∃ x, ∀ e, transfer s e = .ok (e.write x .top)) := by
  obtain ⟨id, i⟩ := s
  cases i with
  | assign target value =>
    cases target with
    | var x => exact .inr (.inl ⟨x, value, fun e => rfl⟩)
    | field base name => exact .inl fun e => rfl
    | element base index => exact .inl fun e => rfl
  | bind x origin => exact .inr (.inr ⟨x, fun e => rfl⟩)
  | _ => exact .inl fun e => rfl

theorem foldWords_ne_bottom {w : Nat} {lift : BitVec w → ConstValue} (hlift : ∀ v, lift v ≠ .bottom)
    (op : BinaryOp) (a b : BitVec w) : foldWords lift op a b ≠ .bottom := by
  simp only [foldWords]
  split
  · simp
  · split
    · exact hlift _
    · simp

theorem foldBinary_ne_bottom {op : BinaryOp} {a b : ConstValue} (ha : a ≠ .bottom) (hb : b ≠ .bottom) :
    foldBinary op a b ≠ .bottom := by
  have hint : ∀ v, ConstValue.int v ≠ .bottom := by simp
  have hlong : ∀ v, ConstValue.long v ≠ .bottom := by simp
  cases a <;> cases b <;> simp_all [foldBinary, foldWords_ne_bottom hint, foldWords_ne_bottom hlong]

theorem castWord_ne_bottom (t : LocalType) (v : BitVec 64) : castWord t v ≠ .bottom := by
  cases t <;> simp [castWord]

theorem cast_ne_bottom {t : LocalType} {a : ConstValue} (ha : a ≠ .bottom) : cast t a ≠ .bottom := by
  cases a <;> simp_all [cast, castWord_ne_bottom]

theorem negate_ne_bottom {a : ConstValue} (ha : a ≠ .bottom) : negate a ≠ .bottom := by
  cases a <;> simp_all [negate]

/-- An unreached operand leaves a result unreached, an unknown one leaves it unknown. -/
theorem foldBinary_mono {op : BinaryOp} {a a' b b' : ConstValue} (ha : Below a a') (hb : Below b b') :
    Below (foldBinary op a b) (foldBinary op a' b') := by
  rw [ConstValue.below_iff] at *
  have hleft : foldBinary op .bottom b = .bottom := by cases b <;> rfl
  have hright : foldBinary op a .bottom = .bottom := by cases a <;> rfl
  rcases ha with rfl | rfl | rfl
  · exact .inl hleft
  · rcases hb with rfl | rfl | rfl
    · exact .inl hright
    · exact .inr (.inl rfl)
    · cases b with
      | bottom => exact .inl hright
      | _ => exact .inr (.inl rfl)
  · rcases hb with rfl | rfl | rfl
    · exact .inl hright
    · cases a with
      | bottom => exact .inl rfl
      | _ => exact .inr (.inl rfl)
    · exact .inr (.inr rfl)

theorem negate_mono {a a' : ConstValue} (ha : Below a a') : Below (negate a) (negate a') := by
  rw [ConstValue.below_iff] at *
  rcases ha with rfl | rfl | rfl
  · exact .inl rfl
  · exact .inr (.inl rfl)
  · exact .inr (.inr rfl)

theorem cast_mono {t : LocalType} {a a' : ConstValue} (ha : Below a a') : Below (cast t a) (cast t a') := by
  rw [ConstValue.below_iff] at *
  rcases ha with rfl | rfl | rfl
  · exact .inl rfl
  · exact .inr (.inl rfl)
  · exact .inr (.inr rfl)

section

variable {e f : Env ConstValue}

theorem operand_ne_bottom (he : e.All fun _ v => v ≠ .bottom) {x : Operand} {v : ConstValue}
    (h : operand e x = .ok v) : v ≠ .bottom := by
  cases x with
  | read y =>
    cases h
    cases hv : e.get? y with
    | none => simp
    | some w => exact he y w hv
  | literal c => cases c <;> simp only [operand, Except.ok.injEq, reduceCtorEq] at h <;> simp [← h]

theorem evaluate_ne_bottom (he : e.All fun _ v => v ≠ .bottom) {ex : Expr} {v : ConstValue}
    (h : evaluate e ex = .ok v) : v ≠ .bottom := by
  cases ex with
  | operand x => exact operand_ne_bottom he h
  | binary op lhs rhs =>
    simp only [evaluate, bind_eq_ok, pure_eq_ok] at h
    obtain ⟨a, ha, b, hb, rfl⟩ := h
    exact foldBinary_ne_bottom (operand_ne_bottom he ha) (operand_ne_bottom he hb)
  | neg x =>
    simp only [evaluate, bind_eq_ok, pure_eq_ok] at h
    obtain ⟨a, ha, rfl⟩ := h
    exact negate_ne_bottom (operand_ne_bottom he ha)
  | cast t x =>
    simp only [evaluate, bind_eq_ok, pure_eq_ok] at h
    obtain ⟨a, ha, rfl⟩ := h
    exact cast_ne_bottom (operand_ne_bottom he ha)
  | _ => cases h; simp

theorem operand_mono (hef : e.Below f) {x : Operand} {v w : ConstValue} (hv : operand e x = .ok v)
    (hw : operand f x = .ok w) : Below v w := by
  cases x with
  | read y =>
    cases hv
    cases hw
    exact Env.below_getD hef y .top
  | literal c =>
    have : operand e (.literal c) = operand f (.literal c) := by cases c <;> rfl
    rw [this, hw] at hv
    cases hv
    exact LawfulJoin.refl _

theorem evaluate_mono (hef : e.Below f) {ex : Expr} {v w : ConstValue} (hv : evaluate e ex = .ok v)
    (hw : evaluate f ex = .ok w) : Below v w := by
  cases ex with
  | operand x => exact operand_mono hef hv hw
  | binary op lhs rhs =>
    simp only [evaluate, bind_eq_ok, pure_eq_ok] at hv hw
    obtain ⟨a, ha, b, hb, rfl⟩ := hv
    obtain ⟨a', ha', b', hb', rfl⟩ := hw
    exact foldBinary_mono (operand_mono hef ha ha') (operand_mono hef hb hb')
  | neg x =>
    simp only [evaluate, bind_eq_ok, pure_eq_ok] at hv hw
    obtain ⟨a, ha, rfl⟩ := hv
    obtain ⟨a', ha', rfl⟩ := hw
    exact negate_mono (operand_mono hef ha ha')
  | cast t x =>
    simp only [evaluate, bind_eq_ok, pure_eq_ok] at hv hw
    obtain ⟨a, ha, rfl⟩ := hv
    obtain ⟨a', ha', rfl⟩ := hw
    exact cast_mono (operand_mono hef ha ha')
  | _ => cases hv; cases hw; exact LawfulJoin.refl _

end

/-- Constants rise from the bottom over a word to the unknown. -/
def rank : ConstValue → Nat
  | .bottom => 0
  | .int _ | .long _ => 1
  | .top => 2

def lawful : analysis.Lawful where
  fits _ _ _ := True
  reached v := v ≠ .bottom
  rank _ := rank
  fits_bottom _ := trivial
  fits_fresh _ := trivial
  reached_fresh {n x} := by
    simp only [analysis, ConstValue.zero]
    split <;> simp
  fits_join _ _ := ⟨_, rfl, trivial⟩
  bottom_below _ := ConstValue.below_iff.2 (.inl rfl)
  bottom_below_of_below _ _ := ConstValue.below_iff.2 (.inl rfl)
  reached_up {v w} hv h := by
    rcases ConstValue.below_iff.1 h with rfl | rfl | rfl
    · exact absurd rfl hv
    · simp
    · exact hv
  fits_up _ _ _ := trivial
  rank_lt {n x v w} _ _ h hne := by
    rcases ConstValue.below_iff.1 h with rfl | rfl | rfl
    · cases w <;> simp_all [rank]
    · cases v <;> simp_all [rank]
    · exact absurd rfl hne
  rank_le {n x v} _ := by cases v <;> simp [rank, analysis]
  transfer_locals {n s e e'} h := by
    rcases transfer_cases s with hs | ⟨x, value, hs⟩ | ⟨x, hs⟩ <;>
      simp only [analysis, hs, Except.ok.injEq] at h
    · rw [h]
    · exact Env.locals_assign h
    · rw [← h, Env.locals_write]
  transfer_fits _ _ _ _ _ := trivial
  transfer_reached {n s e e'} _ he h := by
    rcases transfer_cases s with hs | ⟨x, value, hs⟩ | ⟨x, hs⟩ <;>
      simp only [analysis, hs, Except.ok.injEq] at h
    · rwa [← h]
    · exact Env.all_assign he (fun v hv => evaluate_ne_bottom he hv) h
    · rw [← h]
      exact Env.all_write he (by simp)
  transfer_mono {n s e e' f f'} _ _ hef h h' := by
    rcases transfer_cases s with hs | ⟨x, value, hs⟩ | ⟨x, hs⟩ <;>
      simp only [analysis, hs, Except.ok.injEq] at h h'
    · rwa [← h, ← h']
    · exact Env.below_assign hef (fun v w => evaluate_mono hef) h h'
    · rw [← h, ← h']
      exact Env.below_write hef (LawfulJoin.refl _)

end ConstantFolding

namespace ReachingDefinitions

/-- The set of the one site, as the value of a local. -/
def siteValue (sites : Nat) (site : Site) : Except Fault DefValue :=
  match IndexSet.singleton? sites site.id with
  | some s => .ok (.sites s)
  | none => .error (.unknownSite site.id sites)

theorem siteValue_eq_ok {n : Nat} {site : Site} {v : DefValue} (h : siteValue n site = .ok v) :
    ∃ s, v = .sites s ∧ s.capacity = n := by
  simp only [siteValue, IndexSet.singleton?, IndexSet.insert?] at h
  split at h
  · rename_i s hs
    split at hs
    · cases hs
      cases h
      exact ⟨_, rfl, rfl⟩
    · cases hs
  · cases h

/-- An instruction is refused, leaves the state, or gives one local its own site. -/
theorem transfer_cases (n : Nat) (s : Site) :
    (∃ f, ∀ e, transfer n s e = .error f) ∨ (∀ e, transfer n s e = .ok e) ∨
    (∃ x, ∀ e, transfer n s e = e.assign x fun _ => siteValue n s) := by
  by_cases hswitch : s.instruction.isSwitch = true
  · exact .inl ⟨_, fun e => if_pos hswitch⟩
  · cases hdef : s.instruction.defined? with
    | none =>
      refine .inr (.inl fun e => ?_)
      simp only [transfer, hswitch, hdef]
      rfl
    | some x =>
      refine .inr (.inr ⟨x, fun e => ?_⟩)
      simp only [transfer, hswitch, hdef, Env.assign, siteValue]
      cases IndexSet.singleton? n s.id <;> rfl

/-- Sets rise from the bottom over the number of their members to the unknown. -/
def rank (n : Nat) : DefValue → Nat
  | .bottom => 0
  | .sites s => 1 + s.count
  | .top => n + 2

theorem rank_lt {n : Nat} {v w : DefValue} (hv : ∀ s, v = .sites s → s.capacity = n)
    (h : LatticeValue.Below v w) (hne : v ≠ w) : rank n v < rank n w := by
  rcases DefValue.below_iff.1 h with rfl | rfl | ⟨s, t, rfl, rfl, hst⟩
  · cases w <;> simp_all [rank]
  · cases v with
    | bottom => simp [rank]
    | top => exact absurd rfl hne
    | sites s =>
      have := s.count_le_capacity
      have := hv s rfl
      simp only [rank]
      omega
  · have := IndexSet.count_lt_of_included hst fun h => hne (by rw [h])
    simp only [rank]
    omega

theorem rank_le {n : Nat} {v : DefValue} (hv : ∀ s, v = .sites s → s.capacity = n) :
    rank n v ≤ n + 2 := by
  cases v with
  | bottom => simp [rank]
  | top => exact Nat.le_refl _
  | sites s =>
    have := s.count_le_capacity
    have := hv s rfl
    simp only [rank]
    omega

def lawful : analysis.Lawful where
  fits n _ v := ∀ s, v = .sites s → s.capacity = n
  reached v := v ≠ .bottom
  rank := rank
  fits_bottom _ s h := by cases h
  fits_fresh _ s h := by cases h; rfl
  reached_fresh h := by cases h
  fits_join hv hw := DefValue.exists_union hv hw
  bottom_below _ := DefValue.below_iff.2 (.inl rfl)
  bottom_below_of_below _ _ := DefValue.below_iff.2 (.inl rfl)
  reached_up {v w} hv h := by
    rcases DefValue.below_iff.1 h with rfl | rfl | ⟨s, t, rfl, rfl, -⟩
    · exact absurd rfl hv
    · simp
    · simp
  fits_up {n x v w} hv hfit h := by
    rcases DefValue.below_iff.1 h with rfl | rfl | ⟨s, t, rfl, rfl, hst⟩
    · exact absurd rfl hv
    · simp
    · intro r hr
      cases hr
      exact hst.1.symm.trans (hfit s rfl)
  rank_lt hv _ h hne := rank_lt hv h hne
  rank_le hv := rank_le hv
  transfer_locals {n s e e'} h := by
    rcases transfer_cases n s with ⟨f, hs⟩ | hs | ⟨x, hs⟩ <;>
      simp only [analysis, hs, Except.ok.injEq, reduceCtorEq] at h
    · rw [h]
    · exact Env.locals_assign h
  transfer_fits {n s e e'} he h := by
    rcases transfer_cases n s with ⟨f, hs⟩ | hs | ⟨x, hs⟩ <;>
      simp only [analysis, hs, Except.ok.injEq, reduceCtorEq] at h
    · rwa [← h]
    · refine Env.all_assign he (fun v hv t ht => ?_) h
      obtain ⟨r, rfl, hr⟩ := siteValue_eq_ok hv
      cases ht
      exact hr
  transfer_reached {n s e e'} _ he h := by
    rcases transfer_cases n s with ⟨f, hs⟩ | hs | ⟨x, hs⟩ <;>
      simp only [analysis, hs, Except.ok.injEq, reduceCtorEq] at h
    · rwa [← h]
    · refine Env.all_assign he (fun v hv => ?_) h
      obtain ⟨r, rfl, -⟩ := siteValue_eq_ok hv
      simp
  transfer_mono {n s e e' f f'} _ _ hef h h' := by
    rcases transfer_cases n s with ⟨f, hs⟩ | hs | ⟨x, hs⟩ <;>
      simp only [analysis, hs, Except.ok.injEq, reduceCtorEq] at h h'
    · rwa [← h, ← h']
    · refine Env.below_assign hef (fun v w hv hw => ?_) h h'
      rw [hv] at hw
      cases hw
      exact LawfulJoin.refl _

end ReachingDefinitions

namespace LiveVariables

theorem locals_foldl_write (xs : List Local) (e : Env LiveValue) :
    (xs.foldl (fun e x => e.write x .live) e).locals = e.locals := by
  induction xs generalizing e with
  | nil => rfl
  | cons x xs ih => exact (ih _).trans (Env.locals_write e x .live)

theorem all_foldl_write {P : Local → LiveValue → Prop} (hP : ∀ x, P x .live) (xs : List Local)
    {e : Env LiveValue} (he : e.All P) : (xs.foldl (fun e x => e.write x .live) e).All P := by
  induction xs generalizing e with
  | nil => exact he
  | cons x xs ih => exact ih (Env.all_write he (hP x))

theorem below_foldl_write (xs : List Local) {e f : Env LiveValue} (hef : e.Below f) :
    (xs.foldl (fun e x => e.write x .live) e).Below (xs.foldl (fun e x => e.write x .live) f) := by
  induction xs generalizing e f with
  | nil => exact hef
  | cons x xs ih => exact ih (Env.below_write hef (LawfulJoin.refl _))

theorem step_mono (i : Instruction) {e f : Env LiveValue} (hef : e.Below f) :
    (step i e).Below (step i f) := by
  simp only [step]
  refine below_foldl_write _ ?_
  cases i.defined? with
  | none => exact hef
  | some x => exact Env.below_write hef (LawfulJoin.refl _)

/-- Liveness rises from the bottom over dead to live. -/
def rank : LiveValue → Nat
  | .bottom => 0
  | .dead => 1
  | .live => 2

def lawful : analysis.Lawful where
  fits _ _ _ := True
  reached v := v ≠ .bottom
  rank _ := rank
  fits_bottom _ := trivial
  fits_fresh _ := trivial
  reached_fresh := by simp [analysis]
  fits_join _ _ := ⟨_, rfl, trivial⟩
  bottom_below _ := LiveValue.bottom_below _
  bottom_below_of_below _ _ := LiveValue.bottom_below _
  reached_up {v w} hv h := by
    have := LiveValue.below_iff.1 h
    cases v <;> cases w <;> simp_all [LiveValue.union]
  fits_up _ _ _ := trivial
  rank_lt {n x v w} _ _ h hne := by
    have := LiveValue.below_iff.1 h
    cases v <;> cases w <;> simp_all [LiveValue.union, rank]
  rank_le {n x v} _ := by cases v <;> simp [rank, analysis]
  transfer_locals {n s e e'} h := by
    simp only [analysis, Except.ok.injEq, step] at h
    rw [← h, locals_foldl_write]
    cases s.instruction.defined? with
    | none => rfl
    | some x => exact Env.locals_write e x .dead
  transfer_fits _ _ _ _ _ := trivial
  transfer_reached {n s e e'} _ he h := by
    simp only [analysis, Except.ok.injEq, step] at h
    rw [← h]
    refine all_foldl_write (by simp) _ ?_
    cases s.instruction.defined? with
    | none => exact he
    | some x => exact Env.all_write he (by simp)
  transfer_mono {n s e e' f f'} _ _ hef h h' := by
    simp only [analysis, Except.ok.injEq] at h h'
    rw [← h, ← h']
    exact step_mono s.instruction hef

end LiveVariables

namespace Taint

theorem mark_mono (tags : Tags) {v w : TaintValue} (h : Below v w) : Below (mark tags v) (mark tags w) := by
  rw [TaintValue.below_iff] at *
  obtain ⟨s, b⟩ := v
  obtain ⟨t, c⟩ := w
  obtain ⟨taint, clean, sensitive⟩ := tags
  cases taint <;> cases clean <;> cases sensitive <;> cases s <;> cases t <;>
    simp_all [mark, TaintValue.withState, TaintState.max]

theorem mark_reached (tags : Tags) {v : TaintValue} (h : v.state ≠ .bottom) :
    (mark tags v).state ≠ .bottom := by
  simp only [mark]
  split_ifs <;> simp [TaintValue.withState, h]

theorem mark_empty (v : TaintValue) : mark .empty v = v := rfl

theorem violate_eq_mark (v : TaintValue) : violate v = mark ⟨false, false, true⟩ v := by
  obtain ⟨s, b⟩ := v
  cases s <;> rfl

theorem mapValues_mark_empty (e : Env TaintValue) : e = e.mapValues fun _ => mark .empty := by
  refine Env.ext_get? fun x => ?_
  rw [Env.get?_mapValues]
  cases e.get? x <;> rfl

/-- An invocation marks each value by itself. -/
theorem intrinsic_eq (call : Invocation) :
    ∃ tags : Local → Tags, ∀ e, intrinsic call e = e.mapValues fun x => mark (tags x) := by
  obtain ⟨method, args, tags⟩ := call
  match args with
  | [.read x] =>
    refine ⟨fun y => if y = x then tags else .empty, fun e => Env.ext_get? fun y => ?_⟩
    rw [Env.get?_mapValues]
    by_cases hy : y = x
    · subst hy
      simp only [intrinsic]
      cases hv : e.get? y with
      | none => simp [hv]
      | some v => simp [Env.get?_write, hv]
    · simp only [intrinsic]
      cases e.get? x <;> cases hv : e.get? y <;> simp [Env.get?_write, hy, hv, mark_empty]
  | [] =>
    cases hs : tags.sensitive with
    | true =>
      refine ⟨fun _ => ⟨false, false, true⟩, fun e => ?_⟩
      simp only [intrinsic, hs, if_true, violate_eq_mark]
    | false => exact ⟨fun _ => .empty, fun e => by simpa [intrinsic, hs] using mapValues_mark_empty e⟩
  | [.literal c] => exact ⟨fun _ => .empty, mapValues_mark_empty⟩
  | _ :: _ :: _ => exact ⟨fun _ => .empty, fun e => by simpa [intrinsic] using mapValues_mark_empty e⟩

theorem overwrite_eq (e : Env TaintValue) (x : Local) (v : TaintValue) :
    overwrite e x v = e.mapValues fun y old =>
      if y = x then { v with violated := v.violated || old.violated } else old := by
  refine Env.ext_get? fun y => ?_
  rw [Env.get?_mapValues, overwrite]
  by_cases hy : y = x
  · subst hy
    cases hv : e.get? y with
    | none => simp [hv]
    | some old => simp [Env.get?_write, hv]
  · cases e.get? x <;> simp [Env.get?_write, hy]

theorem overwrite_mono {e f : Env TaintValue} {v w : TaintValue} (x : Local) (h : e.Below f)
    (hvw : Below v w) : (overwrite e x v).Below (overwrite f x w) := by
  rw [overwrite_eq, overwrite_eq]
  refine Env.below_mapValues h fun y old old' hold => ?_
  by_cases hy : y = x
  · simp only [hy, if_true]
    rw [TaintValue.below_iff] at *
    refine ⟨hvw.1, ?_⟩
    simp only [Bool.or_eq_true]
    exact Or.imp hvw.2 hold.2
  · simpa [hy] using hold

theorem overwrite_reached {e : Env TaintValue} {v : TaintValue} (x : Local)
    (h : e.All fun _ v => v.state ≠ .bottom) (hv : v.state ≠ .bottom) :
    (overwrite e x v).All fun _ v => v.state ≠ .bottom := by
  rw [overwrite_eq]
  refine Env.all_mapValues h fun y old hold => ?_
  by_cases hy : y = x
  · simpa [hy] using hv
  · simpa [hy] using hold

theorem combine_mono {v w v' w' : TaintValue} (hv : Below v v') (hw : Below w w') :
    Below (v.combine w) (v'.combine w') := by
  rw [TaintValue.below_iff] at *
  obtain ⟨s, b⟩ := v
  obtain ⟨t, c⟩ := w
  obtain ⟨s', b'⟩ := v'
  obtain ⟨t', c'⟩ := w'
  refine ⟨?_, ?_⟩
  · cases s <;> cases t <;> cases s' <;> cases t' <;>
      simp_all [TaintValue.combine, TaintState.max]
  · simp only [TaintValue.combine, Bool.or_eq_true]
    exact Or.imp hv.2 hw.2

theorem combine_reached {v w : TaintValue} (hv : v.state ≠ .bottom) (hw : w.state ≠ .bottom) :
    (v.combine w).state ≠ .bottom := by
  simp only [TaintValue.combine]
  split_ifs <;> simp_all

theorem operand_mono {e f : Env TaintValue} (h : e.Below f) (x : Operand) :
    Below (operand e x) (operand f x) := by
  cases x with
  | read x => exact Env.below_getD h x _
  | literal c => exact LawfulJoin.refl _

theorem operand_reached {e : Env TaintValue} (h : e.All fun _ v => v.state ≠ .bottom) (x : Operand) :
    (operand e x).state ≠ .bottom := by
  cases x with
  | read x =>
    simp only [operand]
    cases hv : e.get? x with
    | none => simp [TaintValue.tainted]
    | some v => exact h x v hv
  | literal c =>
    simp only [operand]
    split_ifs <;> simp [TaintValue.tainted, TaintValue.clean]

theorem evaluate_mono {e f : Env TaintValue} (h : e.Below f) (value : Expr) :
    Below (evaluate e value) (evaluate f value) := by
  cases value with
  | operand x | neg x | cast _ x | instanceOf x _ => exact operand_mono h x
  | binary op lhs rhs => exact combine_mono (operand_mono h lhs) (operand_mono h rhs)
  | _ => exact LawfulJoin.refl _

theorem evaluate_reached {e : Env TaintValue} (h : e.All fun _ v => v.state ≠ .bottom) (value : Expr) :
    (evaluate e value).state ≠ .bottom := by
  cases value with
  | operand x | neg x | cast _ x | instanceOf x _ => exact operand_reached h x
  | binary op lhs rhs => exact combine_reached (operand_reached h lhs) (operand_reached h rhs)
  | _ => simp [evaluate, TaintValue.tainted]

theorem afterCall_eq (i : Instruction) :
    ∃ tags : Local → Tags, ∀ e, afterCall i e = e.mapValues fun x => mark (tags x) := by
  simp only [afterCall]
  cases i.call? with
  | none => exact ⟨fun _ => .empty, mapValues_mark_empty⟩
  | some call => exact intrinsic_eq call

/-- An instruction keeps the state or overwrites one local. -/
theorem afterWrite_cases (i : Instruction) :
    (∀ e, afterWrite i e = e) ∨
    (∃ x value, ∀ e, afterWrite i e = overwrite e x (evaluate e value)) ∨
    (∃ x, ∀ e, afterWrite i e = overwrite e x .tainted) := by
  cases i with
  | assign target value =>
    cases target with
    | var x => exact .inr (.inl ⟨x, value, fun _ => rfl⟩)
    | field base name => exact .inl fun _ => rfl
    | element base index => exact .inl fun _ => rfl
  | bind x origin => exact .inr (.inr ⟨x, fun _ => rfl⟩)
  | _ => exact .inl fun _ => rfl

theorem step_mono (i : Instruction) {e f : Env TaintValue} (h : e.Below f) :
    (step i e).Below (step i f) := by
  obtain ⟨tags, heq⟩ := afterCall_eq i
  have hmap := Env.below_mapValues h fun x _ _ => mark_mono (tags x)
  rcases afterWrite_cases i with hs | ⟨x, value, hs⟩ | ⟨x, hs⟩ <;> simp only [step, heq, hs]
  · exact hmap
  · exact overwrite_mono x hmap (evaluate_mono hmap value)
  · exact overwrite_mono x hmap (LawfulJoin.refl _)

theorem step_reached (i : Instruction) {e : Env TaintValue} (h : e.All fun _ v => v.state ≠ .bottom) :
    (step i e).All fun _ v => v.state ≠ .bottom := by
  obtain ⟨tags, heq⟩ := afterCall_eq i
  have hmap : (e.mapValues fun x => mark (tags x)).All fun _ v => v.state ≠ .bottom :=
    Env.all_mapValues h fun x _ => mark_reached (tags x)
  rcases afterWrite_cases i with hs | ⟨x, value, hs⟩ | ⟨x, hs⟩ <;> simp only [step, heq, hs]
  · exact hmap
  · exact overwrite_reached x hmap (evaluate_reached hmap value)
  · exact overwrite_reached x hmap (by simp [TaintValue.tainted])

theorem locals_step (i : Instruction) (e : Env TaintValue) : (step i e).locals = e.locals := by
  obtain ⟨tags, heq⟩ := afterCall_eq i
  rcases afterWrite_cases i with hs | ⟨x, value, hs⟩ | ⟨x, hs⟩ <;> simp [step, heq, hs, overwrite_eq]

/-- Taint rises in two steps, and the mark of violation is one more. -/
def rank (v : TaintValue) : Nat :=
  (match v.state with
    | .bottom => 0
    | .clean => 1
    | .tainted => 2) + v.violated.toNat

def lawful : analysis.Lawful where
  fits _ _ _ := True
  reached v := v.state ≠ .bottom
  rank _ := rank
  fits_bottom _ := trivial
  fits_fresh _ := trivial
  reached_fresh := by simp [analysis, TaintValue.clean]
  fits_join _ _ := ⟨_, rfl, trivial⟩
  bottom_below _ := TaintValue.bottom_below _
  bottom_below_of_below _ _ := TaintValue.bottom_below _
  reached_up {v w} hv h := by
    have := (TaintValue.below_iff.1 h).1
    obtain ⟨s, b⟩ := v
    obtain ⟨t, c⟩ := w
    cases s <;> cases t <;> simp_all [TaintState.max]
  fits_up _ _ _ := trivial
  rank_lt {n x v w} _ _ h hne := by
    have := TaintValue.below_iff.1 h
    obtain ⟨s, b⟩ := v
    obtain ⟨t, c⟩ := w
    cases s <;> cases t <;> cases b <;> cases c <;> simp_all [TaintState.max, rank]
  rank_le {n x v} _ := by
    obtain ⟨s, b⟩ := v
    cases s <;> cases b <;> simp [rank, analysis]
  transfer_locals {n s e e'} h := by
    simp only [analysis, Except.ok.injEq] at h
    rw [← h, locals_step]
  transfer_fits _ _ _ _ _ := trivial
  transfer_reached {n s e e'} _ he h := by
    simp only [analysis, Except.ok.injEq] at h
    rw [← h]
    exact step_reached s.instruction he
  transfer_mono {n s e e' f f'} _ _ hef h h' := by
    simp only [analysis, Except.ok.injEq] at h h'
    rw [← h, ← h']
    exact step_mono s.instruction hef

end Taint

end FlowHistory
