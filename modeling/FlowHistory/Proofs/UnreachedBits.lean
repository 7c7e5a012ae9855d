import FlowHistory.Proofs.BestPatterns
import FlowHistory.Proofs.Refusals

/-!
# Bits that are not reached

A bit that is not reached may still settle to either value. Sums, differences and negations account for
that: with such bits they are the greatest patterns below the results for all reached patterns above the
operands, so they are monotone on all patterns.

Of the other operators only the exclusive or is monotone there. The rest may give an unknown bit for operands
that are not reached, and a known one once these settle, so an instruction that computes with such an operator
is monotone where the locals that it reads are reached, and not in general.
-/
namespace FlowHistory

/-- Operators that are monotone also where bits are not reached. -/
def BinaryOp.isSteady : BinaryOp → Bool
  | .add | .sub | .xor => true
  | _ => false

namespace Bit

/-- The second bit is reached, and above the first. -/
def Settles (b u : Bit) : Prop := u ≠ .bottom ∧ b.Le u

instance (b u : Bit) : Decidable (b.Settles u) := inferInstanceAs (Decidable (_ ∧ _))

theorem settles_top (b : Bit) : b.Settles .top := ⟨by decide, le_top b⟩

theorem settles_of_mem : ∀ {b u : Bit}, u ∈ b.settlements → b.Settles u := by decide

end Bit

namespace BitPattern

variable {a a' b b' p q r : BitPattern}

instance (p q : BitPattern) : Decidable (p.Le q) :=
  inferInstanceAs (Decidable (List.Forall₂ Bit.Le p.bits q.bits))

theorem Le.trans (hpq : p.Le q) (hqr : q.Le r) : p.Le r :=
  below_iff.1 (LawfulJoin.trans (below_iff.2 hpq) (below_iff.2 hqr))

theorem Le.exists_bit {c : Bit} {i : Nat} (h : p.Le q) (hc : q.bits[i]? = some c) :
    ∃ b, p.bits[i]? = some b ∧ b.Le c := by
  obtain ⟨hw, hle⟩ := le_iff_getElem?.1 h
  obtain ⟨b, hb⟩ := BitPattern.exists_bit (hw ▸ lt_width hc)
  exact ⟨b, hb, hle i b c hb hc⟩

theorem settles_iff {xs us : List Bit} : List.Forall₂ Bit.Settles xs us ↔
    (∀ u ∈ us, u ≠ .bottom) ∧ List.Forall₂ Bit.Le xs us := by
  constructor
  · intro h
    obtain ⟨hus, hle⟩ := (List.forall₂_and_left us xs).1 h.flip
    exact ⟨hus, hle.flip⟩
  · rintro ⟨hus, hle⟩
    exact ((List.forall₂_and_left us xs).2 ⟨hus, hle.flip⟩).flip

theorem settles_tops (xs : List Bit) : List.Forall₂ Bit.Settles xs (xs.map fun _ => .top) := by
  induction xs with
  | nil => exact .nil
  | cons x xs ih => exact .cons x.settles_top ih

theorem le_sumBit : ∀ {x y z d : Bit}, (∀ x' ∈ x.settlements, ∀ y' ∈ y.settlements,
    ∀ z' ∈ z.settlements, d.Le (sumBit x' y' z')) → d.Le (sumBit x y z) := by
  decide

theorem exists_carry_le : ∀ {x y z c : Bit}, c ≠ .bottom → (carry x y z).Le c →
    ∃ x' ∈ x.settlements, ∃ y' ∈ y.settlements, ∃ z' ∈ z.settlements, (carry x' y' z').Le c := by
  decide

/-- What is below a rippled bit for all settled operands is below it for the operands themselves. -/
theorem le_ripple {c d b : Bit} {xs ys : List Bit} {i : Nat} (hb : (ripple c xs ys)[i]? = some b)
    (h : ∀ {c' b' : Bit} {xs' ys' : List Bit}, c.Settles c' → List.Forall₂ Bit.Settles xs xs' →
      List.Forall₂ Bit.Settles ys ys' → (ripple c' xs' ys')[i]? = some b' → d.Le b') : d.Le b := by
  induction xs generalizing c ys i with
  | nil => simp [ripple] at hb
  | cons x xs ih =>
    cases ys with
    | nil => simp [ripple] at hb
    | cons y ys =>
      cases i with
      | zero =>
        cases hb
        refine le_sumBit fun x' hx y' hy z' hz => ?_
        exact h (Bit.settles_of_mem hz) (.cons (Bit.settles_of_mem hx) (settles_tops xs))
          (.cons (Bit.settles_of_mem hy) (settles_tops ys)) rfl
      | succ i =>
        have hb : (ripple (carry x y c) xs ys)[i]? = some b := by simpa [ripple] using hb
        refine ih hb fun {c' b' xs' ys'} hc hxs hys hb' => ?_
        -- a settled carry into the rest is above one that comes out of a settled position
        obtain ⟨x', hx, y', hy, z', hz, hle⟩ := exists_carry_le hc.1 hc.2
        have hrest : (BitPattern.mk (ripple (carry x' y' z') xs' ys')).Le ⟨ripple c' xs' ys'⟩ :=
          ripple_le (le_refl ⟨xs'⟩) (le_refl ⟨ys'⟩) hle
        obtain ⟨u, hu, hub⟩ := hrest.exists_bit hb'
        refine Bit.Le.trans (h (Bit.settles_of_mem hz) (.cons (Bit.settles_of_mem hx) hxs)
          (.cons (Bit.settles_of_mem hy) hys) ?_) hub
        simpa [ripple] using hu

theorem addWithCarry_le {c c' : Bit} (haa : a.Le a') (hbb : b.Le b') (hcc : c.Le c') :
    (addWithCarry a b c).Le (addWithCarry a' b' c') :=
  ripple_le haa hbb hcc

theorem le_addWithCarry {c : Bit}
    (h : ∀ p q, p.Reached → q.Reached → a.Le p → b.Le q → r.Le (addWithCarry p q c)) :
    r.Le (addWithCarry a b c) := by
  refine le_iff_getElem?.2 ⟨?_, fun i d u hd hu => le_ripple hu ?_⟩
  · have htop := h (top a.width) (top b.width) (reached_filled (by decide)) (reached_filled (by decide))
      (le_top a) (le_top b)
    rw [htop.width_eq, width_addWithCarry, width_addWithCarry, top, top, width_filled, width_filled]
  · intro c' b' xs' ys' hc hxs hys hb'
    obtain ⟨hp, hap⟩ := settles_iff.1 hxs
    obtain ⟨hq, hbq⟩ := settles_iff.1 hys
    have hle := (h ⟨xs'⟩ ⟨ys'⟩ hp hq hap hbq).trans (addWithCarry_le (le_refl _) (le_refl _) hc.2)
    exact (le_iff_getElem?.1 hle).2 i d b' hd hb'

theorem zeroExtend_zeroExtend {v : Nat} (hv : a.width ≤ v) : (a.zeroExtend v).zeroExtend a.width = a := by
  have htake : a.bits.take v = a.bits := List.take_of_length_le hv
  simp [zeroExtend, resize, width, htake]

theorem le_narrow {v : Nat} (hv : a.width ≤ v) (h : (a.zeroExtend v).Le p) :
    a.Le (p.zeroExtend a.width) := by
  have hnarrow := zeroExtend_le a.width h
  rwa [zeroExtend_zeroExtend hv] at hnarrow

/-- A pattern above an extension is above the extension of its own part. -/
theorem extend_narrow_le {v : Nat} (h : (a.zeroExtend v).Le p) :
    ((p.zeroExtend a.width).zeroExtend v).Le p := by
  obtain ⟨hw, hle⟩ := le_iff_getElem?.1 h
  have hwp : p.width = v := hw.symm.trans (width_resize a v _)
  refine le_iff_getElem?.2 ⟨(width_resize _ v _).trans hwp.symm, fun i c d hc hd => ?_⟩
  obtain ⟨hi, hc | ⟨hge, rfl⟩⟩ := getElem?_resize.1 hc
  · obtain ⟨hia, hc | ⟨hge, -⟩⟩ := getElem?_resize.1 hc
    · rw [hd, Option.some.injEq] at hc
      rw [hc]
      exact Bit.le_refl c
    · omega
  · rw [zeroExtend, width_resize] at hge
    exact hle i .zero d (getElem?_resize.2 ⟨hi, .inr ⟨hge, rfl⟩⟩) hd

/-- What is below the sums of all reached patterns above the operands is below their sum. -/
theorem le_add (h : ∀ p q, p.Reached → q.Reached → a.Le p → b.Le q → r.Le (p.add q)) :
    r.Le (a.add b) := by
  refine le_addWithCarry fun p q hp hq hap hbq => ?_
  have hsum := h (p.zeroExtend a.width) (q.zeroExtend b.width) (reached_zeroExtend _ hp)
    (reached_zeroExtend _ hq) (le_narrow (Nat.le_max_left _ _) hap) (le_narrow (Nat.le_max_right _ _) hbq)
  refine hsum.trans (addWithCarry_le ?_ ?_ (Bit.le_refl _))
  · simpa only [zeroExtend, width_resize] using extend_narrow_le hap
  · simpa only [zeroExtend, width_resize] using extend_narrow_le hbq

theorem le_sub (h : ∀ p q, p.Reached → q.Reached → a.Le p → b.Le q → r.Le (p.sub q)) :
    r.Le (a.sub b) := by
  refine le_addWithCarry fun p q hp hq hap hbq => ?_
  have hbq' := map_not_le hbq
  rw [map_not_map_not] at hbq'
  have hdiff := h (p.zeroExtend a.width) ((q.map Bit.not).zeroExtend b.width) (reached_zeroExtend _ hp)
    (reached_zeroExtend _ (reached_map_not hq)) (le_narrow (Nat.le_max_left _ _) hap)
    (le_narrow (Nat.le_max_right _ _) hbq')
  refine hdiff.trans (addWithCarry_le ?_ ?_ (Bit.le_refl _))
  · simpa only [zeroExtend, width_resize] using extend_narrow_le hap
  · have hnot := map_not_le (extend_narrow_le hbq')
    rw [map_not_map_not] at hnot
    simpa only [zeroExtend, width_resize] using hnot

theorem le_neg (h : ∀ p, p.Reached → a.Le p → r.Le p.neg) : r.Le a.neg := by
  refine le_add fun p q hp hq hap hbq => ?_
  have hap' := map_not_le hap
  rw [map_not_map_not] at hap'
  have hneg := h (p.map Bit.not) (reached_map_not hp) hap'
  rw [neg, map_not_map_not, ← hap'.width_eq] at hneg
  exact hneg.trans (add_le (le_refl p) hbq)

/-- Sums, differences and negations are monotone on all patterns, also of different widths and with bits
that are not reached. With such bits, each is the meet of the results for all reached patterns above the
operands, so no monotone rule could say more. -/
theorem sums_monotone (haa : a.Le a') (hbb : b.Le b') :
    ((a.add b).Le (a'.add b') ∧ (a.sub b).Le (a'.sub b') ∧ a.neg.Le a'.neg) ∧
    ∀ r : BitPattern,
      (r.Le (a.add b) ↔ ∀ p q, p.Reached → q.Reached → a.Le p → b.Le q → r.Le (p.add q)) ∧
      (r.Le (a.sub b) ↔ ∀ p q, p.Reached → q.Reached → a.Le p → b.Le q → r.Le (p.sub q)) ∧
      (r.Le a.neg ↔ ∀ p, p.Reached → a.Le p → r.Le p.neg) := by
  refine ⟨⟨add_le haa hbb, sub_le haa hbb, neg_le haa⟩, fun r => ⟨⟨?_, le_add⟩, ⟨?_, le_sub⟩, ?_, le_neg⟩⟩
  · exact fun hr p q _ _ hap hbq => hr.trans (add_le hap hbq)
  · exact fun hr p q _ _ hap hbq => hr.trans (sub_le hap hbq)
  · exact fun hr p _ hap => hr.trans (neg_le hap)

/-- The upper bit of a narrow operand and the lowest bit of a wide one are not reached, and settle to 1. -/
theorem sums_monotone_mixed :
    (BitPattern.add ⟨[.top, .bottom]⟩ ⟨[.bottom, .zero, .one]⟩ = ⟨[.top, .bottom, .one]⟩ ∧
      (BitPattern.mk [.top, .bottom, .one]).Le ⟨[.top, .top, .top]⟩) ∧
    (BitPattern.sub ⟨[.top, .bottom]⟩ ⟨[.bottom, .zero, .one]⟩ = ⟨[.top, .bottom, .one]⟩ ∧
      (BitPattern.mk [.top, .bottom, .one]).Le ⟨[.top, .top, .one]⟩) ∧
    (BitPattern.neg ⟨[.top, .bottom]⟩).Le (BitPattern.neg ⟨[.top, .one]⟩) := by
  have hnarrow : (BitPattern.mk [.top, .bottom]).Le ⟨[.top, .one]⟩ := by decide
  have hwide : (BitPattern.mk [.bottom, .zero, .one]).Le ⟨[.one, .zero, .one]⟩ := by decide
  obtain ⟨⟨hadd, hsub, hneg⟩, -⟩ := sums_monotone hnarrow hwide
  exact ⟨⟨rfl, hadd⟩, ⟨rfl, hsub⟩, hneg⟩

theorem binary_le_of_isSteady {op : BinaryOp} (hop : op.isSteady = true) (haa : a.Le a')
    (hbb : b.Le b') : (binary op a b).Le (binary op a' b') := by
  cases op with
  | add => exact add_le haa hbb
  | sub => exact sub_le haa hbb
  | xor => exact xor_le haa hbb
  | _ => cases hop

end BitPattern

namespace ConstantBits

open BitPattern

variable {e e' f f' : Env BitPattern}

/-- Whether an assignment can be computed does not depend on the state. -/
theorem exists_assigned {x : Local} {value : Expr} {v : BitPattern} (h : assigned x value e = .ok v) :
    ∃ u, assigned x value e' = .ok u := by
  cases hu : assigned x value e' with
  | ok u => exact ⟨u, rfl⟩
  | error fault =>
    have herror : assigned x value e = .error fault := by
      rw [assigned, bind_pure_eq_error, evaluate_eq_error_iff] at hu ⊢
      exact hu
    rw [h] at herror
    cases herror

theorem exists_transfer {s : Site} (hlocals : e'.locals = e.locals) (h : transfer s e = .ok f) :
    ∃ f', transfer s e' = .ok f' := by
  rcases transfer_cases s with ⟨fault, hs⟩ | hs | ⟨x, value, hs⟩ | ⟨x, hs⟩
  · rw [hs] at h
    cases h
  · exact ⟨e', hs e'⟩
  · rw [hs] at h ⊢
    exact Env.exists_assign hlocals (fun _ => exists_assigned) h
  · exact ⟨_, hs e'⟩

theorem assigned_binary_iff {x : Local} {op : BinaryOp} {lhs rhs : Operand} {v : BitPattern} :
    assigned x (.binary op lhs rhs) e = .ok v ↔ ∃ a b, operand e lhs = .ok a ∧ operand e rhs = .ok b ∧
      (binary op a b).zeroExtend x.type.bitWidth = v := by
  constructor
  · intro h
    obtain ⟨p, hp, hv⟩ := bind_eq_ok.1 h
    obtain ⟨a, ha, hp⟩ := bind_eq_ok.1 hp
    obtain ⟨b, hb, hp⟩ := bind_eq_ok.1 hp
    rw [← pure_eq_ok.1 hp] at hv
    exact ⟨a, b, ha, hb, pure_eq_ok.1 hv⟩
  · rintro ⟨a, b, ha, hb, rfl⟩
    simp only [assigned, evaluate, ha, hb]
    rfl

/-- If the instruction computes with an operator, then what its local gets does not fall from the one state
to the other. -/
def Rises (i : Instruction) (e e' : Env BitPattern) : Prop :=
  ∀ x op lhs rhs a b a' b', i = .assign (.var x) (.binary op lhs rhs) → e.contains x = true →
    operand e lhs = .ok a → operand e rhs = .ok b → operand e' lhs = .ok a' → operand e' rhs = .ok b' →
    ((binary op a b).zeroExtend x.type.bitWidth).Le ((binary op a' b').zeroExtend x.type.bitWidth)

theorem rises_of_no_operator {i : Instruction}
    (hi : ∀ x op lhs rhs, i ≠ .assign (.var x) (.binary op lhs rhs)) : Rises i e e' :=
  fun x op lhs rhs _ _ _ _ h => absurd h (hi x op lhs rhs)

/-- Only an operator can break the order. -/
theorem below_transfer_iff {s : Site} (hee : e.Below e') (h : transfer s e = .ok f)
    (h' : transfer s e' = .ok f') : f.Below f' ↔ Rises s.instruction e e' := by
  obtain ⟨id, i⟩ := s
  cases i with
  | assign target value =>
    cases target with
    | var x =>
      rw [transfer_assign] at h h'
      rw [Env.below_assign_iff hee h h']
      constructor
      · rintro hle _ op lhs rhs a b a' b' ⟨⟩ hx ha hb ha' hb'
        exact BitPattern.below_iff.1 (hle hx _ _ (assigned_binary_iff.2 ⟨a, b, ha, hb, rfl⟩)
          (assigned_binary_iff.2 ⟨a', b', ha', hb', rfl⟩))
      · intro hrises hx v u hv hu
        cases value with
        | binary op lhs rhs =>
          obtain ⟨a, b, ha, hb, rfl⟩ := assigned_binary_iff.1 hv
          obtain ⟨a', b', ha', hb', rfl⟩ := assigned_binary_iff.1 hu
          exact BitPattern.below_iff.2 (hrises x op lhs rhs a b a' b' rfl hx ha hb ha' hb')
        | _ => exact assigned_below hee (fun hbinary => by cases hbinary) hv hu
    | field base name => cases h; cases h'; exact iff_of_true hee (rises_of_no_operator (by simp))
    | element base index => cases h; cases h'; exact iff_of_true hee (rises_of_no_operator (by simp))
  | bind x origin =>
    cases h
    cases h'
    exact iff_of_true (Env.below_write hee (LawfulJoin.refl _)) (rises_of_no_operator (by simp))
  | lookupSwitch key | tableSwitch key => cases h
  | _ => cases h; cases h'; exact iff_of_true hee (rises_of_no_operator (by simp))

/-- A steady operator does not break the order, and no operator does on locals that are reached. -/
theorem rises_of_steady_or_reached {i : Instruction} (hfit : Fitting e) (hee : e.Below e')
    (hi : ∀ x op lhs rhs, i = .assign (.var x) (.binary op lhs rhs) → op.isSteady = true ∨
      ∀ y ∈ i.used, ∀ v, e.get? y = some v → v.Reached) : Rises i e e' := by
  rintro x op lhs rhs a b a' b' rfl - ha hb ha' hb'
  refine zeroExtend_le _ ?_
  rcases hi x op lhs rhs rfl with hop | hreach
  · exact binary_le_of_isSteady hop (operand_le hee ha ha') (operand_le hee hb hb')
  · refine binary_le op (operand_solid hfit (fun y hy => hreach y ?_) ha)
      (operand_solid hfit (fun y hy => hreach y ?_) hb) (operand_le hee ha ha') (operand_le hee hb hb')
    · simp [Instruction.used, Expr.used, List.mem_append, hy]
    · simp [Instruction.used, Expr.used, List.mem_append, hy]

/-- On all states, also with bits that are not reached, the transfer of the instruction is monotone: where
it succeeds it succeeds on every state above, with a result above. -/
def KeepsOrder (i : Instruction) : Prop :=
  ∀ (id : Nat) (e e' f : Env BitPattern), Fitting e → e.Below e' → transfer ⟨id, i⟩ e = .ok f →
    ∃ f', transfer ⟨id, i⟩ e' = .ok f' ∧ f.Below f'

theorem keepsOrder_of_isSteady {op : BinaryOp} (hop : op.isSteady = true) (x : Local) (lhs rhs : Operand) :
    KeepsOrder (.assign (.var x) (.binary op lhs rhs)) := by
  intro id e e' f hfit hee h
  obtain ⟨f', h'⟩ := exists_transfer hee.locals_eq.symm h
  refine ⟨f', h', (below_transfer_iff hee h h').2 (rises_of_steady_or_reached hfit hee ?_)⟩
  rintro _ op' _ _ ⟨⟩
  exact .inl hop

/-- Operands with bits that are not reached, for which the operator is not monotone: a bit that absorbs
makes known what was unknown, and so does an operand that becomes constant. -/
theorem exists_not_le {op : BinaryOp} (hop : op.isSteady = false) :
    ∃ a b b' : BitPattern, a.width = 32 ∧ b.width = 32 ∧ b.Le b' ∧
      ¬ ((binary op a b).zeroExtend 32).Le ((binary op a b').zeroExtend 32) := by
  cases op with
  | add | sub | xor => cases hop
  | and => exact ⟨top 32, bottom 32, zero 32, rfl, rfl, by decide, by decide⟩
  | or => exact ⟨top 32, bottom 32, filled 32 .one, rfl, rfl, by decide, by decide⟩
  | _ =>
    exact ⟨constant 3 32, ⟨.bottom :: List.replicate 31 .zero⟩, constant 1 32, rfl, rfl, by decide, by decide⟩

section

variable {s t : LocalType} {a a' b b' p q : BitPattern} {value : Expr}

/-- A state of two locals. -/
def pair (s t : LocalType) (a b : BitPattern) : Env BitPattern :=
  .ofFn (.ofList [⟨"x", s⟩, ⟨"y", t⟩]) fun z => if z = ⟨"x", s⟩ then a else b

theorem get?_pair_left : (pair s t a b).get? ⟨"x", s⟩ = some a := by simp [pair, Env.get?_ofFn]

theorem get?_pair_right : (pair s t a b).get? ⟨"y", t⟩ = some b := by simp [pair, Env.get?_ofFn]

theorem get?_pair_cases {z : Local} {v : BitPattern} (h : (pair s t a b).get? z = some v) :
    (z = ⟨"x", s⟩ ∧ v = a) ∨ (z = ⟨"y", t⟩ ∧ v = b) := by
  have hz : z ∈ [⟨"x", s⟩, ⟨"y", t⟩] := by
    have hmem := Env.mem_locals_iff.2 ⟨v, h⟩
    rw [pair, Env.locals_ofFn] at hmem
    exact LocalSet.mem_ofList.1 hmem
  rcases List.mem_pair.1 hz with rfl | rfl
  · rw [get?_pair_left, Option.some.injEq] at h
    exact .inl ⟨rfl, h.symm⟩
  · rw [get?_pair_right, Option.some.injEq] at h
    exact .inr ⟨rfl, h.symm⟩

theorem fitting_pair (ha : a.width = s.bitWidth) (hb : b.width = t.bitWidth) : Fitting (pair s t a b) := by
  intro z v hv
  rcases get?_pair_cases hv with ⟨rfl, rfl⟩ | ⟨rfl, rfl⟩
  · exact ha
  · exact hb

theorem below_pair (ha : a.Le a') (hb : b.Le b') : (pair s t a b).Below (pair s t a' b') := by
  refine Env.below_iff.2 ⟨by simp [pair], fun z v u hv hu => BitPattern.below_iff.2 ?_⟩
  rcases get?_pair_cases hv with ⟨rfl, rfl⟩ | ⟨rfl, rfl⟩
  · rw [get?_pair_left, Option.some.injEq] at hu
    rwa [← hu]
  · rw [get?_pair_right, Option.some.injEq] at hu
    rwa [← hu]

theorem evaluate_pair {op : BinaryOp} {width : Nat} :
    evaluate (pair s t a b) width (.binary op (.read ⟨"x", s⟩) (.read ⟨"y", t⟩)) = .ok (binary op a b) := by
  simp only [evaluate, operand, get?_pair_left, get?_pair_right]
  rfl

theorem transfer_pair {id : Nat} (h : evaluate (pair s t a b) t.bitWidth value = .ok p) :
    transfer ⟨id, .assign (.var ⟨"y", t⟩) value⟩ (pair s t a b) =
      .ok ((pair s t a b).write ⟨"y", t⟩ (p.zeroExtend t.bitWidth)) := by
  have hcontains : (pair s t a b).contains ⟨"y", t⟩ = true := by simp [Env.contains, get?_pair_right]
  rw [transfer_assign, Env.assign, if_pos hcontains, assigned, h]
  rfl

theorem get?_write_pair : ((pair s t a b).write ⟨"y", t⟩ p).get? ⟨"y", t⟩ = some p := by
  simp [Env.get?_write, get?_pair_right]

theorem not_below_write_pair (h : ¬ p.Le q) :
    ¬ ((pair s t a b).write ⟨"y", t⟩ p).Below ((pair s t a' b').write ⟨"y", t⟩ q) :=
  fun hbelow => h (BitPattern.below_iff.1 (hbelow.get? get?_write_pair get?_write_pair))

end

/-- Some assignment with an operator that is not steady is not monotone. -/
theorem exists_not_keepsOrder {op : BinaryOp} (hop : op.isSteady = false) :
    ∃ x lhs rhs, ¬ KeepsOrder (.assign (.var x) (.binary op lhs rhs)) := by
  obtain ⟨a, b, b', ha, hb, hbb, hnot⟩ := exists_not_le hop
  refine ⟨⟨"y", .int⟩, .read ⟨"x", .int⟩, .read ⟨"y", .int⟩, fun hkeeps => ?_⟩
  obtain ⟨f', hf', hff⟩ := hkeeps 0 (pair .int .int a b) (pair .int .int a b') _ (fitting_pair ha hb)
    (below_pair (le_refl a) hbb) (transfer_pair evaluate_pair)
  rw [transfer_pair evaluate_pair, Except.ok.injEq] at hf'
  rw [← hf'] at hff
  exact not_below_write_pair hnot hff

/-- A transfer that succeeds succeeds on every state above, and the result is above if and only if what the
instruction computes with an operator does not fall. It does not fall if the operator is steady or the locals
that the instruction reads are reached; every other operator has an assignment that is not monotone. -/
theorem transfer_monotone_iff {s : Site} (hfit : Fitting e) (hee : e.Below e') (h : transfer s e = .ok f) :
    (∃ f', transfer s e' = .ok f' ∧ (f.Below f' ↔ Rises s.instruction e e')) ∧
    ((∀ x op lhs rhs, s.instruction = .assign (.var x) (.binary op lhs rhs) → op.isSteady = true ∨
      ∀ y ∈ s.instruction.used, ∀ v, e.get? y = some v → v.Reached) → Rises s.instruction e e') ∧
    ∀ op : BinaryOp, (∀ x lhs rhs, KeepsOrder (.assign (.var x) (.binary op lhs rhs))) ↔
      op.isSteady = true := by
  obtain ⟨f', h'⟩ := exists_transfer hee.locals_eq.symm h
  refine ⟨⟨f', h', below_transfer_iff hee h h'⟩, rises_of_steady_or_reached hfit hee,
    fun op => ⟨fun hkeeps => ?_, keepsOrder_of_isSteady⟩⟩
  by_contra hop
  obtain ⟨x, lhs, rhs, hnot⟩ := exists_not_keepsOrder (Bool.eq_false_of_not_eq_true hop)
  exact hnot (hkeeps x lhs rhs)

/-- A conjunction with a target that is not reached. -/
theorem transfer_monotone_iff_pair :
    Fitting (pair .int .int (constant 6 32) (bottom 32)) ∧
    (pair .int .int (constant 6 32) (bottom 32)).Below (pair .int .int (top 32) (constant 5 32)) ∧
    ∃ f f', transfer ⟨0, .assign (.var ⟨"y", .int⟩) (.binary .and (.read ⟨"x", .int⟩) (.literal (.int 3)))⟩
        (pair .int .int (constant 6 32) (bottom 32)) = .ok f ∧ f.get? ⟨"y", .int⟩ = some (constant 2 32) ∧
      transfer ⟨0, .assign (.var ⟨"y", .int⟩) (.binary .and (.read ⟨"x", .int⟩) (.literal (.int 3)))⟩
        (pair .int .int (top 32) (constant 5 32)) = .ok f' ∧ f.Below f' := by
  have hfit : Fitting (pair .int .int (constant 6 32) (bottom 32)) := fitting_pair rfl rfl
  have hee : (pair .int .int (constant 6 32) (bottom 32)).Below (pair .int .int (top 32) (constant 5 32)) :=
    below_pair (by decide) (by decide)
  have hvalue : evaluate (pair .int .int (constant 6 32) (bottom 32)) 32
      (.binary .and (.read ⟨"x", .int⟩) (.literal (.int 3))) = .ok (constant 2 32) := by
    decide
  obtain ⟨⟨f', hf', hiff⟩, hrises, -⟩ := transfer_monotone_iff (s := ⟨0, _⟩) hfit hee (transfer_pair hvalue)
  refine ⟨hfit, hee, _, f', transfer_pair hvalue, get?_write_pair, hf', hiff.2 (hrises ?_)⟩
  refine fun x op lhs rhs _ => .inr fun z hz v hv => ?_
  obtain rfl : z = ⟨"x", .int⟩ := by
    simpa [Instruction.used, Expr.used, Place.used, Operand.local?] using hz
  rw [get?_pair_left, Option.some.injEq] at hv
  rw [← hv]
  exact reached_constant 6 32

/-- A comparison of a word that is not reached is unknown, and known once the word settles. -/
theorem comparison_not_monotone :
    Fitting (pair .long .int (bottom 64) (bottom 32)) ∧
    (pair .long .int (bottom 64) (bottom 32)).Below (pair .long .int (zero 64) (zero 32)) ∧
    ∃ f f', transfer ⟨0, .assign (.var ⟨"y", .int⟩) (.binary .cmp (.read ⟨"x", .long⟩) (.literal (.long 0)))⟩
        (pair .long .int (bottom 64) (bottom 32)) = .ok f ∧ f.get? ⟨"y", .int⟩ = some (top 32) ∧
      transfer ⟨0, .assign (.var ⟨"y", .int⟩) (.binary .cmp (.read ⟨"x", .long⟩) (.literal (.long 0)))⟩
        (pair .long .int (zero 64) (zero 32)) = .ok f' ∧ f'.get? ⟨"y", .int⟩ = some (zero 32) ∧
      ¬ f.Below f' := by
  have hunknown : evaluate (pair .long .int (bottom 64) (bottom 32)) 32
      (.binary .cmp (.read ⟨"x", .long⟩) (.literal (.long 0))) = .ok (top 32) := by
    decide
  have hknown : evaluate (pair .long .int (zero 64) (zero 32)) 32
      (.binary .cmp (.read ⟨"x", .long⟩) (.literal (.long 0))) = .ok (zero 32) := by
    decide +kernel
  exact ⟨fitting_pair rfl rfl, below_pair (by decide) (by decide), _, _, transfer_pair hunknown,
    get?_write_pair, transfer_pair hknown, get?_write_pair, not_below_write_pair (by decide)⟩

end ConstantBits

end FlowHistory
