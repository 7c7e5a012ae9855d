import FlowHistory.Analysis.Catalogue
import FlowHistory.Proofs.BitProduct
import FlowHistory.Proofs.TransferLaws

/-!
# Constant bits are lawful

On reached patterns every operation is monotone and gives a reached pattern again. The laws of the
constant bits follow from that, operand by operand.
-/
namespace FlowHistory

open LatticeValue (Below)

namespace BitPattern

variable {a b a' b' : BitPattern}

theorem resize_le {c c' : Bit} (v : Nat) (haa : a.Le a') (hcc : c.Le c') :
    (a.resize v c).Le (a'.resize v c') := by
  obtain ⟨hw, hle⟩ := le_iff_getElem?.1 haa
  refine le_iff_getElem?.2 ⟨by rw [width_resize, width_resize], fun i d d' hd hd' => ?_⟩
  obtain ⟨-, hd | ⟨hge, rfl⟩⟩ := getElem?_resize.1 hd
  · obtain ⟨-, hd' | ⟨hge', -⟩⟩ := getElem?_resize.1 hd'
    · exact hle i d d' hd hd'
    · have := lt_width hd
      omega
  · obtain ⟨-, hd' | ⟨-, rfl⟩⟩ := getElem?_resize.1 hd'
    · have := lt_width hd'
      omega
    · exact hcc

theorem reached_resize {c : Bit} (v : Nat) (ha : a.Reached) (hc : c ≠ .bottom) :
    (a.resize v c).Reached := by
  intro d hd
  obtain ⟨i, hi⟩ := List.mem_iff_getElem?.1 hd
  obtain ⟨-, hd | ⟨-, rfl⟩⟩ := getElem?_resize.1 hi
  · exact ha d (List.mem_of_getElem? hd)
  · exact hc

theorem zeroExtend_le (v : Nat) (haa : a.Le a') : (a.zeroExtend v).Le (a'.zeroExtend v) :=
  resize_le v haa (Bit.le_refl _)

theorem reached_zeroExtend (v : Nat) (ha : a.Reached) : (a.zeroExtend v).Reached :=
  reached_resize v ha (by decide)

theorem signBit_le (haa : a.Le a') : a.signBit.Le a'.signBit := by
  obtain ⟨hw, hle⟩ := le_iff_getElem?.1 haa
  have hlen : a.bits.length = a'.bits.length := hw
  rw [signBit, signBit, List.getLast?_eq_getElem?, List.getLast?_eq_getElem?, ← hlen]
  cases hc : a.bits[a.bits.length - 1]? with
  | none =>
    have hnone := List.getElem?_eq_none_iff.1 hc
    rw [List.getElem?_eq_none (hlen ▸ hnone)]
    exact Bit.le_refl _
  | some c =>
    obtain ⟨c', hc'⟩ := exists_bit (p := a') (hw ▸ lt_width hc)
    rw [hc']
    exact hle _ c c' hc hc'

theorem signBit_ne_bottom (ha : a.Reached) : a.signBit ≠ .bottom := by
  obtain ⟨x, hx⟩ := ha.exists_describes rfl
  exact hx.signBit.ne_bottom

theorem signExtend_le (v : Nat) (haa : a.Le a') : (a.signExtend v).Le (a'.signExtend v) :=
  resize_le v haa (signBit_le haa)

theorem reached_signExtend (v : Nat) (ha : a.Reached) : (a.signExtend v).Reached :=
  reached_resize v ha (signBit_ne_bottom ha)

/-! Sums. -/

theorem sumBit_le : ∀ {x x' y y' z z' : Bit}, x.Le x' → y.Le y' → z.Le z' →
    (sumBit x y z).Le (sumBit x' y' z') := by
  decide

theorem carry_le : ∀ {x x' y y' z z' : Bit}, x.Le x' → y.Le y' → z.Le z' →
    (carry x y z).Le (carry x' y' z') := by
  decide

theorem ripple_le {c c' : Bit} {xs xs' ys ys' : List Bit} (hx : List.Forall₂ Bit.Le xs xs')
    (hy : List.Forall₂ Bit.Le ys ys') (hc : c.Le c') :
    List.Forall₂ Bit.Le (ripple c xs ys) (ripple c' xs' ys') := by
  induction hx generalizing c c' ys ys' with
  | nil => exact .nil
  | cons hxx _ ih =>
    cases hy with
    | nil => exact .nil
    | cons hyy hy => exact .cons (sumBit_le hxx hyy hc) (ih hy (carry_le hxx hyy hc))

theorem sumBit_ne_bottom : ∀ {x y z : Bit}, x ≠ .bottom → y ≠ .bottom → z ≠ .bottom →
    sumBit x y z ≠ .bottom := by
  decide

theorem carry_ne_bottom : ∀ {x y z : Bit}, x ≠ .bottom → y ≠ .bottom → z ≠ .bottom →
    carry x y z ≠ .bottom := by
  decide

theorem ripple_ne_bottom {c : Bit} {xs ys : List Bit} (hx : ∀ b ∈ xs, b ≠ .bottom)
    (hy : ∀ b ∈ ys, b ≠ .bottom) (hc : c ≠ .bottom) : ∀ b ∈ ripple c xs ys, b ≠ .bottom := by
  induction xs generalizing c ys with
  | nil => simp [ripple]
  | cons x xs ih =>
    cases ys with
    | nil => simp [ripple]
    | cons y ys =>
      have hx₀ := hx x (by simp)
      have hy₀ := hy y (by simp)
      intro b hb
      rcases List.mem_cons.1 hb with rfl | hb
      · exact sumBit_ne_bottom hx₀ hy₀ hc
      · exact ih (fun d hd => hx d (by simp [hd])) (fun d hd => hy d (by simp [hd]))
          (carry_ne_bottom hx₀ hy₀ hc) b hb

theorem widen_fst_le (haa : a.Le a') (hbb : b.Le b') : (widen a b).1.Le (widen a' b').1 := by
  simp only [widen, haa.width_eq, hbb.width_eq]
  exact zeroExtend_le _ haa

theorem widen_snd_le (haa : a.Le a') (hbb : b.Le b') : (widen a b).2.Le (widen a' b').2 := by
  simp only [widen, haa.width_eq, hbb.width_eq]
  exact zeroExtend_le _ hbb

theorem map_not_le (haa : a.Le a') : (a.map Bit.not).Le (a'.map Bit.not) := by
  have hnot : ∀ {b c : Bit}, b.Le c → b.not.Le c.not := by decide
  exact List.rel_map (fun _ _ h => hnot h) haa

theorem reached_map_not (ha : a.Reached) : (a.map Bit.not).Reached := by
  have hnot : ∀ {b : Bit}, b ≠ .bottom → b.not ≠ .bottom := by decide
  intro c hc
  obtain ⟨b, hb, rfl⟩ := List.mem_map.1 hc
  exact hnot (ha b hb)

theorem add_le (haa : a.Le a') (hbb : b.Le b') : (a.add b).Le (a'.add b') :=
  ripple_le (widen_fst_le haa hbb) (widen_snd_le haa hbb) (Bit.le_refl _)

theorem reached_add (ha : a.Reached) (hb : b.Reached) : (a.add b).Reached :=
  ripple_ne_bottom (reached_zeroExtend _ ha) (reached_zeroExtend _ hb) (by decide)

theorem sub_le (haa : a.Le a') (hbb : b.Le b') : (a.sub b).Le (a'.sub b') :=
  ripple_le (widen_fst_le haa hbb) (map_not_le (widen_snd_le haa hbb)) (Bit.le_refl _)

theorem reached_sub (ha : a.Reached) (hb : b.Reached) : (a.sub b).Reached :=
  ripple_ne_bottom (reached_zeroExtend _ ha) (reached_map_not (reached_zeroExtend _ hb)) (by decide)

theorem reached_constant (v : Int) (w : Nat) : (constant v w).Reached :=
  (describes_ofBitVec _).reached

theorem neg_le (haa : a.Le a') : a.neg.Le a'.neg := by
  rw [neg, neg, haa.width_eq]
  exact add_le (map_not_le haa) (le_refl _)

theorem reached_neg (ha : a.Reached) : a.neg.Reached :=
  reached_add (reached_map_not ha) (reached_constant 1 _)

/-! Products. -/

theorem widen_widen (a b : BitPattern) : widen (widen a b).1 (widen a b).2 = widen a b := by
  refine widen_of_width_eq ?_
  simp [widen, zeroExtend]

theorem mul_widen (a b : BitPattern) : (widen a b).1.mul (widen a b).2 = a.mul b := by
  unfold mul
  rw [widen_widen]

theorem mul_le (ha : a.Reached) (hb : b.Reached) (haa : a.Le a') (hbb : b.Le b') :
    (a.mul b).Le (a'.mul b') := by
  rw [← mul_widen a b, ← mul_widen a' b']
  exact mul_le_of_width_eq (reached_zeroExtend _ ha) (reached_zeroExtend _ hb) (width_resize _ _ _)
    (width_resize _ _ _) (widen_fst_le haa hbb) (widen_snd_le haa hbb)

theorem reached_mul (ha : a.Reached) (hb : b.Reached) : (a.mul b).Reached := by
  rw [← mul_widen]
  obtain ⟨x, hx⟩ := (reached_zeroExtend (max a.width b.width) ha).exists_describes (width_resize _ _ _)
  obtain ⟨y, hy⟩ := (reached_zeroExtend (max a.width b.width) hb).exists_describes (width_resize _ _ _)
  exact (hx.mul hy).reached

/-! Bitwise operations. -/

/-- With a bit that is not reached this fails: `⊥ & ⊤` is `⊤`, but `0 & ⊤` is `0`. -/
theorem bitwiseBit_le (op : BinaryOp) : ∀ {x x' y y' : Bit}, x ≠ .bottom → y ≠ .bottom → x.Le x' →
    y.Le y' → (bitwiseBit op x y).Le (bitwiseBit op x' y') := by
  cases op <;> decide

theorem bitwiseBit_ne_bottom (op : BinaryOp) : ∀ {x y : Bit}, x ≠ .bottom → y ≠ .bottom →
    bitwiseBit op x y ≠ .bottom := by
  cases op <;> decide

/-- What is monotone at each position, on bits of some kind, is monotone on patterns of such bits. -/
theorem bitwise_le_of {op : BinaryOp} {P : Bit → Prop} (hzero : P .zero)
    (hbit : ∀ {x x' y y' : Bit}, P x → P y → x.Le x' → y.Le y' →
      (bitwiseBit op x y).Le (bitwiseBit op x' y'))
    (ha : ∀ c ∈ a.bits, P c) (hb : ∀ c ∈ b.bits, P c) (haa : a.Le a') (hbb : b.Le b') :
    (bitwise op a b).Le (bitwise op a' b') := by
  have key : ∀ {xs xs' ys ys' : List Bit}, (∀ c ∈ xs, P c) → (∀ c ∈ ys, P c) →
      List.Forall₂ Bit.Le xs xs' → List.Forall₂ Bit.Le ys ys' →
      List.Forall₂ Bit.Le (List.zipWith (bitwiseBit op) xs ys) (List.zipWith (bitwiseBit op) xs' ys') := by
    intro xs xs' ys ys' hxs hys hx hy
    induction hx generalizing ys ys' with
    | nil => exact .nil
    | cons hxx _ ih =>
      cases hy with
      | nil => exact .nil
      | cons hyy hy =>
        rw [List.forall_mem_cons] at hxs hys
        exact .cons (hbit hxs.1 hys.1 hxx hyy) (ih hxs.2 hys.2 hy)
  have hextend : ∀ {p : BitPattern} (v : Nat), (∀ c ∈ p.bits, P c) → ∀ c ∈ (p.zeroExtend v).bits, P c := by
    intro p v hp c hc
    rcases List.mem_append.1 hc with hc | hc
    · exact hp c (List.mem_of_mem_take hc)
    · rw [List.eq_of_mem_replicate hc]
      exact hzero
  exact key (hextend _ ha) (hextend _ hb) (widen_fst_le haa hbb) (widen_snd_le haa hbb)

theorem bitwise_le (op : BinaryOp) (ha : a.Reached) (hb : b.Reached) (haa : a.Le a') (hbb : b.Le b') :
    (bitwise op a b).Le (bitwise op a' b') :=
  bitwise_le_of (by decide) (bitwiseBit_le op) ha hb haa hbb

/-- No bit absorbs another in an exclusive disjunction. -/
theorem xor_le (haa : a.Le a') (hbb : b.Le b') : (bitwise .xor a b).Le (bitwise .xor a' b') := by
  have hbit : ∀ {x x' y y' : Bit}, True → True → x.Le x' → y.Le y' →
      (bitwiseBit .xor x y).Le (bitwiseBit .xor x' y') := by decide
  exact bitwise_le_of trivial hbit (fun _ _ => trivial) (fun _ _ => trivial) haa hbb

theorem reached_bitwise (op : BinaryOp) (ha : a.Reached) (hb : b.Reached) : (bitwise op a b).Reached := by
  intro c hc
  obtain ⟨i, hi⟩ := List.mem_iff_getElem?.1 hc
  simp only [bitwise, List.getElem?_zipWith] at hi
  split at hi
  · rename_i d e hd he
    cases hi
    exact bitwiseBit_ne_bottom op (reached_zeroExtend _ ha d (List.mem_of_getElem? hd))
      (reached_zeroExtend _ hb e (List.mem_of_getElem? he))
  · cases hi

/-! Shifts. -/

theorem shiftLeft_le (n : Nat) (haa : a.Le a') : (a.shiftLeft n).Le (a'.shiftLeft n) := by
  obtain ⟨hw, hle⟩ := le_iff_getElem?.1 haa
  refine le_iff_getElem?.2 ⟨by rw [width_shiftLeft, width_shiftLeft, hw], fun i c c' hc hc' => ?_⟩
  obtain ⟨-, ⟨hn, rfl⟩ | ⟨hn, hc⟩⟩ := getElem?_shiftLeft.1 hc
  · obtain ⟨-, ⟨-, rfl⟩ | ⟨hn', -⟩⟩ := getElem?_shiftLeft.1 hc'
    · exact Bit.le_refl _
    · omega
  · obtain ⟨-, ⟨hn', -⟩ | ⟨-, hc'⟩⟩ := getElem?_shiftLeft.1 hc'
    · omega
    · exact hle _ c c' hc hc'

theorem shiftRight_le {c c' : Bit} (n : Nat) (haa : a.Le a') (hcc : c.Le c') :
    (a.shiftRight n c).Le (a'.shiftRight n c') := by
  obtain ⟨hw, hle⟩ := le_iff_getElem?.1 haa
  refine le_iff_getElem?.2 ⟨by rw [width_shiftRight, width_shiftRight, hw], fun i d d' hd hd' => ?_⟩
  obtain ⟨-, hd | ⟨hge, rfl⟩⟩ := getElem?_shiftRight.1 hd
  · obtain ⟨-, hd' | ⟨hge', -⟩⟩ := getElem?_shiftRight.1 hd'
    · exact hle _ d d' hd hd'
    · have := lt_width hd
      omega
  · obtain ⟨-, hd' | ⟨-, rfl⟩⟩ := getElem?_shiftRight.1 hd'
    · have := lt_width hd'
      omega
    · exact hcc

theorem shiftBy_le (op : BinaryOp) (n : Nat) (haa : a.Le a') : (shiftBy op a n).Le (shiftBy op a' n) := by
  simp only [shiftBy]
  split
  · exact shiftLeft_le n haa
  · exact shiftRight_le n haa (signBit_le haa)
  · exact shiftRight_le n haa (Bit.le_refl _)

theorem width_shiftBy (op : BinaryOp) (n : Nat) : (shiftBy op a n).width = a.width := by
  simp only [shiftBy]
  split
  · exact width_shiftLeft n
  · exact width_shiftRight n _
  · exact width_shiftRight n _

theorem reached_shiftBy (op : BinaryOp) (n : Nat) (ha : a.Reached) : (shiftBy op a n).Reached := by
  obtain ⟨x, hx⟩ := ha.exists_describes rfl
  simp only [shiftBy]
  split
  · exact (hx.shiftLeft n).reached
  · exact (hx.sshiftRight n).reached
  · exact (hx.ushiftRight n).reached

/-- A pattern that an operand of the analysis has: reached, and of a type that holds bits. -/
structure Solid (p : BitPattern) : Prop where
  reached : p.Reached
  pos : 0 < p.width

theorem Solid.of_le (ha : a.Solid) (haa : a.Le a') : a'.Solid :=
  ⟨haa.reached ha.reached, haa.width_eq ▸ ha.pos⟩

theorem Solid.unknown_eq (ha : a.Solid) (hb : b.Solid) (v : Nat) : unknown v a b = top v :=
  unknown_eq_top v ha.reached hb.reached ha.pos hb.pos

theorem width_shift (op : BinaryOp) : (shift op a b).width = a.width := by
  simp only [shift]
  split
  · simp only [unknown]
    split <;> simp [bottom, top]
  · exact width_shiftBy op _

/-- An unknown distance gives an unknown word, and above a known one there is only itself. -/
theorem shift_le (op : BinaryOp) (ha : a.Solid) (hb : b.Solid) (haa : a.Le a') (hbb : b.Le b') :
    (shift op a b).Le (shift op a' b') := by
  cases hraw : b'.toRaw with
  | none =>
    have hr : shift op a' b' = top (shift op a b).width := by
      rw [width_shift, shift, hraw, haa.width_eq]
      exact (ha.of_le haa).unknown_eq (hb.of_le hbb) _
    rw [hr]
    exact le_top _
  | some n =>
    rw [hbb.eq_of_toRaw hb.reached hraw]
    simp only [shift, hraw, haa.width_eq]
    exact shiftBy_le op _ haa

theorem reached_shift (op : BinaryOp) (ha : a.Solid) (hb : b.Solid) : (shift op a b).Reached := by
  simp only [shift]
  split
  · rw [ha.unknown_eq hb]
    exact reached_filled (by decide)
  · exact reached_shiftBy op _ ha.reached

/-! Division and comparison. -/

theorem Le.eq_of_toSigned {z : Int} (haa : a.Le a') (ha : a.Reached) (h : a'.toSigned = some z) :
    a = a' := by
  obtain ⟨n, hn, -⟩ := Option.map_eq_some_iff.1 h
  exact haa.eq_of_toRaw ha hn

theorem Solid.widen (ha : a.Solid) (hb : b.Solid) : (widen a b).1.Solid ∧ (widen a b).2.Solid := by
  have hpos : 0 < max a.width b.width := Nat.lt_of_lt_of_le ha.pos (Nat.le_max_left _ _)
  refine ⟨⟨reached_zeroExtend _ ha.reached, ?_⟩, ⟨reached_zeroExtend _ hb.reached, ?_⟩⟩
  · exact (width_resize a _ _).symm ▸ hpos
  · exact (width_resize b _ _).symm ▸ hpos

theorem width_divRem (op : BinaryOp) : (divRem op a b).width = (widen a b).1.width := by
  simp only [divRem]
  split
  · split <;> simp [top]
  · simp only [unknown]
    split <;> simp [bottom, top]

theorem divRem_le (op : BinaryOp) (ha : a.Solid) (hb : b.Solid) (haa : a.Le a') (hbb : b.Le b') :
    (divRem op a b).Le (divRem op a' b') := by
  have hA := widen_fst_le haa hbb
  have hB := widen_snd_le haa hbb
  obtain ⟨hsA, hsB⟩ := ha.widen hb
  by_cases hconst : ∃ x y, (widen a' b').1.toSigned = some x ∧ (widen a' b').2.toSigned = some y
  · obtain ⟨x, y, hx, hy⟩ := hconst
    have heq : widen a b = widen a' b' :=
      Prod.ext (hA.eq_of_toSigned hsA.reached hx) (hB.eq_of_toSigned hsB.reached hy)
    rw [divRem, divRem, heq]
    exact le_refl _
  · have hr : divRem op a' b' = top (divRem op a b).width := by
      rw [width_divRem, hA.width_eq, divRem]
      dsimp only
      split
      · rename_i x y hx hy
        exact absurd ⟨x, y, hx, hy⟩ hconst
      · exact (hsA.of_le hA).unknown_eq (hsB.of_le hB) _
    rw [hr]
    exact le_top _

theorem reached_divRem (op : BinaryOp) (ha : a.Solid) (hb : b.Solid) : (divRem op a b).Reached := by
  simp only [divRem]
  split
  · split
    · exact reached_filled (by decide)
    · exact reached_constant _ _
  · obtain ⟨hsA, hsB⟩ := ha.widen hb
    rw [hsA.unknown_eq hsB]
    exact reached_filled (by decide)

theorem compare_le (op : BinaryOp) (ha : a.Reached) (hb : b.Reached) (haa : a.Le a') (hbb : b.Le b') :
    (compare op a b).Le (compare op a' b') := by
  have hA := signExtend_le (max a.width b.width) haa
  have hB := signExtend_le (max a.width b.width) hbb
  obtain ⟨x, hx⟩ := ha.exists_describes rfl
  obtain ⟨y, hy⟩ := hb.exists_describes rfl
  by_cases hconst : ∃ m n, (a'.signExtend (max a.width b.width)).toSigned = some m ∧
      (b'.signExtend (max a.width b.width)).toSigned = some n
  · obtain ⟨m, n, hm, hn⟩ := hconst
    simp only [compare, ← haa.width_eq, ← hbb.width_eq, hA.eq_of_toSigned (reached_signExtend _ ha) hm,
      hB.eq_of_toSigned (reached_signExtend _ hb) hn]
    exact le_refl _
  · -- an undecided comparison describes the outcome of every other one
    have hr : compare op a' b' =
        if op.isRelational then ⟨.top :: List.replicate 31 .zero⟩ else top 32 := by
      simp only [compare, ← haa.width_eq, ← hbb.width_eq]
      split
      · rename_i m n hm hn
        exact absurd ⟨m, n, hm, hn⟩ hconst
      · rfl
    have hdesc := (hx.of_le haa).compare op (hy.of_le hbb)
    rw [hr] at hdesc ⊢
    simp only [compare]
    split
    · rename_i m n hm hn
      rw [← (hx.signExtend _).toInt_eq hm, ← (hy.signExtend _).toInt_eq hn,
        BitVec.toInt_signExtend_of_le (Nat.le_max_left _ _),
        BitVec.toInt_signExtend_of_le (Nat.le_max_right _ _)]
      exact ofBitVec_le hdesc
    · exact le_refl _

theorem reached_compare (op : BinaryOp) (ha : a.Reached) (hb : b.Reached) : (compare op a b).Reached := by
  obtain ⟨x, hx⟩ := ha.exists_describes rfl
  obtain ⟨y, hy⟩ := hb.exists_describes rfl
  exact (hx.compare op hy).reached

/-! Expressions. -/

theorem binary_le (op : BinaryOp) (ha : a.Solid) (hb : b.Solid) (haa : a.Le a') (hbb : b.Le b') :
    (binary op a b).Le (binary op a' b') := by
  cases op with
  | add => exact add_le haa hbb
  | sub => exact sub_le haa hbb
  | mul => exact mul_le ha.reached hb.reached haa hbb
  | div | rem => exact divRem_le _ ha hb haa hbb
  | and | or | xor => exact bitwise_le _ ha.reached hb.reached haa hbb
  | shl | shr | ushr => exact shift_le _ ha hb haa hbb
  | _ => exact compare_le _ ha.reached hb.reached haa hbb

theorem reached_binary (op : BinaryOp) (ha : a.Solid) (hb : b.Solid) : (binary op a b).Reached := by
  cases op with
  | add => exact reached_add ha.reached hb.reached
  | sub => exact reached_sub ha.reached hb.reached
  | mul => exact reached_mul ha.reached hb.reached
  | div | rem => exact reached_divRem _ ha hb
  | and | or | xor => exact reached_bitwise _ ha.reached hb.reached
  | shl | shr | ushr => exact reached_shift _ ha hb
  | _ => exact reached_compare _ ha.reached hb.reached

theorem cast_le (t : LocalType) (haa : a.Le a') : (a.cast t).Le (a'.cast t) := by
  cases t with
  | long => exact signExtend_le _ haa
  | int | boolean => exact zeroExtend_le _ haa
  | byte | short => exact signExtend_le _ (zeroExtend_le _ haa)
  | char => exact zeroExtend_le _ (zeroExtend_le _ haa)
  | float | double | reference => exact le_refl _

theorem reached_cast (t : LocalType) (ha : a.Reached) : (a.cast t).Reached := by
  cases t with
  | long => exact reached_signExtend _ ha
  | int | boolean => exact reached_zeroExtend _ ha
  | byte | short => exact reached_signExtend _ (reached_zeroExtend _ ha)
  | char => exact reached_zeroExtend _ (reached_zeroExtend _ ha)
  | float | double | reference => exact reached_filled (by decide)

/-- A pattern that grows gains rank. -/
theorem Le.rank_lt (h : a.Le b) (hne : a ≠ b) : a.rank < b.rank := by
  refine sum_map_lt (fun hbc => hbc.rank_lt) h fun heq => hne ?_
  cases a
  cases b
  exact congrArg BitPattern.mk heq

end BitPattern

namespace ConstantBits

/-- Every local has a pattern of the width of its type. -/
def Fitting (e : Env BitPattern) : Prop := e.All fun x v => v.width = x.type.bitWidth

theorem bitWidth_pos (t : LocalType) : 0 < t.bitWidth := by cases t <;> decide

variable {e f : Env BitPattern}

theorem operand_solid {x : Operand} {p : BitPattern} (hfit : Fitting e)
    (hreach : ∀ y ∈ x.local?.toList, ∀ v, e.get? y = some v → v.Reached) (h : operand e x = .ok p) :
    p.Solid := by
  have htop : ∀ {w : Nat}, 0 < w → (BitPattern.top w).Solid := fun hw =>
    ⟨BitPattern.reached_filled (by decide), (BitPattern.width_filled _ _).symm ▸ hw⟩
  have hword : ∀ {w : Nat} (v : BitVec w), 0 < w → (BitPattern.ofBitVec v).Solid := fun v hw =>
    ⟨(BitPattern.describes_ofBitVec v).reached, (BitPattern.width_ofBitVec v).symm ▸ hw⟩
  cases x with
  | read x =>
    cases h
    cases hv : e.get? x with
    | none => exact htop (bitWidth_pos x.type)
    | some v => exact ⟨hreach x (by simp [Operand.local?]) v hv, (hfit x v hv).symm ▸ bitWidth_pos x.type⟩
  | literal c =>
    cases c with
    | int v => cases h; exact hword v (by decide)
    | long v => cases h; exact hword v (by decide)
    | float _ => cases h; exact htop (by decide)
    | double _ => cases h; exact htop (by decide)
    | _ => cases h

theorem operand_le (hef : e.Below f) {x : Operand} {p q : BitPattern} (hp : operand e x = .ok p)
    (hq : operand f x = .ok q) : p.Le q := by
  cases x with
  | read x =>
    cases hp
    cases hq
    exact BitPattern.below_iff.1 (Env.below_getD hef x _)
  | literal c =>
    have hsame : operand e (.literal c) = operand f (.literal c) := by cases c <;> rfl
    rw [hsame, hq, Except.ok.injEq] at hp
    rw [hp]
    exact BitPattern.le_refl _

theorem evaluate_reached (hfit : Fitting e) (hreach : e.All fun _ => BitPattern.Reached) {width : Nat}
    {value : Expr} {p : BitPattern} (h : evaluate e width value = .ok p) : p.Reached := by
  have hsolid : ∀ {x a}, operand e x = .ok a → a.Solid := operand_solid hfit fun y _ => hreach y
  cases value with
  | operand x => exact (hsolid h).reached
  | binary op lhs rhs =>
    obtain ⟨a, ha, h⟩ := bind_eq_ok.1 h
    obtain ⟨b, hb, h⟩ := bind_eq_ok.1 h
    rw [← pure_eq_ok.1 h]
    exact BitPattern.reached_binary op (hsolid ha) (hsolid hb)
  | neg x =>
    obtain ⟨a, ha, h⟩ := bind_eq_ok.1 h
    rw [← pure_eq_ok.1 h]
    exact BitPattern.reached_neg (hsolid ha).reached
  | cast t x =>
    obtain ⟨a, ha, h⟩ := bind_eq_ok.1 h
    rw [← pure_eq_ok.1 h]
    exact BitPattern.reached_cast t (hsolid ha).reached
  | _ =>
    rw [← pure_eq_ok.1 h]
    exact BitPattern.reached_filled (by decide)

/-- An expression is monotone if the operands of its operator are solid. -/
theorem evaluate_le (hef : e.Below f) {width : Nat} {value : Expr} {p q : BitPattern}
    (hvalue : ∀ {op lhs rhs a b}, value = .binary op lhs rhs → operand e lhs = .ok a →
      operand e rhs = .ok b → a.Solid ∧ b.Solid)
    (hp : evaluate e width value = .ok p) (hq : evaluate f width value = .ok q) : p.Le q := by
  cases value with
  | operand x => exact operand_le hef hp hq
  | binary op lhs rhs =>
    obtain ⟨a, ha, hp⟩ := bind_eq_ok.1 hp
    obtain ⟨b, hb, hp⟩ := bind_eq_ok.1 hp
    obtain ⟨a', ha', hq⟩ := bind_eq_ok.1 hq
    obtain ⟨b', hb', hq⟩ := bind_eq_ok.1 hq
    rw [← pure_eq_ok.1 hp, ← pure_eq_ok.1 hq]
    obtain ⟨hsa, hsb⟩ := hvalue rfl ha hb
    exact BitPattern.binary_le op hsa hsb (operand_le hef ha ha') (operand_le hef hb hb')
  | neg x =>
    obtain ⟨a, ha, hp⟩ := bind_eq_ok.1 hp
    obtain ⟨a', ha', hq⟩ := bind_eq_ok.1 hq
    rw [← pure_eq_ok.1 hp, ← pure_eq_ok.1 hq]
    exact BitPattern.neg_le (operand_le hef ha ha')
  | cast t x =>
    obtain ⟨a, ha, hp⟩ := bind_eq_ok.1 hp
    obtain ⟨a', ha', hq⟩ := bind_eq_ok.1 hq
    rw [← pure_eq_ok.1 hp, ← pure_eq_ok.1 hq]
    exact BitPattern.cast_le t (operand_le hef ha ha')
  | _ =>
    rw [← pure_eq_ok.1 hp, ← pure_eq_ok.1 hq]
    exact BitPattern.le_refl _

/-- The pattern that an assignment gives its local. -/
def assigned (x : Local) (value : Expr) (e : Env BitPattern) : Except Fault BitPattern := do
  let v ← evaluate e x.type.bitWidth value
  return v.zeroExtend x.type.bitWidth

theorem assigned_below {x : Local} {value : Expr} {v u : BitPattern} (hef : e.Below f)
    (hvalue : ∀ {op lhs rhs a b}, value = .binary op lhs rhs → operand e lhs = .ok a →
      operand e rhs = .ok b → a.Solid ∧ b.Solid)
    (hv : assigned x value e = .ok v) (hu : assigned x value f = .ok u) : LatticeValue.Below v u := by
  obtain ⟨p, hp, hv⟩ := bind_eq_ok.1 hv
  obtain ⟨q, hq, hu⟩ := bind_eq_ok.1 hu
  rw [← pure_eq_ok.1 hv, ← pure_eq_ok.1 hu]
  exact BitPattern.below_iff.2 (BitPattern.zeroExtend_le _ (evaluate_le hef hvalue hp hq))

theorem transfer_assign (id : Nat) (x : Local) (value : Expr) (e : Env BitPattern) :
    transfer ⟨id, .assign (.var x) value⟩ e = e.assign x (assigned x value) := by
  simp only [transfer, Env.assign, assigned, bind_assoc, pure_bind]

/-- An instruction is refused, leaves the state, computes the pattern of one local, or makes a local
unknown. -/
theorem transfer_cases (s : Site) :
    (∃ f, ∀ e, transfer s e = .error f) ∨ (∀ e, transfer s e = .ok e) ∨
    (∃ x value, ∀ e, transfer s e = e.assign x (assigned x value)) ∨
    (∃ x, ∀ e, transfer s e = .ok (e.write x (.top x.type.bitWidth))) := by
  obtain ⟨id, i⟩ := s
  cases i with
  | assign target value =>
    cases target with
    | var x => exact .inr (.inr (.inl ⟨x, value, transfer_assign id x value⟩))
    | field base name => exact .inr (.inl fun e => rfl)
    | element base index => exact .inr (.inl fun e => rfl)
  | bind x origin => exact .inr (.inr (.inr ⟨x, fun e => rfl⟩))
  | lookupSwitch key => exact .inl ⟨_, fun e => rfl⟩
  | tableSwitch key => exact .inl ⟨_, fun e => rfl⟩
  | _ => exact .inr (.inl fun e => rfl)

theorem rank_le_height {x : Local} {v : BitPattern} (hv : v.width = x.type.bitWidth) :
    v.rank ≤ 2 * 64 := by
  have hle := v.rank_le
  have hwidth : x.type.bitWidth ≤ 64 := by cases x.type <;> decide
  omega

def lawful : analysis.Lawful where
  fits _ x v := v.width = x.type.bitWidth
  reached := BitPattern.Reached
  rank _ := BitPattern.rank
  fits_bottom _ := BitPattern.width_filled _ _
  fits_fresh _ := BitPattern.width_filled _ _
  reached_fresh := BitPattern.reached_filled (by decide)
  fits_join {n x v w} hv hw :=
    ⟨v.union w, BitPattern.join_eq_ok.2 ⟨hv.trans hw.symm, rfl⟩,
      (BitPattern.width_union (hv.trans hw.symm)).trans hv⟩
  bottom_below {n x v} hv := by
    refine BitPattern.below_iff.2 ?_
    simp only [analysis, ← hv]
    exact BitPattern.bottom_le v
  bottom_below_of_below {x v u} hvu hu := by
    have hw := (BitPattern.below_iff.1 hu).width_eq.trans (BitPattern.below_iff.1 hvu).width_eq.symm
    refine BitPattern.below_iff.2 ?_
    simp only [analysis, BitPattern.bottom, BitPattern.width_filled] at *
    rw [hw]
    exact BitPattern.bottom_le v
  reached_up hv h := (BitPattern.below_iff.1 h).reached hv
  fits_up _ hfit h := (BitPattern.below_iff.1 h).width_eq.symm.trans hfit
  rank_lt _ _ h hne := (BitPattern.below_iff.1 h).rank_lt hne
  rank_le := rank_le_height
  transfer_locals {n s e e'} h := by
    rcases transfer_cases s with ⟨f, hs⟩ | hs | ⟨x, value, hs⟩ | ⟨x, hs⟩ <;>
      simp only [analysis, hs, Except.ok.injEq, reduceCtorEq] at h
    · rw [h]
    · exact Env.locals_assign h
    · rw [← h, Env.locals_write]
  transfer_fits {n s e e'} he h := by
    rcases transfer_cases s with ⟨f, hs⟩ | hs | ⟨x, value, hs⟩ | ⟨x, hs⟩ <;>
      simp only [analysis, hs, Except.ok.injEq, reduceCtorEq] at h
    · rwa [← h]
    · refine Env.all_assign he (fun v hv => ?_) h
      obtain ⟨p, -, hp⟩ := bind_eq_ok.1 hv
      rw [← pure_eq_ok.1 hp]
      exact BitPattern.width_resize _ _ _
    · rw [← h]
      exact Env.all_write he (BitPattern.width_filled _ _)
  transfer_reached {n s e e'} hfit he h := by
    rcases transfer_cases s with ⟨f, hs⟩ | hs | ⟨x, value, hs⟩ | ⟨x, hs⟩ <;>
      simp only [analysis, hs, Except.ok.injEq, reduceCtorEq] at h
    · rwa [← h]
    · refine Env.all_assign he (fun v hv => ?_) h
      obtain ⟨p, hp, hv⟩ := bind_eq_ok.1 hv
      rw [← pure_eq_ok.1 hv]
      exact BitPattern.reached_zeroExtend _ (evaluate_reached hfit he hp)
    · rw [← h]
      exact Env.all_write he (BitPattern.reached_filled (by decide))
  transfer_mono {n s e e' f f'} hfit hreach hef h h' := by
    rcases transfer_cases s with ⟨f, hs⟩ | hs | ⟨x, value, hs⟩ | ⟨x, hs⟩ <;>
      simp only [analysis, hs, Except.ok.injEq, reduceCtorEq] at h h'
    · rwa [← h, ← h']
    · refine Env.below_assign hef (fun v u => assigned_below hef fun _ ha hb => ⟨?_, ?_⟩) h h'
      · exact operand_solid hfit (fun y _ => hreach y) ha
      · exact operand_solid hfit (fun y _ => hreach y) hb
    · rw [← h, ← h']
      exact Env.below_write hef (LawfulJoin.refl _)

end ConstantBits

namespace AnalysisKind

instance : (k : AnalysisKind) → LawfulJoin k.Value
  | .constantFolding => inferInstanceAs (LawfulJoin ConstValue)
  | .constantBits => inferInstanceAs (LawfulJoin BitPattern)
  | .reachingDefinitions => inferInstanceAs (LawfulJoin DefValue)
  | .taint => inferInstanceAs (LawfulJoin TaintValue)
  | .liveVariables => inferInstanceAs (LawfulJoin LiveValue)

/-- All five analyses are lawful. -/
def lawful : (k : AnalysisKind) → k.analysis.Lawful
  | .constantFolding => ConstantFolding.lawful
  | .constantBits => ConstantBits.lawful
  | .reachingDefinitions => ReachingDefinitions.lawful
  | .taint => Taint.lawful
  | .liveVariables => LiveVariables.lawful

end AnalysisKind

end FlowHistory
