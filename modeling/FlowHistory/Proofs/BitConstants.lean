import FlowHistory.Proofs.BitSoundness

/-!
# Known bits stay known

Every operation on patterns whose bits are all known gives such a pattern again; only a division by zero
does not. A pattern of known bits that describes a word is the pattern of that word, so on known operands
each operation computes exactly the word that the executions compute.
-/
namespace FlowHistory

/-- Words that are divided have one width, and the divisor is not zero. -/
theorem Word.alike_of_division {op : BinaryOp} {a b c : Word} (hop : op = .div ∨ op = .rem)
    (h : a.binary? op b = some c) : ∃ (w : Nat) (x y : BitVec w), a = ⟨w, x⟩ ∧ b = ⟨w, y⟩ ∧ y ≠ 0 := by
  rcases hop with rfl | rfl
  all_goals
    simp only [binary?] at h
    obtain ⟨w, x, y, z, rfl, rfl, hz, -⟩ := alike?_eq_some h
    exact ⟨w, x, y, rfl, rfl, fun hy => by simp [hy] at hz⟩

namespace BitPattern

variable {p q : BitPattern} {w : Nat} {x : BitVec w}

theorem isConstant_iff : p.isConstant = true ↔ ∀ b ∈ p.bits, b.isSpecial = false := by
  simp [isConstant]

theorem rawOf_of_known {l : List Bit} (h : ∀ b ∈ l, b.isSpecial = false) : ∃ n, rawOf l = some n := by
  have hknown : ∀ b : Bit, b.isSpecial = false → ∃ v, b.known? = some v := by decide
  induction l with
  | nil => exact ⟨0, rfl⟩
  | cons b r ih =>
    rw [List.forall_mem_cons] at h
    obtain ⟨v, hv⟩ := hknown b h.1
    obtain ⟨n, hn⟩ := ih h.2
    exact ⟨v.toNat + 2 * n, by rw [rawOf, hv, hn]; rfl⟩

theorem exists_toRaw (h : p.isConstant = true) : ∃ n, p.toRaw = some n :=
  rawOf_of_known (isConstant_iff.1 h)

theorem exists_toSigned (h : p.isConstant = true) : ∃ z, p.toSigned = some z := by
  obtain ⟨n, hn⟩ := exists_toRaw h
  exact ⟨_, by rw [toSigned, hn]; rfl⟩

/-- A pattern of known bits is the pattern of the word that it describes. -/
theorem Describes.eq_ofBitVec (h : p.Describes x) (hp : p.isConstant = true) : p = ofBitVec x := by
  obtain ⟨n, hn⟩ := exists_toRaw hp
  exact ((ofBitVec_le h).eq_of_toRaw (describes_ofBitVec x).reached hn).symm

theorem isConstant_ofBitVec (x : BitVec w) : (ofBitVec x).isConstant = true := by
  have hbool : ∀ v : Bool, (Bit.ofBool v).isSpecial = false := by decide
  simp [isConstant_iff, ofBitVec, hbool]

theorem toRaw_ofBitVec (x : BitVec w) : (ofBitVec x).toRaw = some x.toNat := by
  obtain ⟨n, hn⟩ := exists_toRaw (isConstant_ofBitVec x)
  rw [hn, (describes_ofBitVec x).toNat_eq hn]

theorem toSigned_ofBitVec (x : BitVec w) : (ofBitVec x).toSigned = some x.toInt := by
  obtain ⟨n, hn⟩ := exists_toSigned (isConstant_ofBitVec x)
  rw [hn, (describes_ofBitVec x).toInt_eq hn]

/-- Nothing but the bottom is strictly below the pattern of a word. -/
theorem eq_ofBitVec_of_le (h : p.Le (ofBitVec x)) (hp : p.Reached) : p = ofBitVec x := by
  obtain ⟨n, hn⟩ := exists_toRaw (isConstant_ofBitVec x)
  exact h.eq_of_toRaw hp hn

theorem zero_eq_constant (w : Nat) : zero w = constant 0 w := by
  have hzero : (zero w).isConstant = true := by simp [isConstant_iff, zero, filled, Bit.isSpecial]
  rw [(describes_zero w).eq_ofBitVec hzero, constant, BitVec.ofInt_ofNat]

theorem isConstant_map_not (hp : p.isConstant = true) : (p.map Bit.not).isConstant = true := by
  have hnot : ∀ b : Bit, b.isSpecial = false → b.not.isSpecial = false := by decide
  rw [isConstant_iff, map, List.forall_mem_map]
  exact fun b hb => hnot b (isConstant_iff.1 hp b hb)

theorem isConstant_resize {b : Bit} (hp : p.isConstant = true) (hb : b.isSpecial = false) (v : Nat) :
    (p.resize v b).isConstant = true := by
  rw [isConstant_iff, resize, List.forall_mem_append]
  refine ⟨fun c hc => isConstant_iff.1 hp c (List.mem_of_mem_take hc), fun c hc => ?_⟩
  rw [List.eq_of_mem_replicate hc]
  exact hb

theorem isSpecial_signBit (hp : p.isConstant = true) : p.signBit.isSpecial = false := by
  rw [signBit]
  cases h : p.bits.getLast? with
  | none => rfl
  | some b => exact isConstant_iff.1 hp b (List.mem_of_getLast? h)

theorem isConstant_zeroExtend (hp : p.isConstant = true) (v : Nat) :
    (p.zeroExtend v).isConstant = true := isConstant_resize hp rfl v

theorem isConstant_signExtend (hp : p.isConstant = true) (v : Nat) :
    (p.signExtend v).isConstant = true := isConstant_resize hp (isSpecial_signBit hp) v

/-- Known bits and a known carry give known sums, and a known carry for the next position. -/
theorem known_ripple {c : Bit} {xs ys : List Bit} (hc : c.isSpecial = false)
    (hx : ∀ b ∈ xs, b.isSpecial = false) (hy : ∀ b ∈ ys, b.isSpecial = false) :
    ∀ b ∈ ripple c xs ys, b.isSpecial = false := by
  have hsum : ∀ x y z : Bit, x.isSpecial = false → y.isSpecial = false → z.isSpecial = false →
      (sumBit x y z).isSpecial = false := by decide
  have hcarry : ∀ x y z : Bit, x.isSpecial = false → y.isSpecial = false → z.isSpecial = false →
      (carry x y z).isSpecial = false := by decide
  induction xs generalizing c ys with
  | nil => simp [ripple]
  | cons x xs ih =>
    cases ys with
    | nil => simp [ripple]
    | cons y ys =>
      rw [List.forall_mem_cons] at hx hy
      rw [ripple, List.forall_mem_cons]
      exact ⟨hsum x y c hx.1 hy.1 hc, ih (hcarry x y c hx.1 hy.1 hc) hx.2 hy.2⟩

theorem isConstant_addWithCarry {c : Bit} (hp : p.isConstant = true) (hq : q.isConstant = true)
    (hc : c.isSpecial = false) : (addWithCarry p q c).isConstant = true :=
  isConstant_iff.2 (known_ripple hc (isConstant_iff.1 hp) (isConstant_iff.1 hq))

theorem isConstant_add (hp : p.isConstant = true) (hq : q.isConstant = true) :
    (p.add q).isConstant = true :=
  isConstant_addWithCarry (isConstant_zeroExtend hp _) (isConstant_zeroExtend hq _) rfl

theorem isConstant_sub (hp : p.isConstant = true) (hq : q.isConstant = true) :
    (p.sub q).isConstant = true :=
  isConstant_addWithCarry (isConstant_zeroExtend hp _) (isConstant_map_not (isConstant_zeroExtend hq _)) rfl

theorem isConstant_neg (hp : p.isConstant = true) : p.neg.isConstant = true :=
  isConstant_add (isConstant_map_not hp) (isConstant_ofBitVec _)

theorem isConstant_mul (hp : p.isConstant = true) (hq : q.isConstant = true) :
    (p.mul q).isConstant = true := by
  obtain ⟨m, hm⟩ := exists_toRaw (isConstant_zeroExtend hp (max p.width q.width))
  obtain ⟨n, hn⟩ := exists_toRaw (isConstant_zeroExtend hq (max p.width q.width))
  simp only [mul, widen, hm, hn]
  exact isConstant_ofBitVec _

theorem isConstant_divRem {op : BinaryOp} (hp : p.isConstant = true) (hq : q.isConstant = true)
    (hzero : (p.widen q).2.toSigned ≠ some 0) : (divRem op p q).isConstant = true := by
  obtain ⟨x, hx⟩ := exists_toSigned (isConstant_zeroExtend hp (max p.width q.width))
  obtain ⟨y, hy⟩ := exists_toSigned (isConstant_zeroExtend hq (max p.width q.width))
  have hne : y ≠ 0 := by
    rintro rfl
    exact hzero hy
  simp only [divRem, widen, hx, hy, if_neg hne]
  exact isConstant_ofBitVec _

theorem isConstant_bitwise (op : BinaryOp) (hp : p.isConstant = true) (hq : q.isConstant = true) :
    (bitwise op p q).isConstant = true := by
  have hbit : ∀ x y : Bit, x.isSpecial = false → y.isSpecial = false →
      (bitwiseBit op x y).isSpecial = false := by
    cases op <;> decide
  rw [isConstant_iff]
  intro b hb
  obtain ⟨i, hi⟩ := List.mem_iff_getElem?.1 hb
  obtain ⟨x, y, hx, hy, rfl⟩ := List.getElem?_zipWith_eq_some.1 hi
  have hx' := isConstant_iff.1 (isConstant_zeroExtend hp _) x (List.mem_of_getElem? hx)
  have hy' := isConstant_iff.1 (isConstant_zeroExtend hq _) y (List.mem_of_getElem? hy)
  exact hbit x y hx' hy'

theorem isConstant_shiftLeft (hp : p.isConstant = true) (n : Nat) : (p.shiftLeft n).isConstant = true := by
  rw [isConstant_iff]
  intro b hb
  rcases List.mem_append.1 (List.mem_of_mem_take hb) with hb | hb
  · rw [List.eq_of_mem_replicate hb]
    rfl
  · exact isConstant_iff.1 hp b hb

theorem isConstant_shiftRight {c : Bit} (hp : p.isConstant = true) (hc : c.isSpecial = false) (n : Nat) :
    (p.shiftRight n c).isConstant = true := by
  rw [isConstant_iff]
  intro b hb
  rcases List.mem_append.1 hb with hb | hb
  · exact isConstant_iff.1 hp b (List.mem_of_mem_drop hb)
  · rw [List.eq_of_mem_replicate hb]
    exact hc

theorem isConstant_shift (op : BinaryOp) (hp : p.isConstant = true) (hq : q.isConstant = true) :
    (shift op p q).isConstant = true := by
  obtain ⟨n, hn⟩ := exists_toRaw hq
  simp only [shift, hn]
  cases op with
  | shl => exact isConstant_shiftLeft hp _
  | shr => exact isConstant_shiftRight hp (isSpecial_signBit hp) _
  | _ => exact isConstant_shiftRight hp rfl _

theorem isConstant_compare (op : BinaryOp) (hp : p.isConstant = true) (hq : q.isConstant = true) :
    (compare op p q).isConstant = true := by
  obtain ⟨x, hx⟩ := exists_toSigned (isConstant_signExtend hp (max p.width q.width))
  obtain ⟨y, hy⟩ := exists_toSigned (isConstant_signExtend hq (max p.width q.width))
  simp only [compare, hx, hy]
  exact isConstant_ofBitVec _

theorem isConstant_binary {op : BinaryOp} (hp : p.isConstant = true) (hq : q.isConstant = true)
    (hzero : op = .div ∨ op = .rem → (p.widen q).2.toSigned ≠ some 0) :
    (binary op p q).isConstant = true := by
  cases op with
  | add => exact isConstant_add hp hq
  | sub => exact isConstant_sub hp hq
  | mul => exact isConstant_mul hp hq
  | div | rem => exact isConstant_divRem hp hq (hzero (by simp))
  | and | or | xor => exact isConstant_bitwise _ hp hq
  | shl | shr | ushr => exact isConstant_shift _ hp hq
  | cmp | cmpl | cmpg | eq | ne | lt | le | gt | ge => exact isConstant_compare _ hp hq

theorem isConstant_cast {t : LocalType} (hp : p.isConstant = true) (ht : t.isIntegral = true) :
    (p.cast t).isConstant = true := by
  cases t with
  | long => exact isConstant_signExtend hp 64
  | int | boolean => exact isConstant_zeroExtend hp 32
  | byte => exact isConstant_signExtend (isConstant_zeroExtend hp 8) 32
  | short => exact isConstant_signExtend (isConstant_zeroExtend hp 16) 32
  | char => exact isConstant_zeroExtend (isConstant_zeroExtend hp 16) 32
  | float | double | reference => cases ht

/-! On the patterns of words the operations are those of words. -/

variable {a b c : Word}

theorem binary_ofBitVec {op : BinaryOp} (hwa : a.width = 32 ∨ a.width = 64)
    (hwb : b.width = 32 ∨ b.width = 64) (h : a.binary? op b = some c) :
    binary op (ofBitVec a.value) (ofBitVec b.value) = ofBitVec c.value := by
  have hp := describes_ofBitVec a.value
  have hq := describes_ofBitVec b.value
  refine (hp.binary hwa hwb hq h).eq_ofBitVec
    (isConstant_binary (isConstant_ofBitVec _) (isConstant_ofBitVec _) fun hop hzero => ?_)
  obtain ⟨w, x, y, rfl, rfl, hy⟩ := Word.alike_of_division hop h
  rw [hp.widen_eq hq] at hzero
  exact hy (BitVec.eq_of_toInt_eq ((hq.toInt_eq hzero).trans BitVec.toInt_zero.symm))

theorem neg_ofBitVec (x : BitVec w) : (ofBitVec x).neg = ofBitVec (-x) :=
  (describes_ofBitVec x).neg.eq_ofBitVec (isConstant_neg (isConstant_ofBitVec x))

theorem cast_ofBitVec {t : LocalType} (h : a.cast? t = some c) :
    (ofBitVec a.value).cast t = ofBitVec c.value := by
  refine ((describes_ofBitVec a.value).cast h).eq_ofBitVec (isConstant_cast (isConstant_ofBitVec _) ?_)
  cases t with
  | float | double | reference => cases h
  | _ => rfl

end BitPattern

end FlowHistory
