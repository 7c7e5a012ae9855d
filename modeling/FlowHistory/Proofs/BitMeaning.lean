import FlowHistory.Bits.Arithmetic
import FlowHistory.Proofs.BitOrder
import Mathlib.Algebra.Group.Nat.Defs
import Mathlib.Data.Nat.Init

/-!
# The words that a pattern describes

A known bit stands for its value and `⊤` for both; `⊥` stands for none. Each operation on patterns is
sound: if its operands describe two words, the result describes the word that the operation computes
from them. Products have a module of their own.
-/
namespace FlowHistory

namespace Bit

/-- The bit may have the value. -/
def Admits (b : Bit) (v : Bool) : Prop := b = .top ∨ b = ofBool v

instance (b : Bit) (v : Bool) : Decidable (b.Admits v) :=
  inferInstanceAs (Decidable (b = .top ∨ b = ofBool v))

theorem admits_top (v : Bool) : Bit.top.Admits v := .inl rfl

theorem admits_ofBool (v : Bool) : (ofBool v).Admits v := .inr rfl

theorem admits_zero : Bit.zero.Admits false := admits_ofBool false

theorem admits_ofBool_iff : ∀ {u v : Bool}, (ofBool u).Admits v ↔ u = v := by decide

/-- A bit is below another if that one admits all values it admits. -/
theorem le_iff_admits : ∀ {b c : Bit}, b.Le c ↔ ∀ v, b.Admits v → c.Admits v := by decide

theorem Admits.ne_bottom : ∀ {b : Bit} {v : Bool}, b.Admits v → b ≠ .bottom := by decide

theorem admits_known : ∀ {b : Bit}, b ≠ .bottom → b.Admits (b.known?.getD false) := by decide

theorem mem_choices : ∀ {b : Bit} {v : Bool}, b ≠ .bottom → (v ∈ b.choices ↔ b.Admits v) := by decide

theorem Admits.not : ∀ {b : Bit} {v : Bool}, b.Admits v → b.not.Admits (!v) := by decide

theorem admits_join : ∀ {b c : Bit} {v : Bool}, (b.join c).Admits v ↔ b.Admits v ∨ c.Admits v := by
  decide

end Bit

namespace BitPattern

/-- The word has the width of the pattern, and all its bits have values that the pattern admits. -/
structure Describes (p : BitPattern) {w : Nat} (x : BitVec w) : Prop where
  width_eq : p.width = w
  admits : ∀ (i : Nat) (b : Bit), p.bits[i]? = some b → b.Admits (x.getLsbD i)

variable {p q a b : BitPattern} {w : Nat} {x y : BitVec w}

theorem lt_width {i : Nat} {c : Bit} (h : p.bits[i]? = some c) : i < p.width :=
  (List.getElem?_eq_some_iff.1 h).1

theorem exists_bit {i : Nat} (h : i < p.width) : ∃ c, p.bits[i]? = some c :=
  ⟨_, List.getElem?_eq_getElem h⟩

/-- What grows describes more words. -/
theorem Describes.of_le (hp : p.Describes x) (h : p.Le q) : q.Describes x := by
  obtain ⟨hw, hle⟩ := le_iff_getElem?.1 h
  refine ⟨hw.symm.trans hp.width_eq, fun i c hc => ?_⟩
  obtain ⟨b, hb⟩ := exists_bit (hw ▸ lt_width hc)
  exact Bit.le_iff_admits.1 (hle i b c hb hc) _ (hp.admits i b hb)

theorem Describes.reached (hp : p.Describes x) : p.Reached := by
  intro b hb
  obtain ⟨i, hi⟩ := List.mem_iff_getElem?.1 hb
  exact (hp.admits i b hi).ne_bottom

/-- A reached pattern describes some word, and at any one position of it the value can be chosen
among those that the pattern admits there. -/
theorem exists_describes (hp : p.Reached) (hw : p.width = w) {i : Nat} {v : Bool}
    (hv : ∀ b, p.bits[i]? = some b → b.Admits v) :
    ∃ x : BitVec w, p.Describes x ∧ (i < w → x.getLsbD i = v) := by
  let f : Fin w → Bool := fun j => if j.1 = i then v else (p.bits[j.1]?.bind Bit.known?).getD false
  have hf : ∀ (j : Nat) (hj : j < w), (BitVec.ofNat w (Nat.ofBits f)).getLsbD j = f ⟨j, hj⟩ := by
    intro j hj
    rw [BitVec.getLsbD_ofNat, Nat.testBit_ofBits_lt f j hj]
    simp [hj]
  refine ⟨BitVec.ofNat w (Nat.ofBits f), ⟨hw, fun j b hb => ?_⟩, fun hi => ?_⟩
  · rw [hf j (hw ▸ lt_width hb)]
    by_cases hji : j = i
    · subst hji
      simpa [f] using hv b hb
    · simpa [f, hji, hb] using Bit.admits_known (hp b (List.mem_of_getElem? hb))
  · simp [hf i hi, f]

theorem Reached.exists_describes (hp : p.Reached) (hw : p.width = w) : ∃ x : BitVec w, p.Describes x := by
  have hnone : ∀ b, p.bits[p.width]? = some b → b.Admits true := fun b hb =>
    absurd (lt_width hb) (Nat.lt_irrefl _)
  obtain ⟨x, hx, -⟩ := BitPattern.exists_describes hp hw hnone
  exact ⟨x, hx⟩

/-- A pattern is below another of its width if each value of each of its bits occurs in a word that
the other describes. -/
theorem le_of_attained (hw : p.width = q.width)
    (h : ∀ (i : Nat) (b : Bit) (v : Bool), p.bits[i]? = some b → b.Admits v →
      ∃ z : BitVec q.width, q.Describes z ∧ z.getLsbD i = v) : p.Le q := by
  refine le_iff_getElem?.2 ⟨hw, fun i b c hb hc => Bit.le_iff_admits.2 fun v hv => ?_⟩
  obtain ⟨z, hz, rfl⟩ := h i b v hb hv
  exact hz.admits i c hc

/-! Constants. -/

theorem getElem?_ofBitVec {i : Nat} {b : Bit} :
    (ofBitVec x).bits[i]? = some b ↔ i < w ∧ b = Bit.ofBool (x.getLsbD i) := by
  by_cases hi : i < w
  · simp [ofBitVec, hi, eq_comm]
  · simp [ofBitVec, hi]

theorem describes_ofBitVec (x : BitVec w) : (ofBitVec x).Describes x := by
  refine ⟨width_ofBitVec x, fun i b hb => ?_⟩
  rw [(getElem?_ofBitVec.1 hb).2]
  exact Bit.admits_ofBool _

theorem ofBitVec_le (h : p.Describes x) : (ofBitVec x).Le p := by
  refine le_iff_getElem?.2 ⟨(width_ofBitVec x).trans h.width_eq.symm, fun i b c hb hc => ?_⟩
  rw [(getElem?_ofBitVec.1 hb).2, Bit.le_iff_admits]
  intro v hv
  rw [← Bit.admits_ofBool_iff.1 hv]
  exact h.admits i c hc

theorem getElem?_filled {i : Nat} {b c : Bit} : (filled w c).bits[i]? = some b ↔ i < w ∧ b = c := by
  simp [filled, List.getElem?_replicate, eq_comm]

theorem describes_top (x : BitVec w) : (top w).Describes x := by
  refine ⟨width_filled w _, fun i b hb => ?_⟩
  rw [(getElem?_filled.1 hb).2]
  exact Bit.admits_top _

theorem describes_zero (w : Nat) : (zero w).Describes (0#w) := by
  refine ⟨width_filled w _, fun i b hb => ?_⟩
  rw [(getElem?_filled.1 hb).2, BitVec.getLsbD_zero]
  exact Bit.admits_zero

theorem rawOf_eq_some {l : List Bit} {n : Nat} (h : rawOf l = some n) :
    n < 2 ^ l.length ∧ ∀ (i : Nat) (b : Bit), l[i]? = some b → b = Bit.ofBool (n.testBit i) := by
  induction l generalizing n with
  | nil =>
    cases h
    simp
  | cons c r ih =>
    simp only [rawOf, Option.bind_eq_bind, Option.bind_eq_some_iff, Option.pure_def,
      Option.some.injEq] at h
    obtain ⟨low, hlow, high, hhigh, rfl⟩ := h
    obtain ⟨hlt, hbits⟩ := ih hhigh
    have hlow' : low.toNat < 2 := Bool.toNat_lt low
    refine ⟨by rw [List.length_cons, Nat.pow_succ]; omega, fun i b hb => ?_⟩
    cases i with
    | zero =>
      cases hb
      have hmod : (low.toNat + 2 * high) % 2 = low.toNat := by omega
      rw [Nat.testBit_zero, hmod]
      cases c <;> cases hlow <;> rfl
    | succ i =>
      have hdiv : (low.toNat + 2 * high) / 2 = high := by omega
      rw [Nat.testBit_succ, hdiv]
      exact hbits i b (by simpa using hb)

/-- The bits of a constant pattern are those of its number. -/
theorem eq_ofBitVec_of_toRaw {n : Nat} (h : p.toRaw = some n) : p = ofBitVec (BitVec.ofNat p.width n) := by
  obtain ⟨-, hbits⟩ := rawOf_eq_some h
  have : p.bits = (ofBitVec (BitVec.ofNat p.width n)).bits := by
    refine List.ext_getElem? fun i => ?_
    by_cases hi : i < p.width
    · obtain ⟨b, hb⟩ := exists_bit hi
      rw [hb, hbits i b hb, eq_comm, getElem?_ofBitVec, BitVec.getLsbD_ofNat]
      simp [hi]
    · rw [List.getElem?_eq_none (Nat.le_of_not_lt hi)]
      simp [ofBitVec, hi]
  cases p
  exact congrArg BitPattern.mk this

theorem toRaw_lt {n : Nat} (h : p.toRaw = some n) : n < 2 ^ p.width := (rawOf_eq_some h).1

/-- A constant pattern describes one word only. -/
theorem Describes.eq_ofNat {n : Nat} (hp : p.Describes x) (h : p.toRaw = some n) : x = BitVec.ofNat w n := by
  obtain ⟨-, hbits⟩ := rawOf_eq_some h
  refine BitVec.eq_of_getLsbD_eq fun i hi => ?_
  obtain ⟨b, hb⟩ := exists_bit (hp.width_eq ▸ hi)
  have hadm := hp.admits i b hb
  rw [hbits i b hb, Bit.admits_ofBool_iff] at hadm
  rw [BitVec.getLsbD_ofNat, ← hadm]
  simp [hi]

theorem Describes.toNat_eq {n : Nat} (hp : p.Describes x) (h : p.toRaw = some n) : x.toNat = n := by
  have hlt := toRaw_lt h
  rw [hp.width_eq] at hlt
  rw [hp.eq_ofNat h, BitVec.toNat_ofNat, Nat.mod_eq_of_lt hlt]

theorem Describes.toInt_eq {z : Int} (hp : p.Describes x) (h : p.toSigned = some z) : x.toInt = z := by
  obtain ⟨n, hn, rfl⟩ := Option.map_eq_some_iff.1 h
  have hw := hp.width_eq
  subst hw
  rw [hp.eq_ofNat hn]

/-! Extension and truncation. -/

theorem getElem?_resize {v i : Nat} {fill c : Bit} :
    (p.resize v fill).bits[i]? = some c ↔
      i < v ∧ (p.bits[i]? = some c ∨ p.width ≤ i ∧ c = fill) := by
  simp only [resize, width]
  by_cases hv : i < v
  · by_cases hi : i < p.bits.length
    · rw [List.getElem?_append_left (by simp; omega), List.getElem?_take_of_lt hv]
      simp only [hv, true_and, Nat.not_le.2 hi, false_and, or_false]
    · have hlen : (p.bits.take v).length = p.bits.length := by simp; omega
      rw [List.getElem?_append_right (by omega), hlen, List.getElem?_replicate,
        if_pos (by omega), List.getElem?_eq_none (Nat.le_of_not_lt hi)]
      simp [hv, Nat.le_of_not_lt hi, eq_comm]
  · rw [List.getElem?_eq_none (by simp; omega)]
    simp [hv]

theorem resize_self (c : Bit) : p.resize p.width c = p := by
  simp [resize, width]

theorem widen_of_width_eq (h : a.width = b.width) : widen a b = (a, b) := by
  have ha : a.zeroExtend a.width = a := resize_self _
  have hb : b.zeroExtend b.width = b := resize_self _
  rw [widen, ← h, Nat.max_self, ha, h, hb]

theorem Describes.zeroExtend (hp : p.Describes x) (v : Nat) :
    (p.zeroExtend v).Describes (x.setWidth v) := by
  refine ⟨width_resize p v _, fun i c hc => ?_⟩
  obtain ⟨hi, hc | ⟨hge, rfl⟩⟩ := getElem?_resize.1 hc
  · simpa [BitVec.getLsbD_setWidth, hi] using hp.admits i c hc
  · rw [BitVec.getLsbD_setWidth, BitVec.getLsbD_of_ge x i (hp.width_eq ▸ hge), Bool.and_false]
    exact Bit.admits_zero

theorem Describes.signBit (hp : p.Describes x) : p.signBit.Admits x.msb := by
  rw [BitVec.msb_eq_getLsbD_last, BitPattern.signBit, List.getLast?_eq_getElem?]
  have hw : p.bits.length = w := hp.width_eq
  rw [hw]
  cases hc : p.bits[w - 1]? with
  | none =>
    have := List.getElem?_eq_none_iff.1 hc
    rw [BitVec.getLsbD_of_ge x _ (by omega)]
    exact Bit.admits_zero
  | some c => exact hp.admits _ c hc

theorem Describes.signExtend (hp : p.Describes x) (v : Nat) :
    (p.signExtend v).Describes (x.signExtend v) := by
  refine ⟨width_resize p v _, fun i c hc => ?_⟩
  obtain ⟨hi, hc | ⟨hge, rfl⟩⟩ := getElem?_resize.1 hc
  · have hlt := lt_width hc
    rw [hp.width_eq] at hlt
    rw [BitVec.getLsbD_signExtend, if_pos hlt, decide_eq_true hi, Bool.true_and]
    exact hp.admits i c hc
  · rw [hp.width_eq] at hge
    rw [BitVec.getLsbD_signExtend, if_neg (Nat.not_lt.2 hge), decide_eq_true hi, Bool.true_and]
    exact hp.signBit

/-! Addition and subtraction. -/

theorem admits_sumBit : ∀ {x y z : Bit} {p q r : Bool}, x.Admits p → y.Admits q → z.Admits r →
    (sumBit x y z).Admits (p ^^ (q ^^ r)) := by
  decide

theorem admits_carry : ∀ {x y z : Bit} {p q r : Bool}, x.Admits p → y.Admits q → z.Admits r →
    (carry x y z).Admits (p.atLeastTwo q r) := by
  decide

/-- From position `k` on, the rippled bits admit the bits of the sum. -/
theorem admits_ripple (x y : BitVec w) (v : Bool) (xs ys : List Bit) (c : Bit) (k : Nat)
    (hx : ∀ (i : Nat) (b : Bit), xs[i]? = some b → b.Admits (x.getLsbD (k + i)))
    (hy : ∀ (i : Nat) (b : Bit), ys[i]? = some b → b.Admits (y.getLsbD (k + i)))
    (hc : c.Admits (BitVec.carry k x y v)) (i : Nat) (b : Bit) (hb : (ripple c xs ys)[i]? = some b) :
    b.Admits (x.getLsbD (k + i) ^^ (y.getLsbD (k + i) ^^ BitVec.carry (k + i) x y v)) := by
  induction xs generalizing ys c k i with
  | nil => simp [ripple] at hb
  | cons x₀ xs ih =>
    cases ys with
    | nil => simp [ripple] at hb
    | cons y₀ ys =>
      have hx₀ := hx 0 x₀ rfl
      have hy₀ := hy 0 y₀ rfl
      cases i with
      | zero =>
        cases hb
        exact admits_sumBit hx₀ hy₀ hc
      | succ i =>
        have hcarry : (carry x₀ y₀ c).Admits (BitVec.carry (k + 1) x y v) := by
          rw [BitVec.carry_succ]
          exact admits_carry hx₀ hy₀ hc
        have hshift : ∀ j, k + 1 + j = k + (j + 1) := by omega
        rw [← hshift i]
        refine ih ys _ (k + 1) (fun j b hj => ?_) (fun j b hj => ?_) hcarry i (by simpa [ripple] using hb)
        · rw [hshift]
          exact hx (j + 1) b (by simpa using hj)
        · rw [hshift]
          exact hy (j + 1) b (by simpa using hj)

theorem length_ripple (c : Bit) (xs ys : List Bit) :
    (ripple c xs ys).length = min xs.length ys.length := by
  induction xs generalizing c ys with
  | nil => simp [ripple]
  | cons x xs ih =>
    cases ys with
    | nil => simp [ripple]
    | cons y ys => simp [ripple, ih]

theorem width_addWithCarry (c : Bit) : (addWithCarry a b c).width = min a.width b.width :=
  length_ripple c a.bits b.bits

theorem Describes.addWithCarry {c : Bit} {v : Bool} (ha : a.Describes x) (hb : b.Describes y)
    (hc : c.Admits v) :
    (addWithCarry a b c).Describes (x + y + BitVec.setWidth w (BitVec.ofBool v)) := by
  have hw : (a.addWithCarry b c).width = w := by
    rw [width_addWithCarry, ha.width_eq, hb.width_eq, Nat.min_self]
  refine ⟨hw, fun i d hd => ?_⟩
  rw [BitVec.getLsbD_add_add_bool (hw ▸ lt_width hd)]
  have := admits_ripple x y v a.bits b.bits c 0 (by simpa using ha.admits) (by simpa using hb.admits)
    (by rwa [BitVec.carry_zero]) i d hd
  simpa using this

theorem Describes.widen_eq (ha : a.Describes x) (hb : b.Describes y) : widen a b = (a, b) :=
  widen_of_width_eq (ha.width_eq.trans hb.width_eq.symm)

theorem Describes.add (ha : a.Describes x) (hb : b.Describes y) : (a.add b).Describes (x + y) := by
  rw [BitPattern.add, ha.widen_eq hb]
  simpa using ha.addWithCarry hb Bit.admits_zero

theorem Describes.not (ha : a.Describes x) : (a.map Bit.not).Describes (~~~x) := by
  refine ⟨(width_map _ a).trans ha.width_eq, fun i d hd => ?_⟩
  obtain ⟨c, hc, rfl⟩ : ∃ c, a.bits[i]? = some c ∧ c.not = d := by simpa [map] using hd
  have hi : i < w := ha.width_eq ▸ lt_width hc
  simpa [BitVec.getLsbD_not, hi] using (ha.admits i c hc).not

theorem setWidth_ofBool_true : BitVec.setWidth w (BitVec.ofBool true) = 1#w := by
  exact BitVec.eq_of_toNat_eq (by simp)

theorem Describes.sub (ha : a.Describes x) (hb : b.Describes y) : (a.sub b).Describes (x - y) := by
  have h := ha.addWithCarry hb.not (Bit.admits_ofBool true)
  rw [setWidth_ofBool_true, BitVec.add_assoc, ← BitVec.neg_eq_not_add, ← BitVec.sub_eq_add_neg] at h
  rw [BitPattern.sub, ha.widen_eq hb]
  exact h

theorem Describes.neg (ha : a.Describes x) : a.neg.Describes (-x) := by
  have hone : (constant 1 a.width).Describes (1#w) := by
    rw [ha.width_eq]
    exact describes_ofBitVec _
  rw [BitVec.neg_eq_not_add]
  exact ha.not.add hone

/-! Shifts. -/

theorem getElem?_shiftLeft {n i : Nat} {c : Bit} :
    (a.shiftLeft n).bits[i]? = some c ↔
      i < a.width ∧ (i < n ∧ c = .zero ∨ n ≤ i ∧ a.bits[i - n]? = some c) := by
  simp only [shiftLeft, List.getElem?_take]
  by_cases hw : i < a.width
  · by_cases hn : i < n
    · rw [if_pos hw, List.getElem?_append_left (by simpa using hn)]
      simp [hn, hw, eq_comm, Nat.not_le.2 hn]
    · rw [if_pos hw, List.getElem?_append_right (by simpa using hn)]
      simp [hn, hw, Nat.le_of_not_lt hn]
  · simp [hw]

theorem width_shiftLeft (n : Nat) : (a.shiftLeft n).width = a.width := by
  simp [shiftLeft, width]

theorem Describes.shiftLeft (ha : a.Describes x) (n : Nat) : (a.shiftLeft n).Describes (x <<< n) := by
  refine ⟨(width_shiftLeft n).trans ha.width_eq, fun i c hc => ?_⟩
  obtain ⟨hi, hc⟩ := getElem?_shiftLeft.1 hc
  rw [ha.width_eq] at hi
  rw [BitVec.getLsbD_shiftLeft, decide_eq_true hi, Bool.true_and]
  rcases hc with ⟨hn, rfl⟩ | ⟨hn, hc⟩
  · rw [decide_eq_true hn]
    exact Bit.admits_zero
  · rw [decide_eq_false (Nat.not_lt.2 hn)]
    exact ha.admits _ c hc

theorem getElem?_shiftRight {n i : Nat} {fill c : Bit} :
    (a.shiftRight n fill).bits[i]? = some c ↔
      i < a.width ∧ (a.bits[n + i]? = some c ∨ a.width ≤ n + i ∧ c = fill) := by
  simp only [shiftRight, width]
  by_cases hn : n + i < a.bits.length
  · rw [List.getElem?_append_left (by simp; omega), List.getElem?_drop]
    have hi : i < a.bits.length := by omega
    simp only [hi, true_and, Nat.not_le.2 hn, false_and, or_false]
  · have hnone : a.bits[n + i]? = none := List.getElem?_eq_none (Nat.le_of_not_lt hn)
    rw [List.getElem?_append_right (by simp; omega), List.getElem?_replicate, hnone]
    by_cases hi : i < a.bits.length
    · rw [if_pos (by simp; omega)]
      simp [hi, Nat.le_of_not_lt hn, eq_comm]
    · rw [if_neg (by simp; omega)]
      simp [hi]

theorem width_shiftRight (n : Nat) (fill : Bit) : (a.shiftRight n fill).width = a.width := by
  simp only [shiftRight, width, List.length_append, List.length_drop, List.length_replicate]
  omega

theorem Describes.ushiftRight (ha : a.Describes x) (n : Nat) :
    (a.shiftRight n .zero).Describes (x >>> n) := by
  refine ⟨(width_shiftRight n _).trans ha.width_eq, fun i c hc => ?_⟩
  rw [BitVec.getLsbD_ushiftRight]
  obtain ⟨-, hc | ⟨hge, rfl⟩⟩ := getElem?_shiftRight.1 hc
  · exact ha.admits _ c hc
  · rw [BitVec.getLsbD_of_ge x _ (ha.width_eq ▸ hge)]
    exact Bit.admits_zero

theorem Describes.sshiftRight (ha : a.Describes x) (n : Nat) :
    (a.shiftRight n a.signBit).Describes (x.sshiftRight n) := by
  refine ⟨(width_shiftRight n _).trans ha.width_eq, fun i c hc => ?_⟩
  obtain ⟨hi, hc⟩ := getElem?_shiftRight.1 hc
  rw [ha.width_eq] at hi
  rw [BitVec.getLsbD_sshiftRight, decide_eq_false (Nat.not_le.2 hi), Bool.not_false, Bool.true_and]
  rcases hc with hc | ⟨hge, rfl⟩
  · have hlt := lt_width hc
    rw [ha.width_eq] at hlt
    rw [if_pos hlt]
    exact ha.admits _ c hc
  · rw [ha.width_eq] at hge
    rw [if_neg (Nat.not_lt.2 hge)]
    exact ha.signBit

/-! Conjunction, disjunction and exclusive disjunction. -/

theorem admits_and : ∀ {x y : Bit} {p q : Bool}, x.Admits p → y.Admits q →
    (bitwiseBit .and x y).Admits (p && q) := by
  decide

theorem admits_or : ∀ {x y : Bit} {p q : Bool}, x.Admits p → y.Admits q →
    (bitwiseBit .or x y).Admits (p || q) := by
  decide

theorem admits_xor : ∀ {x y : Bit} {p q : Bool}, x.Admits p → y.Admits q →
    (bitwiseBit .xor x y).Admits (p ^^ q) := by
  decide

theorem Describes.bitwise {op : BinaryOp} {f : Bool → Bool → Bool} {z : BitVec w}
    (hop : ∀ {c d : Bit} {u v : Bool}, c.Admits u → d.Admits v → (bitwiseBit op c d).Admits (f u v))
    (hz : ∀ i, i < w → z.getLsbD i = f (x.getLsbD i) (y.getLsbD i))
    (ha : a.Describes x) (hb : b.Describes y) : (bitwise op a b).Describes z := by
  rw [BitPattern.bitwise, ha.widen_eq hb]
  refine ⟨?_, fun i d hd => ?_⟩
  · have hx := ha.width_eq
    have hy := hb.width_eq
    simp only [width, List.length_zipWith] at *
    omega
  · simp only [List.getElem?_zipWith] at hd
    split at hd
    · rename_i c₀ c₁ h₀ h₁
      cases hd
      rw [hz i (ha.width_eq ▸ lt_width h₀)]
      exact hop (ha.admits i c₀ h₀) (hb.admits i c₁ h₁)
    · cases hd

/-! Division and comparison. -/

theorem Reached.isBottom_eq (hp : p.Reached) (hw : 0 < p.width) : p.isBottom = false := by
  obtain ⟨c, hc⟩ := exists_bit hw
  have hmem := List.mem_of_getElem? hc
  simp only [isBottom, List.all_eq_false]
  exact ⟨c, hmem, by simpa using hp c hmem⟩

theorem unknown_eq_top (v : Nat) (ha : a.Reached) (hb : b.Reached) (hwa : 0 < a.width)
    (hwb : 0 < b.width) : unknown v a b = top v := by
  rw [unknown, ha.isBottom_eq hwa, hb.isBottom_eq hwb]
  rfl

theorem Describes.divRem {op : BinaryOp} {z : BitVec w} (hw : 0 < w) (ha : a.Describes x)
    (hb : b.Describes y)
    (hz : y.toInt ≠ 0 →
      z = BitVec.ofInt w (if op = .div then x.toInt.tdiv y.toInt else x.toInt.tmod y.toInt)) :
    (divRem op a b).Describes z := by
  simp only [BitPattern.divRem, ha.widen_eq hb]
  split
  · rename_i m n hm hn
    rw [ha.width_eq]
    by_cases hzero : n = 0
    · rw [if_pos hzero]
      exact describes_top z
    · rw [if_neg hzero, hz (by rwa [hb.toInt_eq hn]), ha.toInt_eq hm, hb.toInt_eq hn]
      exact describes_ofBitVec _
  · rw [unknown_eq_top _ ha.reached hb.reached (ha.width_eq ▸ hw) (hb.width_eq ▸ hw), ha.width_eq]
    exact describes_top z

theorem Describes.div (hw : 0 < w) (ha : a.Describes x) (hb : b.Describes y) :
    (BitPattern.divRem .div a b).Describes (x.sdiv y) := by
  refine ha.divRem hw hb fun _ => BitVec.eq_of_toInt_eq ?_
  rw [BitVec.toInt_sdiv, BitVec.toInt_ofInt]
  rfl

theorem Describes.rem (hw : 0 < w) (ha : a.Describes x) (hb : b.Describes y) :
    (BitPattern.divRem .rem a b).Describes (x.srem y) := by
  refine ha.divRem hw hb fun _ => ?_
  rw [if_neg (by decide), ← BitVec.toInt_srem, BitVec.ofInt_toInt]

theorem describes_undecided (t : Bool) :
    (BitPattern.mk (.top :: List.replicate 31 .zero)).Describes (BitVec.ofInt 32 t.toNat) := by
  refine ⟨rfl, fun i c hc => ?_⟩
  cases i with
  | zero =>
    cases hc
    exact Bit.admits_top _
  | succ i =>
    rw [List.getElem?_cons_succ] at hc
    have hzero : (filled 31 .zero).bits[i]? = some c := hc
    rw [(getElem?_filled.1 hzero).2]
    cases t with
    | false => simpa using Bit.admits_zero
    | true => simpa [BitVec.getLsbD_one] using Bit.admits_zero

/-- A comparison of words of any widths is that of their values in two's complement. -/
theorem Describes.compare {v : Nat} {y : BitVec v} (op : BinaryOp) (ha : a.Describes x)
    (hb : b.Describes y) :
    (BitPattern.compare op a b).Describes
      (BitVec.ofInt 32 (op.verdict (Ord.compare x.toInt y.toInt))) := by
  have hx : (x.signExtend (max w v)).toInt = x.toInt :=
    BitVec.toInt_signExtend_of_le (Nat.le_max_left w v)
  have hy : (y.signExtend (max w v)).toInt = y.toInt :=
    BitVec.toInt_signExtend_of_le (Nat.le_max_right w v)
  simp only [BitPattern.compare, ha.width_eq, hb.width_eq]
  split
  · rename_i m n hm hn
    rw [← hx, ← hy, (ha.signExtend _).toInt_eq hm, (hb.signExtend _).toInt_eq hn]
    exact describes_ofBitVec _
  · by_cases hrel : op.isRelational = true
    · rw [if_pos hrel]
      simp only [BinaryOp.verdict, hrel, if_true]
      exact describes_undecided _
    · rw [if_neg hrel]
      exact describes_top _

end BitPattern

end FlowHistory
