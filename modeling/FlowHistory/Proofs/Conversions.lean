import FlowHistory.Proofs.BitConstants

/-!
# Numbers and patterns

A pattern of known bits stands for one word of its width, so it has an unsigned and a signed number, and each
of them gives the pattern back. Extension keeps the number that it extends and truncation takes the remainder.

Up to 64 bits the conversions can be computed inside one word: the bits of a number are shifted down to the
end, known bits are shifted up to their places, and the sign is spread by shifting up and back. The last part
shows that this gives the same patterns and numbers.
-/
namespace FlowHistory

namespace BitPattern

variable {p : BitPattern} {w : Nat}

/-! Known bits have a number, and only they. -/

theorem exists_word_of_toRaw {n : Nat} (h : p.toRaw = some n) :
    ∃ (w : Nat) (x : BitVec w), p = ofBitVec x ∧ x.toNat = n := by
  have hp := eq_ofBitVec_of_toRaw h
  rw [hp, toRaw_ofBitVec] at h
  exact ⟨_, _, hp, Option.some.inj h⟩

theorem exists_word_of_toSigned {z : Int} (h : p.toSigned = some z) :
    ∃ (w : Nat) (x : BitVec w), p = ofBitVec x ∧ x.toInt = z := by
  obtain ⟨n, hn, -⟩ := Option.map_eq_some_iff.1 h
  obtain ⟨w, x, rfl, -⟩ := exists_word_of_toRaw hn
  rw [toSigned_ofBitVec] at h
  exact ⟨w, x, rfl, Option.some.inj h⟩

theorem isSome_toRaw (p : BitPattern) : p.toRaw.isSome = p.isConstant := by
  rw [Bool.eq_iff_iff, Option.isSome_iff_exists]
  constructor
  · rintro ⟨n, hn⟩
    obtain ⟨w, x, rfl, -⟩ := exists_word_of_toRaw hn
    exact isConstant_ofBitVec x
  · exact exists_toRaw

theorem isSome_toSigned (p : BitPattern) : p.toSigned.isSome = p.isConstant := by
  rw [toSigned, Option.isSome_map, isSome_toRaw]

theorem toRaw_constant (v : Int) (w : Nat) : (constant v w).toRaw = some (v % 2 ^ w).toNat := by
  rw [constant, toRaw_ofBitVec, BitVec.toNat_ofInt]
  norm_cast

theorem toSigned_constant (v : Int) (w : Nat) : (constant v w).toSigned = some (v.bmod (2 ^ w)) := by
  rw [constant, toSigned_ofBitVec, BitVec.toInt_ofInt]

theorem constant_of_toSigned {z : Int} (h : p.toSigned = some z) : constant z p.width = p := by
  obtain ⟨w, x, rfl, rfl⟩ := exists_word_of_toSigned h
  rw [width_ofBitVec, constant, BitVec.ofInt_toInt]

/-! Resizing. -/

theorem zeroExtend_ofBitVec (x : BitVec w) (v : Nat) : (ofBitVec x).zeroExtend v = ofBitVec (x.setWidth v) :=
  ((describes_ofBitVec x).zeroExtend v).eq_ofBitVec (isConstant_zeroExtend (isConstant_ofBitVec x) v)

theorem signExtend_ofBitVec (x : BitVec w) (v : Nat) : (ofBitVec x).signExtend v = ofBitVec (x.signExtend v) :=
  ((describes_ofBitVec x).signExtend v).eq_ofBitVec (isConstant_signExtend (isConstant_ofBitVec x) v)

/-- Bits that are added do not make the others known. -/
theorem toRaw_resize_eq_none {v : Nat} (b : Bit) (hv : p.width ≤ v) (h : p.toRaw = none) :
    (p.resize v b).toRaw = none := by
  rw [← Option.not_isSome_iff_eq_none, isSome_toRaw, isConstant_iff] at h ⊢
  rw [resize, List.take_of_length_le hv]
  exact fun hall => h fun c hc => hall c (List.mem_append_left _ hc)

theorem toRaw_zeroExtend_mod {n : Nat} (h : p.toRaw = some n) (v : Nat) :
    (p.zeroExtend v).toRaw = some (n % 2 ^ v) := by
  obtain ⟨w, x, rfl, rfl⟩ := exists_word_of_toRaw h
  rw [zeroExtend_ofBitVec, toRaw_ofBitVec, BitVec.toNat_setWidth]

theorem toRaw_zeroExtend {v : Nat} (hv : p.width ≤ v) : (p.zeroExtend v).toRaw = p.toRaw := by
  cases h : p.toRaw with
  | none => exact toRaw_resize_eq_none _ hv h
  | some n =>
    have hlt : n < 2 ^ v := Nat.lt_of_lt_of_le (toRaw_lt h) (Nat.pow_le_pow_right (by omega) hv)
    rw [toRaw_zeroExtend_mod h, Nat.mod_eq_of_lt hlt]

theorem toSigned_signExtend {v : Nat} (hv : p.width ≤ v) : (p.signExtend v).toSigned = p.toSigned := by
  cases h : p.toSigned with
  | none =>
    rw [toSigned, Option.map_eq_none_iff] at h ⊢
    exact toRaw_resize_eq_none _ hv h
  | some z =>
    obtain ⟨w, x, rfl, rfl⟩ := exists_word_of_toSigned h
    rw [width_ofBitVec] at hv
    rw [signExtend_ofBitVec, toSigned_ofBitVec, BitVec.toInt_signExtend_of_le hv]

/-- Where nothing is added it does not matter what would be. -/
theorem signExtend_eq_zeroExtend {v : Nat} (hv : v ≤ p.width) : p.signExtend v = p.zeroExtend v := by
  simp [signExtend, zeroExtend, resize, Nat.sub_eq_zero_of_le hv]

/-! Inside a word of 64 bits. -/

/-- The low `w` bits of a word, each shifted down to the end. -/
def ofLow (x : BitVec 64) (w : Nat) : BitPattern :=
  ⟨(List.range w).map fun i => Bit.ofBool (x >>> i &&& 1#64 == 1#64)⟩

/-- Adds a bit at its position, if it is known. -/
def place (x : BitVec 64) (d : Bit × Nat) : Option (BitVec 64) :=
  d.1.known?.map fun set => x ||| (BitVec.ofBool set).setWidth 64 <<< d.2

/-- All bits at their positions, if they are known. -/
def gathered? (p : BitPattern) : Option (BitVec 64) := p.bits.zipIdx.foldlM place 0#64

/-- The low `w` bits of a word as a signed number: the highest of them is shifted up to the sign, and back. -/
def signedLow (w : Nat) (x : BitVec 64) : Int := ((x <<< (64 - w)).sshiftRight (64 - w)).toInt

theorem constant_eq_ofLow (x : BitVec 64) (hw : w ≤ 64) : constant x.toInt w = ofLow x w := by
  have hdigit : ∀ i, (x >>> i &&& 1#64 == 1#64) = x.getLsbD i := by
    intro i
    rw [BitVec.and_one_eq_setWidth_ofBool_getLsbD, BitVec.getLsbD_ushiftRight, Nat.add_zero]
    cases x.getLsbD i <;> rfl
  have hword : BitVec.ofInt w x.toInt = x.setWidth w := BitVec.signExtend_eq_setWidth_of_le x hw
  simp only [constant, ofBitVec, ofLow, hdigit, hword, BitVec.getLsbD_setWidth, mk.injEq]
  refine List.map_congr_left fun i hi => ?_
  rw [decide_eq_true (List.mem_range.1 hi), Bool.true_and]

/-- The lowest bit of a number, and the others one place further up. -/
theorem ofNat_cons (low : Bool) (high : Nat) :
    BitVec.ofNat 64 (low.toNat + 2 * high) =
      (BitVec.ofBool low).setWidth 64 ||| BitVec.ofNat 64 high <<< 1 := by
  have hlow : low.toNat < 2 := Bool.toNat_lt low
  refine BitVec.eq_of_getLsbD_eq fun i hi => ?_
  rw [BitVec.getLsbD_or, BitVec.getLsbD_setWidth, BitVec.getLsbD_shiftLeft, BitVec.getLsbD_ofNat,
    BitVec.getLsbD_ofNat]
  cases i with
  | zero => cases low <;> simp [Nat.testBit_zero]
  | succ i =>
    have hdiv : (low.toNat + 2 * high) / 2 = high := by omega
    have hi' : i < 64 := by omega
    rw [Nat.testBit_succ, hdiv]
    simp [hi, hi']

/-- From position `i` on, the bits of a list add the number that they write, shifted up by `i`. -/
theorem foldlM_place (l : List Bit) (i : Nat) (x : BitVec 64) :
    (l.zipIdx i).foldlM place x = (rawOf l).map fun n => x ||| BitVec.ofNat 64 n <<< i := by
  induction l generalizing i x with
  | nil => simp [rawOf]
  | cons b r ih =>
    rw [List.zipIdx_cons, List.foldlM_cons, rawOf, place]
    cases b.known? with
    | none => rfl
    | some low =>
      have hshift : ∀ n, x ||| (BitVec.ofBool low).setWidth 64 <<< i ||| BitVec.ofNat 64 n <<< (i + 1) =
          x ||| BitVec.ofNat 64 (low.toNat + 2 * n) <<< i := by
        intro n
        rw [ofNat_cons, BitVec.shiftLeft_or_distrib, Nat.add_comm i 1, BitVec.shiftLeft_add, BitVec.or_assoc]
      rw [Option.map_some, Option.bind_eq_bind, Option.bind_some, ih]
      cases rawOf r with
      | none => rfl
      | some n => exact congrArg some (hshift n)

theorem gathered?_eq (p : BitPattern) : p.gathered? = p.toRaw.map (BitVec.ofNat 64) := by
  rw [gathered?, foldlM_place, toRaw]
  simp

theorem sshiftRight_shiftLeft (hw : w ≤ 64) (n : Nat) :
    (BitVec.ofNat 64 n <<< (64 - w)).sshiftRight (64 - w) = (BitVec.ofNat w n).signExtend 64 := by
  refine BitVec.eq_of_getLsbD_eq fun i hi => ?_
  rw [BitVec.getLsbD_sshiftRight, BitVec.getLsbD_signExtend, decide_eq_false (Nat.not_le.2 hi), decide_eq_true hi]
  by_cases hlow : i < w
  · have hplace : 64 - w + i < 64 := by omega
    rw [if_pos hplace, if_pos hlow, BitVec.getLsbD_shiftLeft, BitVec.getLsbD_ofNat, BitVec.getLsbD_ofNat]
    simp [hi, hlow, hplace]
  · -- above the low bits stand copies of the highest of them, if there is one
    have hplace : ¬ 64 - w + i < 64 := by omega
    rw [if_neg hplace, if_neg hlow, BitVec.msb_shiftLeft, BitVec.msb_eq_getLsbD_last, BitVec.getMsbD]
    cases w with
    | zero => simp
    | succ m =>
      have hlast : 64 - 1 - (64 - (m + 1)) = m := by omega
      have hm : m < 64 := by omega
      have hup : 64 - (m + 1) < 64 := by omega
      rw [hlast, decide_eq_true hup, Nat.add_sub_cancel, BitVec.getLsbD_ofNat, BitVec.getLsbD_ofNat]
      simp [hm]

theorem signedLow_ofNat (hw : w ≤ 64) (n : Nat) :
    signedLow w (BitVec.ofNat 64 n) = (BitVec.ofNat w n).toInt := by
  rw [signedLow, sshiftRight_shiftLeft hw, BitVec.toInt_signExtend_of_le hw]

theorem toRaw_eq_gathered? (hw : p.width ≤ 64) : p.toRaw = p.gathered?.map BitVec.toNat := by
  rw [gathered?_eq, Option.map_map]
  cases h : p.toRaw with
  | none => rfl
  | some n =>
    have hlt : n < 2 ^ 64 := Nat.lt_of_lt_of_le (toRaw_lt h) (Nat.pow_le_pow_right (by omega) hw)
    rw [Option.map_some, Function.comp_apply, BitVec.toNat_ofNat, Nat.mod_eq_of_lt hlt]

theorem toSigned_eq_gathered? (hw : p.width ≤ 64) : p.toSigned = p.gathered?.map (signedLow p.width) := by
  rw [gathered?_eq, Option.map_map, toSigned]
  exact congrArg p.toRaw.map (funext fun n => (signedLow_ofNat hw n).symm)

/-- At every width an integer and its pattern stand for each other. The pattern has the remainder of the integer
as its unsigned and the wrapped integer as its signed number; just the patterns of known bits have numbers, and
the signed one gives the pattern back. Extension keeps the number, truncation takes the remainder, and a power
of two is recognised exactly. Up to 64 bits the pattern and both its numbers are what shifts inside one word give. -/
theorem conversions_inverse (p : BitPattern) :
    (∀ (v : Int) (w : Nat), (constant v w).toRaw = some (v % 2 ^ w).toNat ∧
      (constant v w).toSigned = some (v.bmod (2 ^ w))) ∧
    (p.toRaw.isSome = p.isConstant ∧ p.toSigned.isSome = p.isConstant ∧
      ∀ z, p.toSigned = some z → constant z p.width = p) ∧
    (∀ v, p.width ≤ v → (p.signExtend v).toSigned = p.toSigned ∧ (p.zeroExtend v).toRaw = p.toRaw) ∧
    (∀ n v, p.toRaw = some n → v ≤ p.width →
      (p.signExtend v).toRaw = some (n % 2 ^ v) ∧ (p.zeroExtend v).toRaw = some (n % 2 ^ v)) ∧
    (∀ k, p.powerOfTwo? = some k ↔ p.isConstant = true ∧ p.toRaw = some (2 ^ k)) ∧
    (∀ (x : BitVec 64) (w : Nat), w ≤ 64 → constant x.toInt w = ofLow x w) ∧
    (p.width ≤ 64 → p.toRaw = p.gathered?.map BitVec.toNat ∧
      p.toSigned = p.gathered?.map (signedLow p.width)) := by
  refine ⟨fun v w => ⟨toRaw_constant v w, toSigned_constant v w⟩,
    ⟨isSome_toRaw p, isSome_toSigned p, fun z hz => constant_of_toSigned hz⟩,
    fun v hv => ⟨toSigned_signExtend hv, toRaw_zeroExtend hv⟩, fun n v hn hv => ?_, fun k => ?_,
    fun x w hw => constant_eq_ofLow x hw, fun hw => ⟨toRaw_eq_gathered? hw, toSigned_eq_gathered? hw⟩⟩
  · rw [signExtend_eq_zeroExtend hv]
    exact ⟨toRaw_zeroExtend_mod hn v, toRaw_zeroExtend_mod hn v⟩
  · rw [powerOfTwo?_eq_some_iff, ← isSome_toRaw]
    exact ⟨fun h => ⟨by rw [h]; rfl, h⟩, fun h => h.2⟩

/-- With the sign bit alone the signed number is a power of two below zero, and the unsigned one above. -/
theorem conversions_inverse_sign_bit :
    constant (-2) 2 = ⟨[.zero, .one]⟩ ∧ (signExtend ⟨[.zero, .one]⟩ 64).toSigned = some (-2) ∧
    (zeroExtend ⟨[.zero, .one]⟩ 64).toRaw = some 2 ∧ (signExtend ⟨[.zero, .one]⟩ 1).toRaw = some 0 ∧
    (zeroExtend ⟨[.zero, .one]⟩ 1).toRaw = some 0 ∧ powerOfTwo? ⟨[.zero, .one]⟩ = some 1 ∧
    ofLow 6#64 2 = ⟨[.zero, .one]⟩ ∧ (gathered? ⟨[.zero, .one]⟩).map BitVec.toNat = some 2 ∧
    (gathered? ⟨[.zero, .one]⟩).map (signedLow 2) = some (-2) := by
  have hraw : toRaw ⟨[.zero, .one]⟩ = some 2 := by decide
  have hsigned : toSigned ⟨[.zero, .one]⟩ = some (-2) := by decide
  obtain ⟨-, ⟨-, -, hback⟩, hwider, hnarrower, hpower, hlow, hword⟩ := conversions_inverse ⟨[.zero, .one]⟩
  obtain ⟨hsext, hzext⟩ := hwider 64 (by decide)
  obtain ⟨hscut, hzcut⟩ := hnarrower 2 1 hraw (by decide)
  obtain ⟨hunsigned, hspread⟩ := hword (by decide)
  exact ⟨hback _ hsigned, hsext.trans hsigned, hzext.trans hraw, hscut, hzcut, (hpower 1).2 ⟨by decide, hraw⟩,
    (hlow 6#64 2 (by decide)).symm.trans (by decide), hunsigned.symm.trans hraw, hspread.symm.trans hsigned⟩

end BitPattern

end FlowHistory
