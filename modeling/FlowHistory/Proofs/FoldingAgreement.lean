import FlowHistory.Proofs.FoldedBits

/-!
# Folding and bit tracking on known words

A known word has a pattern of its own width. From the patterns of known words the operators on patterns compute
the pattern of the folded word, and know nothing where the fold knows nothing, after a division by zero. The
exception is an `int` shifted by a `long`: the pattern keeps the width of the shifted word, while the fold takes
both as wide.
-/
namespace FlowHistory

namespace ConstValue

/-- The pattern of a known word, at its own width. What is not known takes the width `w`. -/
def embed (w : Nat) : ConstValue → BitPattern
  | .bottom => .bottom w
  | .top => .top w
  | .int v => .constant v.toInt 32
  | .long v => .constant v.toInt 64

variable {v : ConstValue} {a : Word}

theorem embed_of_word? (h : v.word? = some a) (w : Nat) : v.embed w = .ofBitVec a.value := by
  rw [← pattern_of_word? h]
  cases v with
  | bottom | top => cases h
  | int _ | long _ =>
    cases h
    rfl

/-- The width of an embedded value is one to embed it at. -/
theorem embed_width_embed (v : ConstValue) (w : Nat) : v.embed (v.embed w).width = v.embed w := by
  cases v with
  | bottom | top => simp [embed, BitPattern.bottom, BitPattern.top]
  | int _ | long _ => rfl

theorem word?_of_admits (h : v.Admits a) (hv : v ≠ .top) : v.word? = some a := by
  cases v with
  | bottom => exact h.elim
  | top => exact absurd rfl hv
  | int _ | long _ =>
    cases h
    rfl

end ConstValue

namespace BitPattern

variable {w : Nat}

theorem divRem_zero (op : BinaryOp) (x : BitVec w) : divRem op (ofBitVec x) (ofBitVec 0#w) = top w := by
  simp [divRem, (describes_ofBitVec x).widen_eq (describes_ofBitVec 0#w), toSigned_ofBitVec]

end BitPattern

namespace ConstantFolding

variable {op : BinaryOp} {u v : ConstValue} {a b : Word}

/-- Only a division by zero leaves the fold of two words unknown. -/
theorem zero_of_foldWords {w : Nat} {lift : BitVec w → ConstValue} (hlift : ∀ z, lift z ≠ .top) {x y : BitVec w}
    (h : foldWords lift op x y = .top) : (op = .div ∨ op = .rem) ∧ y = 0 := by
  cases op with
  | div | rem =>
    refine ⟨by simp, ?_⟩
    by_contra hy
    simp only [foldWords, BinaryOp.isRelational, BinaryOp.isThreeWay, arithmetic?, if_neg hy] at h
    exact hlift _ h
  | _ => simp [foldWords, BinaryOp.isRelational, BinaryOp.isThreeWay, arithmetic?, hlift] at h

theorem zero_of_foldBinary (hu : u.word? = some a) (hv : v.word? = some b) (h : foldBinary op u v = .top) :
    (op = .div ∨ op = .rem) ∧ b.value = 0 := by
  cases u with
  | bottom | top => cases hu
  | int x =>
    cases v with
    | bottom | top => cases hv
    | int y | long y =>
      cases hv
      exact zero_of_foldWords (by simp) h
  | long x =>
    cases v with
    | bottom | top => cases hv
    | int y =>
      cases hv
      obtain ⟨hop, hy⟩ := zero_of_foldWords (by simp) h
      refine ⟨hop, BitVec.eq_of_toInt_eq ?_⟩
      rw [← BitVec.toInt_signExtend_of_le (w := 32) (v := 64) (by omega), hy]
      rfl
    | long y =>
      cases hv
      exact zero_of_foldWords (by simp) h

theorem negate_ne_top (hu : u.word? = some a) : negate u ≠ .top := by
  cases u with
  | bottom | top => cases hu
  | int _ | long _ => simp [negate]

theorem cast_ne_top {t : LocalType} (hu : u.word? = some a) (ht : t.isIntegral = true) : cast t u ≠ .top := by
  cases u with
  | bottom | top => cases hu
  | int _ | long _ => cases t <;> simp_all [cast, castWord, LocalType.isIntegral]

theorem foldBinary_zero (hop : op = .div ∨ op = .rem) (hu : u.word? = some a) (hv : v.word? = some ⟨a.width, 0⟩) :
    foldBinary op u v = .top := by
  have hunknown := word?_foldBinary_zero (u := u) hop hv
  have hreached : foldBinary op u v ≠ .bottom :=
    foldBinary_ne_bottom (ConstValue.admits_of_word? hu).ne_bottom (ConstValue.admits_of_word? hv).ne_bottom
  cases hfold : foldBinary op u v with
  | top => rfl
  | bottom => exact absurd hfold hreached
  | int _ | long _ =>
    rw [hfold] at hunknown
    cases hunknown

/-- Where a width fits both words, the pattern of the fold is computed from their patterns. -/
theorem embed_foldBinary {w : Nat} (hu : u.word? = some a) (hv : v.word? = some b)
    (hw : op.width? a.width b.width = some w) :
    (foldBinary op u v).embed w = BitPattern.binary op (.ofBitVec a.value) (.ofBitVec b.value) := by
  have hua := ConstValue.admits_of_word? hu
  have hvb := ConstValue.admits_of_word? hv
  by_cases hzero : (op = .div ∨ op = .rem) ∧ b.value = 0
  · obtain ⟨hop, hb⟩ := hzero
    obtain ⟨hab, rfl⟩ : a.width = b.width ∧ a.width = w := by
      rcases hop with rfl | rfl <;>
        simpa [BinaryOp.width?, BinaryOp.isRelational, BinaryOp.isThreeWay, BinaryOp.isShift] using hw
    have hv : v.word? = some ⟨a.width, 0⟩ := by rw [hv, hab, ← hb]
    rw [foldBinary_zero hop hu hv, hb, ← hab]
    rcases hop with rfl | rfl <;> exact (BitPattern.divRem_zero _ a.value).symm
  · obtain ⟨z, hz⟩ := Word.exists_binary? a.value b.value hw fun hop hb => hzero ⟨hop, hb⟩
    have hfold := ConstValue.word?_of_admits (admits_foldBinary hua hvb hz)
      fun htop => hzero (zero_of_foldBinary hu hv htop)
    rw [ConstValue.embed_of_word? hfold,
      BitPattern.binary_ofBitVec (ConstValue.width_of_word? hu) (ConstValue.width_of_word? hv) hz]

/-- A narrow word is shifted by a wide one as if it were wide, while its pattern keeps its width. -/
theorem embed_shift_ne (hop : op.isShift = true) (hu : u.word? = some a) (hv : v.word? = some b)
    (ha : a.width = 32) (hb : b.width = 64) (w : Nat) :
    (foldBinary op u v).embed w ≠ BitPattern.binary op (.ofBitVec a.value) (.ofBitVec b.value) := by
  have hbits : (BitPattern.binary op (.ofBitVec a.value) (.ofBitVec b.value)).width = 32 := by
    cases op with
    | shl | shr | ushr => rw [BitPattern.binary, BitPattern.width_shift, BitPattern.width_ofBitVec, ha]
    | _ => cases hop
  have hfold : ((foldBinary op u v).embed w).width = 64 := by
    cases u with
    | bottom | top => cases hu
    | long x =>
      cases hu
      cases ha
    | int x =>
      cases v with
      | bottom | top => cases hv
      | int y =>
        cases hv
        cases hb
      | long y =>
        cases op with
        | shl | shr | ushr => exact BitPattern.width_constant _ _
        | _ => cases hop
  intro heq
  rw [heq, hbits] at hfold
  cases hfold

/-- An operator takes the widths of two known words, if it takes words of all widths or theirs are the same,
and if it does not shift a narrow word by a wide one. -/
theorem exists_width? (hkinds : (op.isShift || op.isRelational || op.isThreeWay) = true ∨ a.width = b.width)
    (hshift : ¬ (op.isShift = true ∧ a.width = 32 ∧ b.width = 64)) :
    ∃ w, op.width? a.width b.width = some w := by
  unfold BinaryOp.width?
  split
  · exact ⟨_, rfl⟩
  · split
    · rw [if_neg fun h => hshift ⟨‹_›, h⟩]
      exact ⟨_, rfl⟩
    · rw [if_pos (hkinds.resolve_left (by simp_all))]
      exact ⟨_, rfl⟩

/-- Comparisons and shifts take known words of all widths, and other operators take words of one width. Their
embedded fold is what the operator gives on the embedded words, exactly if no `int` is shifted by a `long`.
Negations and conversions to integral types agree for all known words. -/
theorem agrees_with_bits_iff (op : BinaryOp) (hu : u.word? = some a) (hv : v.word? = some b)
    (hkinds : (op.isShift || op.isRelational || op.isThreeWay) = true ∨ a.width = b.width) :
    ((foldBinary op u v).embed (BitPattern.binary op (u.embed a.width) (v.embed b.width)).width =
      BitPattern.binary op (u.embed a.width) (v.embed b.width) ↔
        ¬ (op.isShift = true ∧ a.width = 32 ∧ b.width = 64)) ∧
    (negate u).embed a.width = (u.embed a.width).neg ∧
    ∀ t : LocalType, t.isIntegral = true → (cast t u).embed t.bitWidth = (u.embed a.width).cast t := by
  have hua := ConstValue.admits_of_word? hu
  rw [ConstValue.embed_of_word? hu, ConstValue.embed_of_word? hv]
  refine ⟨⟨fun heq hshift => ?_, fun hshift => ?_⟩, ?_, fun t ht => ?_⟩
  · obtain ⟨hop, ha, hb⟩ := hshift
    exact embed_shift_ne hop hu hv ha hb _ heq
  · obtain ⟨w, hw⟩ := exists_width? hkinds hshift
    rw [← embed_foldBinary hu hv hw, ConstValue.embed_width_embed]
  · have hneg := ConstValue.word?_of_admits (admits_negate hua) (negate_ne_top hu)
    rw [ConstValue.embed_of_word? hneg, BitPattern.neg_ofBitVec, Word.neg]
  · obtain ⟨x, hx⟩ := Word.exists_cast? ht a
    have hcast := ConstValue.word?_of_admits (admits_cast hua hx) (cast_ne_top hu ht)
    rw [ConstValue.embed_of_word? hcast, BitPattern.cast_ofBitVec hx]

theorem agrees_with_bits_iff_distances :
    (foldBinary .shl (.long 1) (.int 33)).embed 64 = BitPattern.binary .shl (.constant 1 64) (.constant 33 32) ∧
    (foldBinary .rem (.int 7) (.int 0)).embed 32 = BitPattern.binary .rem (.constant 7 32) (.constant 0 32) ∧
    (foldBinary .ushr (.int 1) (.long 33)).embed 32 ≠
      BitPattern.binary .ushr (.constant 1 32) (.constant 33 64) := by
  refine ⟨?_, ?_, fun heq => ?_⟩
  · exact (agrees_with_bits_iff .shl (u := .long 1) (v := .int 33) rfl rfl (.inl rfl)).1.2 (by decide)
  · exact (agrees_with_bits_iff .rem (u := .int 7) (v := .int 0) rfl rfl (.inr rfl)).1.2 (by decide)
  · exact (agrees_with_bits_iff .ushr (u := .int 1) (v := .long 33) rfl rfl (.inl rfl)).1.1 heq ⟨rfl, rfl, rfl⟩

/-- Shifted by the `long` 33, the `int` 1 is 2 in its pattern and folds to the `long` 2 ^ 33. -/
theorem int_shifted_by_long :
    foldBinary .shl (.int 1) (.long 33) = .long 0x200000000 ∧
    BitPattern.binary .shl (.constant 1 32) (.constant 33 64) = .constant 2 32 ∧
    (foldBinary .shl (.int 1) (.long 33)).embed 32 ≠
      BitPattern.binary .shl (.constant 1 32) (.constant 33 64) := by
  refine ⟨by decide, by decide, by decide⟩

end ConstantFolding

end FlowHistory
