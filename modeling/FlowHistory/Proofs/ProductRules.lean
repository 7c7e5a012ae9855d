import FlowHistory.Proofs.BitLaws

/-!
# Products across their rules

Five rules for a product are tried in turn, and the first whose condition holds gives it. As reached factors
grow, a condition can only be lost, so the rule that gives the product never moves back, though it may skip
some. The rules do not agree with each other: a later one may forget what an earlier one knows. That the
product grows all the same rests on the first four being exact.
-/
namespace FlowHistory

open LatticeValue (Below)

/-- The rules for a product, in the order in which they are tried. -/
inductive ProductRule where
  | constants | zero | powerOfTwo | members | zeros
  deriving DecidableEq, Repr

namespace ProductRule

open BitPattern

def place : ProductRule → Nat
  | .constants => 0
  | .zero => 1
  | .powerOfTwo => 2
  | .members => 3
  | .zeros => 4

/-- The condition of a rule on two factors of one width. -/
def applies : ProductRule → BitPattern → BitPattern → Bool
  | .constants, a, b => a.toRaw.isSome && b.toRaw.isSome
  | .zero, a, b => a.isZero || b.isZero
  | .powerOfTwo, a, b => a.powerOfTwo?.isSome || b.powerOfTwo?.isSome
  | .members, a, b => a.specialCount + b.specialCount ≤ enumerationLimit
  | .zeros, _, _ => true

/-- What a rule gives for two factors of one width. -/
def product : ProductRule → BitPattern → BitPattern → BitPattern
  | .constants, a, b => ofBitVec (BitVec.ofNat a.width (a.toRaw.getD 0 * b.toRaw.getD 0))
  | .zero, a, _ => BitPattern.zero a.width
  | .powerOfTwo, a, b =>
    match a.powerOfTwo? with
    | some k => b.shiftLeft k
    | none => a.shiftLeft (b.powerOfTwo?.getD 0)
  | .members, a, b => productOfMembers a b
  | .zeros, a, b => productByZeros a b

/-- The first rule that applies. -/
def first (a b : BitPattern) : ProductRule :=
  if applies .constants a b then .constants
  else if applies .zero a b then .zero
  else if applies .powerOfTwo a b then .powerOfTwo
  else if applies .members a b then .members
  else .zeros

variable {a a' b b' : BitPattern}

theorem applies_first (a b : BitPattern) : (first a b).applies a b = true := by
  unfold first
  split_ifs with h₁ h₂ h₃ h₄
  · exact h₁
  · exact h₂
  · exact h₃
  · exact h₄
  · rfl

/-- No rule that applies comes before the first one. -/
theorem place_first_le {r : ProductRule} (h : r.applies a b = true) : (first a b).place ≤ r.place := by
  unfold first
  cases r with
  | constants => simp [h, place]
  | zero => split_ifs <;> simp [place]
  | powerOfTwo => split_ifs <;> simp [place]
  | members => split_ifs <;> simp_all [place]
  | zeros => split_ifs <;> simp [place]

theorem mul_eq_product (hw : a.width = b.width) : a.mul b = (first a b).product a b := by
  unfold mul first
  rw [widen_of_width_eq hw]
  dsimp only
  split
  · rename_i m n hm hn
    simp [applies, product, hm, hn]
  · rename_i hraw
    have hconstants : applies .constants a b = false := by
      cases hm : a.toRaw with
      | none => simp [applies, hm]
      | some m =>
        cases hn : b.toRaw with
        | none => simp [applies, hn]
        | some n => exact absurd hn (hraw m n hm)
    rw [hconstants, if_neg Bool.false_ne_true]
    by_cases hzero : (a.isZero || b.isZero) = true
    · rw [if_pos hzero, applies, if_pos hzero]
      rfl
    · rw [if_neg hzero, applies, if_neg hzero]
      cases ha : a.powerOfTwo? with
      | some k => simp [applies, product, ha]
      | none =>
        cases hb : b.powerOfTwo? with
        | some k => simp [applies, product, ha, hb]
        | none =>
          by_cases hfew : a.specialCount + b.specialCount ≤ enumerationLimit
          · simp [applies, product, ha, hb, hfew]
          · simp [applies, product, ha, hb, hfew]

/-- What applies to factors that have grown applied to them before. -/
theorem applies_of_le {r : ProductRule} (ha : a.Reached) (hb : b.Reached) (haa : a.Le a') (hbb : b.Le b')
    (h : r.applies a' b' = true) : r.applies a b = true := by
  -- a reached factor below a constant is that constant
  have hconstant : ∀ {p p' : BitPattern}, p.Reached → p.Le p' → p'.toRaw.isSome = true → p = p' := by
    intro p p' hp hle hraw
    obtain ⟨n, hn⟩ := Option.isSome_iff_exists.1 hraw
    exact hle.eq_of_toRaw hp hn
  have hzero : ∀ {p p' : BitPattern}, p.Reached → p.Le p' → p'.isZero = true → p.isZero = true := by
    intro p p' hp hle hz
    by_contra hne
    simp [hle.isZero_eq_false hp (Bool.eq_false_of_not_eq_true hne)] at hz
  have hpower : ∀ {p p' : BitPattern}, p.Reached → p.Le p' → p'.powerOfTwo?.isSome = true →
      p.powerOfTwo?.isSome = true := by
    intro p p' hp hle hk
    by_contra hne
    simp [hle.powerOfTwo?_eq_none hp (by simpa using hne)] at hk
  cases r with
  | constants =>
    rw [applies, Bool.and_eq_true] at h ⊢
    rwa [hconstant ha haa h.1, hconstant hb hbb h.2]
  | zero =>
    rw [applies, Bool.or_eq_true] at h ⊢
    exact h.imp (hzero ha haa) (hzero hb hbb)
  | powerOfTwo =>
    rw [applies, Bool.or_eq_true] at h ⊢
    exact h.imp (hpower ha haa) (hpower hb hbb)
  | members =>
    have hcount := specialCount_le ha haa
    have hcount' := specialCount_le hb hbb
    rw [applies, decide_eq_true_iff] at h ⊢
    omega
  | zeros => rfl

end ProductRule

namespace BitPattern

variable {a a' b b' : BitPattern}

/-- Products of reached patterns of one width grow with their factors, whichever rules give them. The rule for
the grown factors is the same or a later one. -/
theorem products_monotone (hw : a.width = b.width) (ha : a.Reached) (hb : b.Reached) (haa : Below a a')
    (hbb : Below b b') :
    Below (a.mul b) (a'.mul b') ∧
    a.mul b = (ProductRule.first a b).product a b ∧ a'.mul b' = (ProductRule.first a' b').product a' b' ∧
    (ProductRule.first a b).place ≤ (ProductRule.first a' b').place := by
  rw [below_iff] at haa hbb ⊢
  have hw' : a'.width = b'.width := by rw [← haa.width_eq, ← hbb.width_eq, hw]
  refine ⟨mul_le ha hb haa hbb, ProductRule.mul_eq_product hw, ProductRule.mul_eq_product hw', ?_⟩
  apply ProductRule.place_first_le
  exact ProductRule.applies_of_le ha hb haa hbb (ProductRule.applies_first a' b')

/-- With a sixth unknown bit the members are no longer multiplied out. -/
theorem products_monotone_sixth_bit :
    ProductRule.first ⟨[.one, .one, .top, .top, .zero, .zero]⟩ ⟨[.zero, .top, .top, .top, .zero, .zero]⟩ =
      .members ∧
    ProductRule.first ⟨[.one, .top, .top, .top, .zero, .zero]⟩ ⟨[.zero, .top, .top, .top, .zero, .zero]⟩ =
      .zeros ∧
    Below (mul ⟨[.one, .one, .top, .top, .zero, .zero]⟩ ⟨[.zero, .top, .top, .top, .zero, .zero]⟩)
      (mul ⟨[.one, .top, .top, .top, .zero, .zero]⟩ ⟨[.zero, .top, .top, .top, .zero, .zero]⟩) := by
  have hfactor : Below (BitPattern.mk [.one, .one, .top, .top, .zero, .zero])
      ⟨[.one, .top, .top, .top, .zero, .zero]⟩ := by
    rfl
  have hwidth : (BitPattern.mk [.one, .one, .top, .top, .zero, .zero]).width =
      (BitPattern.mk [.zero, .top, .top, .top, .zero, .zero]).width := by
    rfl
  have hproduct := products_monotone hwidth (by simp [Reached]) (by simp [Reached]) hfactor
    (LawfulJoin.refl _)
  exact ⟨by decide, by decide, hproduct.1⟩

end BitPattern

end FlowHistory
