import FlowHistory.Proofs.BitConstants

/-!
# Sums and products are best patterns

The best pattern for the results of an operation is the join of the patterns of all of them, for all words
that the operands describe. Sums, differences and negations of reached patterns are best at every width: an
unknown carry takes both values for some words below it, so along the chain of carries every unknown bit is
attained both ways. A product is best unless only the rule of the zeros at the ends applies, and then it is
above the best pattern.
-/
namespace FlowHistory

namespace BitPattern

variable {a b p q r : BitPattern} {w : Nat} {x y : BitVec w}

theorem describes_iff_forall_fin :
    p.Describes x ↔ p.width = w ∧ ∀ i : Fin p.bits.length, (p.bits.get i).Admits (x.getLsbD i) := by
  constructor
  · intro h
    exact ⟨h.width_eq, fun i => h.admits i _ (List.getElem?_eq_getElem i.isLt)⟩
  · rintro ⟨hw, h⟩
    refine ⟨hw, fun i b hb => ?_⟩
    obtain ⟨hi, rfl⟩ := List.getElem?_eq_some_iff.1 hb
    exact h ⟨i, hi⟩

instance (p : BitPattern) (x : BitVec w) : Decidable (p.Describes x) :=
  decidable_of_iff' _ describes_iff_forall_fin

/-- All words of `w` bits that the pattern describes. -/
def described (p : BitPattern) (w : Nat) : List (BitVec w) :=
  ((List.range (2 ^ w)).map (BitVec.ofNat w)).filter fun x => p.Describes x

theorem mem_described : x ∈ p.described w ↔ p.Describes x := by
  have hmem : x ∈ (List.range (2 ^ w)).map (BitVec.ofNat w) :=
    List.mem_map.2 ⟨x.toNat, List.mem_range.2 x.isLt, by simp⟩
  rw [described, List.mem_filter, decide_eq_true_iff]
  exact and_iff_right hmem

/-- The results of an operation on words that two patterns describe. -/
def outcomes (f : BitVec w → BitVec w → BitVec w) (a b : BitPattern) : List (BitVec w) :=
  (a.described w).flatMap fun x => (b.described w).map fun y => f x y

theorem mem_outcomes {f : BitVec w → BitVec w → BitVec w} {z : BitVec w} :
    z ∈ outcomes f a b ↔ ∃ x y, a.Describes x ∧ b.Describes y ∧ f x y = z := by
  simp only [outcomes, List.mem_flatMap, List.mem_map, mem_described]
  constructor
  · rintro ⟨x, hx, y, hy, rfl⟩
    exact ⟨x, y, hx, hy, rfl⟩
  · rintro ⟨x, y, hx, hy, rfl⟩
    exact ⟨x, hx, y, hy, rfl⟩

/-- The join of the patterns of words of one width. -/
def joinWords (l : List (BitVec w)) : Except Fault BitPattern :=
  (l.map ofBitVec).foldlM LatticeValue.join (bottom w)

/-- Each bit admits exactly what some of the words have at its position. -/
structure Joins (p : BitPattern) (l : List (BitVec w)) : Prop where
  width_eq : p.width = w
  admits_iff : ∀ (i : Nat) (c : Bit) (v : Bool), p.bits[i]? = some c →
    (c.Admits v ↔ ∃ z ∈ l, z.getLsbD i = v)

/-- No join of patterns of one width is refused. -/
theorem foldlM_join_eq {l : List (BitVec w)} (hp : p.width = w) :
    (l.map ofBitVec).foldlM LatticeValue.join p = .ok ((l.map ofBitVec).foldl union p) := by
  induction l generalizing p with
  | nil => rfl
  | cons x l ih =>
    have hw : p.width = (ofBitVec x).width := hp.trans (width_ofBitVec x).symm
    rw [List.map_cons, List.foldlM_cons, join_eq_ok.2 ⟨hw, rfl⟩]
    exact ih ((width_union hw).trans hp)

theorem joins_foldl_union (l : List (BitVec w)) : ((l.map ofBitVec).foldl union (bottom w)).Joins l :=
  ⟨width_foldl_union (width_filled w _), fun _ _ _ hc => admits_foldl_union_bottom hc⟩

theorem exists_joins (l : List (BitVec w)) : ∃ p, joinWords l = .ok p ∧ p.Joins l :=
  ⟨_, foldlM_join_eq (width_filled w _), joins_foldl_union l⟩

/-- The join may start from the first word as well, if there is one. -/
theorem joinWords_cons (x : BitVec w) (l : List (BitVec w)) :
    joinWords (x :: l) = (l.map ofBitVec).foldlM LatticeValue.join (ofBitVec x) := by
  have hfirst : LatticeValue.join (bottom w) (ofBitVec x) = .ok (ofBitVec x) := by
    have hle := bottom_le (ofBitVec x)
    rw [width_ofBitVec] at hle
    exact below_iff.2 hle
  rw [joinWords, List.map_cons, List.foldlM_cons, hfirst]
  rfl

namespace Joins

variable {l : List (BitVec w)}

/-- A join is below every pattern that describes all of the words. -/
theorem le (hp : p.Joins l) (hw : r.width = w) (hsound : ∀ z ∈ l, r.Describes z) : p.Le r := by
  refine le_iff_getElem?.2 ⟨hp.width_eq.trans hw.symm, fun i c d hc hd => ?_⟩
  refine Bit.le_iff_admits.2 fun v hv => ?_
  obtain ⟨z, hz, rfl⟩ := (hp.admits_iff i c v hc).1 hv
  exact (hsound z hz).admits i d hd

theorem describes (hp : p.Joins l) : ∀ z ∈ l, p.Describes z := by
  intro z hz
  exact ⟨hp.width_eq, fun i c hc => (hp.admits_iff i c _ hc).2 ⟨z, hz, rfl⟩⟩

theorem unique (hp : p.Joins l) (hq : q.Joins l) : p = q := by
  have hpq := hp.le hq.width_eq hq.describes
  have hqp := hq.le hp.width_eq hp.describes
  exact LawfulJoin.antisymm (below_iff.2 hpq) (below_iff.2 hqp)

theorem joinWords_eq (hp : p.Joins l) : joinWords l = .ok p := by
  obtain ⟨q, hq, hjoins⟩ := exists_joins l
  rw [hq, hjoins.unique hp]

/-- In which order the words are joined, and how often each, makes no difference. -/
theorem congr {l' : List (BitVec w)} (hp : p.Joins l) (h : ∀ z, z ∈ l ↔ z ∈ l') : p.Joins l' := by
  refine ⟨hp.width_eq, fun i c v hc => ?_⟩
  simp only [hp.admits_iff i c v hc, h]

end Joins

theorem members_ne_nil (l : List Bit) : members l ≠ [] := by
  induction l with
  | nil => simp [members]
  | cons b r ih =>
    obtain ⟨n, hn⟩ := List.exists_mem_of_ne_nil _ ih
    obtain ⟨v, hv⟩ : ∃ v, v ∈ b.choices := by cases b <;> simp [Bit.choices]
    exact List.ne_nil_of_mem (List.mem_flatMap.2 ⟨n, hn, List.mem_map.2 ⟨v, hv, rfl⟩⟩)

/-- There is a first product. From it on, and in whatever order the products come, no join of them is
refused. -/
theorem productOfMembers_eq_foldlM (a b : BitPattern) : productWords a b ≠ [] ∧
    ∀ x l, (∀ z, z ∈ x :: l ↔ z ∈ productWords a b) →
      (l.map ofBitVec).foldlM LatticeValue.join (ofBitVec x) = .ok (productOfMembers a b) := by
  constructor
  · simp [productWords, members_ne_nil, List.exists_mem_of_ne_nil]
  · intro x l h
    have hjoins : (productOfMembers a b).Joins (productWords a b) :=
      productOfMembers_eq a b ▸ joins_foldl_union _
    rw [← joinWords_cons]
    exact (hjoins.congr fun z => (h z).symm).joinWords_eq

/-- A pattern that describes all outcomes is their join, if each value of each of its bits occurs in one
of them. -/
theorem joins_outcomes {f : BitVec w → BitVec w → BitVec w} (hw : r.width = w)
    (hsound : ∀ x y, a.Describes x → b.Describes y → r.Describes (f x y))
    (hattained : ∀ (i : Nat) (c : Bit) (v : Bool), r.bits[i]? = some c → c.Admits v →
      ∃ x y, a.Describes x ∧ b.Describes y ∧ (f x y).getLsbD i = v) : r.Joins (outcomes f a b) := by
  refine ⟨hw, fun i c v hc => ⟨fun hv => ?_, ?_⟩⟩
  · obtain ⟨x, y, hx, hy, hbit⟩ := hattained i c v hc hv
    exact ⟨_, mem_outcomes.2 ⟨x, y, hx, hy, rfl⟩, hbit⟩
  · rintro ⟨z, hz, rfl⟩
    obtain ⟨x, y, hx, hy, rfl⟩ := mem_outcomes.1 hz
    exact (hsound x y hx hy).admits i c hc

/-! Sums. -/

theorem exists_admitted {xs : List Bit} (h : ∀ b ∈ xs, b ≠ .bottom) :
    ∃ us : List Bool, List.Forall₂ Bit.Admits xs us := by
  induction xs with
  | nil => exact ⟨[], .nil⟩
  | cons x xs ih =>
    rw [List.forall_mem_cons] at h
    obtain ⟨us, hus⟩ := ih h.2
    exact ⟨_ :: us, .cons (Bit.admits_known h.1) hus⟩

theorem exists_sumBit : ∀ {x y z : Bit} {v : Bool}, x ≠ .bottom → y ≠ .bottom → z ≠ .bottom →
    (sumBit x y z).Admits v → ∃ p q r, x.Admits p ∧ y.Admits q ∧ z.Admits r ∧
      sumBit (.ofBool p) (.ofBool q) (.ofBool r) = .ofBool v := by
  decide

theorem exists_carry : ∀ {x y z : Bit} {v : Bool}, x ≠ .bottom → y ≠ .bottom → z ≠ .bottom →
    (carry x y z).Admits v → ∃ p q r, x.Admits p ∧ y.Admits q ∧ z.Admits r ∧
      carry (.ofBool p) (.ofBool q) (.ofBool r) = .ofBool v := by
  decide

/-- Each value that a rippled bit admits is the bit of a sum of known bits that the operands admit. The
bits of a position and the carry into it can be chosen apart from each other, since the carry depends on
lower positions only. -/
theorem exists_ripple {c : Bit} {xs ys : List Bit} (hx : ∀ b ∈ xs, b ≠ .bottom)
    (hy : ∀ b ∈ ys, b ≠ .bottom) (hc : c ≠ .bottom) {i : Nat} {b : Bit} {v : Bool}
    (hb : (ripple c xs ys)[i]? = some b) (hv : b.Admits v) :
    ∃ us vs r, List.Forall₂ Bit.Admits xs us ∧ List.Forall₂ Bit.Admits ys vs ∧ c.Admits r ∧
      (ripple (.ofBool r) (us.map .ofBool) (vs.map .ofBool))[i]? = some (.ofBool v) := by
  induction xs generalizing c ys i with
  | nil => simp [ripple] at hb
  | cons x xs ih =>
    cases ys with
    | nil => simp [ripple] at hb
    | cons y ys =>
      rw [List.forall_mem_cons] at hx hy
      cases i with
      | zero =>
        cases hb
        obtain ⟨us, hus⟩ := exists_admitted hx.2
        obtain ⟨vs, hvs⟩ := exists_admitted hy.2
        obtain ⟨p, q, r, hp, hq, hr, hsum⟩ := exists_sumBit hx.1 hy.1 hc hv
        exact ⟨p :: us, q :: vs, r, .cons hp hus, .cons hq hvs, hr, congrArg some hsum⟩
      | succ i =>
        have hcarry := carry_ne_bottom hx.1 hy.1 hc
        obtain ⟨us, vs, s, hus, hvs, hs, hbit⟩ := ih hx.2 hy.2 hcarry (by simpa [ripple] using hb)
        -- the carry that the rest of the sum needs comes out of this position
        obtain ⟨p, q, r, hp, hq, hr, hout⟩ := exists_carry hx.1 hy.1 hc hs
        refine ⟨p :: us, q :: vs, r, .cons hp hus, .cons hq hvs, hr, ?_⟩
        simpa [ripple, hout] using hbit

/-- Values that the bits of a pattern admit make up a word that it describes. -/
theorem exists_word {us : List Bool} (hw : p.width = w) (h : List.Forall₂ Bit.Admits p.bits us) :
    ∃ x : BitVec w, p.Describes x ∧ (ofBitVec x).bits = us.map .ofBool := by
  have hlen : us.length = w := h.length_eq.symm.trans hw
  subst hlen
  refine ⟨BitVec.ofBoolListLE us, ⟨hw, fun i c hc => ?_⟩, ?_⟩
  · obtain ⟨hi, rfl⟩ := List.getElem?_eq_some_iff.1 hc
    have hius : i < us.length := h.length_eq ▸ hi
    rw [BitVec.getLsbD_ofBoolListLE, List.getD_eq_getElem?_getD, List.getElem?_eq_getElem hius]
    exact h.get hi hius
  · refine List.ext_getElem (by simp [ofBitVec]) fun i _ hi => ?_
    have hius : i < us.length := by simpa using hi
    simp [ofBitVec, BitVec.getLsbD_ofBoolListLE, hius]

theorem attained_addWithCarry {c d : Bit} {i : Nat} {v : Bool} (ha : a.Reached) (hb : b.Reached)
    (hc : c ≠ .bottom) (hwa : a.width = w) (hwb : b.width = w)
    (hd : (addWithCarry a b c).bits[i]? = some d) (hv : d.Admits v) :
    ∃ (x y : BitVec w) (t : Bool), a.Describes x ∧ b.Describes y ∧ c.Admits t ∧
      (x + y + BitVec.setWidth w (BitVec.ofBool t)).getLsbD i = v := by
  obtain ⟨us, vs, t, hus, hvs, ht, hbit⟩ := exists_ripple ha hb hc hd hv
  obtain ⟨x, hx, hxbits⟩ := exists_word hwa hus
  obtain ⟨y, hy, hybits⟩ := exists_word hwb hvs
  have hsum := (describes_ofBitVec x).addWithCarry (describes_ofBitVec y) (Bit.admits_ofBool t)
  rw [← hxbits, ← hybits] at hbit
  exact ⟨x, y, t, hx, hy, ht, (Bit.admits_ofBool_iff.1 (hsum.admits i _ hbit)).symm⟩

theorem attained_add {c : Bit} {i : Nat} {v : Bool} (ha : a.Reached) (hb : b.Reached)
    (hwa : a.width = w) (hwb : b.width = w) (hc : (a.add b).bits[i]? = some c) (hv : c.Admits v) :
    ∃ x y : BitVec w, a.Describes x ∧ b.Describes y ∧ (x + y).getLsbD i = v := by
  rw [add, widen_of_width_eq (hwa.trans hwb.symm)] at hc
  obtain ⟨x, y, t, hx, hy, ht, hbit⟩ := attained_addWithCarry ha hb (by decide) hwa hwb hc hv
  rw [← (Bit.admits_ofBool_iff (u := false)).1 ht] at hbit
  exact ⟨x, y, hx, hy, by simpa using hbit⟩

theorem map_not_map_not (p : BitPattern) : (p.map Bit.not).map Bit.not = p := by
  have hnot : ∀ b : Bit, b.not.not = b := by decide
  simp [map, Function.comp_def, hnot]

/-- What the complement describes are the complements of what the pattern describes. -/
theorem Describes.of_map_not (h : (p.map Bit.not).Describes x) : p.Describes (~~~x) := by
  rw [← map_not_map_not p]
  exact h.not

theorem attained_sub {c : Bit} {i : Nat} {v : Bool} (ha : a.Reached) (hb : b.Reached)
    (hwa : a.width = w) (hwb : b.width = w) (hc : (a.sub b).bits[i]? = some c) (hv : c.Admits v) :
    ∃ x y : BitVec w, a.Describes x ∧ b.Describes y ∧ (x - y).getLsbD i = v := by
  rw [sub, widen_of_width_eq (hwa.trans hwb.symm)] at hc
  obtain ⟨x, y, t, hx, hy, ht, hbit⟩ :=
    attained_addWithCarry ha (reached_map_not hb) (by decide) hwa ((width_map _ b).trans hwb) hc hv
  refine ⟨x, ~~~y, hx, hy.of_map_not, ?_⟩
  rw [BitVec.sub_eq_add_neg, BitVec.neg_eq_not_add, BitVec.not_not, ← BitVec.add_assoc]
  rwa [← (Bit.admits_ofBool_iff (u := true)).1 ht, setWidth_ofBool_true] at hbit

theorem eq_of_describes_ofBitVec (h : (ofBitVec x).Describes y) : y = x := by
  refine BitVec.eq_of_getLsbD_eq fun i hi => ?_
  exact (Bit.admits_ofBool_iff.1 (h.admits i _ (getElem?_ofBitVec.2 ⟨hi, rfl⟩))).symm

theorem attained_neg {c : Bit} {i : Nat} {v : Bool} (ha : a.Reached) (hwa : a.width = w)
    (hc : a.neg.bits[i]? = some c) (hv : c.Admits v) :
    ∃ x : BitVec w, a.Describes x ∧ (-x).getLsbD i = v := by
  subst hwa
  obtain ⟨x, y, hx, hy, hbit⟩ :=
    attained_add (reached_map_not ha) (reached_constant 1 _) (width_map _ a) (width_constant 1 _) hc hv
  refine ⟨~~~x, hx.of_map_not, ?_⟩
  rw [BitVec.neg_eq_not_add, BitVec.not_not]
  rwa [eq_of_describes_ofBitVec hy] at hbit

theorem width_add (a b : BitPattern) : (a.add b).width = max a.width b.width := by
  simp [add, widen, width_addWithCarry, zeroExtend]

theorem width_sub (a b : BitPattern) : (a.sub b).width = max a.width b.width := by
  simp [sub, widen, width_addWithCarry, zeroExtend]

theorem width_neg (a : BitPattern) : a.neg.width = a.width := by
  simp [neg, width_add]

theorem joins_add (ha : a.Reached) (hb : b.Reached) (hwa : a.width = w) (hwb : b.width = w) :
    (a.add b).Joins (outcomes (fun x y : BitVec w => x + y) a b) := by
  refine joins_outcomes ?_ (fun x y hx hy => hx.add hy) fun i c v => attained_add ha hb hwa hwb
  rw [width_add, hwa, hwb, Nat.max_self]

theorem joins_sub (ha : a.Reached) (hb : b.Reached) (hwa : a.width = w) (hwb : b.width = w) :
    (a.sub b).Joins (outcomes (fun x y : BitVec w => x - y) a b) := by
  refine joins_outcomes ?_ (fun x y hx hy => hx.sub hy) fun i c v => attained_sub ha hb hwa hwb
  rw [width_sub, hwa, hwb, Nat.max_self]

theorem joins_neg (ha : a.Reached) (hwa : a.width = w) :
    a.neg.Joins ((a.described w).map fun x => -x) := by
  refine ⟨(width_neg a).trans hwa, fun i c v hc => ⟨fun hv => ?_, ?_⟩⟩
  · obtain ⟨x, hx, hbit⟩ := attained_neg ha hwa hc hv
    exact ⟨_, List.mem_map.2 ⟨x, mem_described.2 hx, rfl⟩, hbit⟩
  · rintro ⟨z, hz, rfl⟩
    obtain ⟨x, hx, rfl⟩ := List.mem_map.1 hz
    exact (mem_described.1 hx).neg.admits i c hc

/-- Sums, differences and negations of reached patterns are the joins of those of all words that the
operands describe. -/
theorem sums_best (ha : a.Reached) (hb : b.Reached) (hwa : a.width = w) (hwb : b.width = w) :
    joinWords (outcomes (fun x y : BitVec w => x + y) a b) = .ok (a.add b) ∧
    joinWords (outcomes (fun x y : BitVec w => x - y) a b) = .ok (a.sub b) ∧
    joinWords ((a.described w).map fun x => -x) = .ok a.neg :=
  ⟨(joins_add ha hb hwa hwb).joinWords_eq, (joins_sub ha hb hwa hwb).joinWords_eq,
    (joins_neg ha hwa).joinWords_eq⟩

/-- With 2 or 3 for the one operand and 3 for the other: the carry out of the middle position is known
although the one into it is not. -/
theorem sums_best_two_or_three :
    joinWords (outcomes (fun x y : BitVec 3 => x + y) ⟨[.top, .one, .zero]⟩ ⟨[.one, .one, .zero]⟩) =
      .ok ⟨[.top, .top, .one]⟩ ∧
    joinWords (outcomes (fun x y : BitVec 3 => x - y) ⟨[.top, .one, .zero]⟩ ⟨[.one, .one, .zero]⟩) =
      .ok ⟨[.top, .top, .top]⟩ ∧
    joinWords ((BitPattern.described ⟨[.top, .one, .zero]⟩ 3).map fun x => -x) =
      .ok ⟨[.top, .top, .one]⟩ := by
  obtain ⟨hadd, hsub, hneg⟩ := sums_best (w := 3) (a := ⟨[.top, .one, .zero]⟩) (b := ⟨[.one, .one, .zero]⟩)
    (by simp [Reached]) (by simp [Reached]) rfl rfl
  exact ⟨hadd.trans (by decide), hsub.trans (by decide), hneg.trans (by decide)⟩

/-! Products. -/

/-- A power of two is recognised as one, unless it is too large for the width and so zero. -/
theorem powerOfTwo?_or_isZero (w k : Nat) :
    (constant (2 ^ k) w).powerOfTwo? = some k ∨ (constant (2 ^ k) w).isZero = true := by
  have hword : BitVec.ofInt w (2 ^ k) = BitVec.twoPow w k := by
    have hcast : (2 ^ k : Int) = ((2 ^ k : Nat) : Int) := by simp
    refine BitVec.eq_of_toNat_eq ?_
    rw [hcast, BitVec.ofInt_natCast, BitVec.toNat_twoPow, BitVec.toNat_ofNat]
  rw [constant, hword]
  by_cases hk : k < w
  · left
    rw [powerOfTwo?_eq_some_iff, toRaw_ofBitVec, BitVec.toNat_twoPow_of_lt hk]
  · right
    have hzero : BitVec.twoPow w k = BitVec.ofInt w 0 :=
      BitVec.eq_of_toNat_eq (by simp [BitVec.toNat_twoPow_of_le (Nat.le_of_not_lt hk)])
    have heq : ofBitVec (BitVec.twoPow w k) = zero w := by rw [hzero, zero_eq_constant, constant]
    simp [heq, isZero, zero, filled]

theorem specialCount_of_isConstant (h : a.isConstant = true) : a.specialCount = 0 := by
  obtain ⟨n, hn⟩ := exists_toRaw h
  exact specialCount_of_toRaw hn

/-- The rule of the zeros at the ends is the last: it waits for factors that are not both constant, of
which none is zero or a power of two and that have many unknown bits. -/
theorem not_byZeros (h : a.isConstant = true ∧ b.isConstant = true ∨ a.isZero = true ∨ b.isZero = true ∨
    (∃ k, a = constant (2 ^ k) w) ∨ (∃ k, b = constant (2 ^ k) w) ∨ a.specialCount + b.specialCount ≤ 5) :
    ¬ ByZeros a b := by
  intro hby
  have hpower : ∀ {p : BitPattern}, (∃ k, p = constant (2 ^ k) w) → p.isZero = false →
      p.powerOfTwo? ≠ none := by
    rintro p ⟨k, rfl⟩ hzero
    rcases powerOfTwo?_or_isZero w k with hk | hk
    · simp [hk]
    · simp [hk] at hzero
  have hmany : 5 < a.specialCount + b.specialCount := hby.many_special
  rcases h with ⟨ha, hb⟩ | h | h | h | h | h
  · rw [specialCount_of_isConstant ha, specialCount_of_isConstant hb] at hmany
    omega
  · simp [hby.left_ne_zero] at h
  · simp [hby.right_ne_zero] at h
  · exact hpower h hby.left_ne_zero hby.left_not_power
  · exact hpower h hby.right_ne_zero hby.right_not_power
  · omega

/-- Above the join of some words, a bit is that of the join or unknown. -/
theorem Joins.bit_cases {l : List (BitVec w)} (hp : p.Joins l) (hl : l ≠ []) (hle : p.Le r) {i : Nat}
    (hi : i < w) : r.bit? i = some .top ∨ r.bit? i = p.bit? i := by
  have hbit : ∀ {c d : Bit}, c.Le d → c ≠ .bottom → d = .top ∨ d = c := by decide
  obtain ⟨z, hz⟩ := List.exists_mem_of_ne_nil l hl
  obtain ⟨c, hc⟩ := exists_bit (hp.width_eq.symm ▸ hi)
  obtain ⟨d, hd⟩ := exists_bit (hle.width_eq ▸ lt_width hc)
  have hcd := (le_iff_getElem?.1 hle).2 i c d hc hd
  rw [bit?, bit?, hc, hd]
  rcases hbit hcd ((hp.describes z hz).admits i c hc).ne_bottom with rfl | rfl
  · exact .inl rfl
  · exact .inr rfl

/-- A product of reached patterns is above the join of the products of all words that the factors
describe, so that a bit of it is that of the join or unknown. It is that join if both factors are
constant, if one of them is zero or a power of two, or if at most five bits of them are unknown. -/
theorem products_best (ha : a.Reached) (hb : b.Reached) (hwa : a.width = w) (hwb : b.width = w) :
    ∃ best, joinWords (outcomes (fun x y : BitVec w => x * y) a b) = .ok best ∧ best.Le (a.mul b) ∧
      (∀ i < w, (a.mul b).bit? i = some .top ∨ (a.mul b).bit? i = best.bit? i) ∧
      (a.isConstant = true ∧ b.isConstant = true ∨ a.isZero = true ∨ b.isZero = true ∨
        (∃ k, a = constant (2 ^ k) w) ∨ (∃ k, b = constant (2 ^ k) w) ∨
        a.specialCount + b.specialCount ≤ 5 → a.mul b = best) := by
  have hw := width_mul ha hb hwa hwb
  have hsound : ∀ z ∈ outcomes (fun x y : BitVec w => x * y) a b, (a.mul b).Describes z := by
    intro z hz
    obtain ⟨x, y, hx, hy, rfl⟩ := mem_outcomes.1 hz
    exact hx.mul hy
  have hsome : outcomes (fun x y : BitVec w => x * y) a b ≠ [] := by
    obtain ⟨x, hx⟩ := ha.exists_describes hwa
    obtain ⟨y, hy⟩ := hb.exists_describes hwb
    exact List.ne_nil_of_mem (mem_outcomes.2 ⟨x, y, hx, hy, rfl⟩)
  obtain ⟨best, hbest, hjoins⟩ := exists_joins (outcomes (fun x y : BitVec w => x * y) a b)
  have hle := hjoins.le hw hsound
  refine ⟨best, hbest, hle, fun i hi => hjoins.bit_cases hsome hle hi, fun hrule => ?_⟩
  rcases attained_mul_or_byZeros ha hb hwa hwb with hattained | ⟨hby, -⟩
  · exact (joins_outcomes hw (fun x y hx hy => hx.mul hy) hattained).unique hjoins
  · exact absurd hby (not_byZeros hrule)

/-- An unknown byte by four, with eight unknown bits; 2 or 3 by 3, where the products 6 and 9 are joined;
and ten unknown bits, where six zeros at the upper end remain. -/
theorem products_best_small :
    joinWords (outcomes (fun x y : BitVec 8 => x * y) (top 8) (constant (2 ^ 2) 8)) =
      .ok ⟨List.replicate 2 Bit.zero ++ List.replicate 6 Bit.top⟩ ∧
    joinWords (outcomes (fun x y : BitVec 8 => x * y) ⟨.top :: .one :: List.replicate 6 Bit.zero⟩
        (constant 3 8)) = .ok ⟨List.replicate 4 Bit.top ++ List.replicate 4 Bit.zero⟩ ∧
    ∃ best, joinWords (outcomes (fun x y : BitVec 16 => x * y)
        ⟨List.replicate 4 Bit.top ++ List.replicate 12 Bit.zero⟩
        ⟨List.replicate 6 Bit.top ++ List.replicate 10 Bit.zero⟩) = .ok best ∧
      best.Le ⟨List.replicate 10 Bit.top ++ List.replicate 6 Bit.zero⟩ := by
  refine ⟨?_, ?_, ?_⟩
  · obtain ⟨best, hbest, -, -, hrule⟩ := products_best (w := 8) (a := top 8) (b := constant (2 ^ 2) 8)
      (reached_filled (by decide)) (reached_constant _ _) rfl rfl
    rw [hbest, ← hrule (.inr (.inr (.inr (.inr (.inl ⟨2, rfl⟩)))))]
    rfl
  · obtain ⟨best, hbest, -, -, hrule⟩ := products_best (w := 8)
      (a := ⟨.top :: .one :: List.replicate 6 Bit.zero⟩) (b := constant 3 8)
      (by simp [Reached]) (reached_constant _ _) rfl rfl
    rw [hbest, ← hrule (.inr (.inr (.inr (.inr (.inr (by decide))))))]
    rfl
  · obtain ⟨best, hbest, hle, -⟩ := products_best (w := 16)
      (a := ⟨List.replicate 4 Bit.top ++ List.replicate 12 Bit.zero⟩)
      (b := ⟨List.replicate 6 Bit.top ++ List.replicate 10 Bit.zero⟩)
      (by simp [Reached]) (by simp [Reached]) rfl rfl
    have hproduct : mul ⟨List.replicate 4 Bit.top ++ List.replicate 12 Bit.zero⟩
        ⟨List.replicate 6 Bit.top ++ List.replicate 10 Bit.zero⟩ =
          ⟨List.replicate 10 Bit.top ++ List.replicate 6 Bit.zero⟩ := by
      decide +kernel
    rw [hproduct] at hle
    exact ⟨best, hbest, hle⟩

end BitPattern

end FlowHistory
