import FlowHistory.Proofs.BitMeaning

/-!
# Products of bit patterns

All rules for a product are sound. All but the last are also exact: each value that the result admits
at a position is the bit of some product there. The last rule only counts zeros at the ends; it applies
only while it also applies to all patterns above the factors, and there it is monotone by itself. So
the product is monotone on reached patterns, although the rule may change from one to the next.
-/
namespace FlowHistory.BitPattern

variable {a b a' b' : BitPattern} {w : Nat} {x y : BitVec w}

theorem getLsbD_mul {i : Nat} (hi : i < w) :
    (x * y).getLsbD i = (x.toNat * y.toNat).testBit i := by
  rw [← BitVec.testBit_toNat, BitVec.toNat_mul, Nat.testBit_mod_two_pow, decide_eq_true hi, Bool.true_and]

/-! The members of a pattern. -/

theorem mem_members {l : List Bit} {n : Nat} : n ∈ members l ↔
    n < 2 ^ l.length ∧ ∀ (i : Nat) (b : Bit), l[i]? = some b → n.testBit i ∈ b.choices := by
  induction l generalizing n with
  | nil => simp [members]
  | cons c r ih =>
    simp only [members, List.mem_flatMap, List.mem_map, ih]
    constructor
    · rintro ⟨high, ⟨hlt, hbits⟩, low, hlow, rfl⟩
      have hlow' := Bool.toNat_lt low
      have hdiv : (low.toNat + 2 * high) / 2 = high := by omega
      have hmod : (low.toNat + 2 * high) % 2 = low.toNat := by omega
      refine ⟨by rw [List.length_cons, Nat.pow_succ]; omega, fun i b hb => ?_⟩
      cases i with
      | zero =>
        cases hb
        rw [Nat.testBit_zero, hmod]
        cases low <;> exact hlow
      | succ i =>
        rw [Nat.testBit_succ, hdiv]
        exact hbits i b (by simpa using hb)
    · rintro ⟨hlt, hbits⟩
      rw [List.length_cons, Nat.pow_succ] at hlt
      refine ⟨n / 2, ⟨by omega, fun i b hb => ?_⟩, n.testBit 0, hbits 0 c rfl, ?_⟩
      · rw [← Nat.testBit_succ]
        exact hbits (i + 1) b (by simpa using hb)
      · rw [Nat.testBit_zero]
        rcases Nat.mod_two_eq_zero_or_one n with h | h <;> simp [h] <;> omega

/-- The members of a reached pattern are the words that it describes. -/
theorem Reached.mem_members_iff (ha : a.Reached) (hw : a.width = w) :
    x.toNat ∈ members a.bits ↔ a.Describes x := by
  rw [mem_members]
  constructor
  · rintro ⟨-, hbits⟩
    refine ⟨hw, fun i b hb => ?_⟩
    rw [← BitVec.testBit_toNat]
    exact (Bit.mem_choices (ha b (List.mem_of_getElem? hb))).1 (hbits i b hb)
  · intro hx
    have hlen : a.bits.length = w := hw
    refine ⟨hlen ▸ x.isLt, fun i b hb => ?_⟩
    rw [BitVec.testBit_toNat]
    exact (Bit.mem_choices (ha b (List.mem_of_getElem? hb))).2 (hx.admits i b hb)

theorem width_foldl_union {l : List (BitVec w)} {p : BitPattern} (hw : p.width = w) :
    ((l.map ofBitVec).foldl union p).width = w := by
  induction l generalizing p with
  | nil => exact hw
  | cons x l ih => exact ih ((width_union (hw.trans (width_ofBitVec x).symm)).trans hw)

/-- Joining the patterns of words admits at a position what any of the words has there. -/
theorem admits_foldl_union {l : List (BitVec w)} {p : BitPattern} {i : Nat} {b : Bit} {v : Bool}
    (hw : p.width = w) (hb : ((l.map ofBitVec).foldl union p).bits[i]? = some b) :
    b.Admits v ↔ (∃ c, p.bits[i]? = some c ∧ c.Admits v) ∨ ∃ x ∈ l, x.getLsbD i = v := by
  induction l generalizing p with
  | nil =>
    rw [List.map_nil, List.foldl_nil] at hb
    simp [hb]
  | cons x l ih =>
    have hunion : (p.union (ofBitVec x)).width = w :=
      (width_union (hw.trans (width_ofBitVec x).symm)).trans hw
    have hstep : (∃ c, (p.union (ofBitVec x)).bits[i]? = some c ∧ c.Admits v) ↔
        (∃ c, p.bits[i]? = some c ∧ c.Admits v) ∨ x.getLsbD i = v := by
      have hi := lt_width hb
      rw [width_foldl_union hw, ← hunion] at hi
      obtain ⟨c, hc⟩ := exists_bit hi
      obtain ⟨c₀, c₁, h₀, h₁, rfl⟩ := getElem?_union hc
      obtain ⟨-, rfl⟩ := getElem?_ofBitVec.1 h₁
      simp [hc, h₀, Bit.admits_join, Bit.admits_ofBool_iff]
    have hrest := ih hunion hb
    rw [hstep] at hrest
    simpa only [List.mem_cons, exists_eq_or_imp, or_assoc] using hrest

/-- From the bottom on, nothing is admitted but what the words have. -/
theorem admits_foldl_union_bottom {l : List (BitVec w)} {i : Nat} {b : Bit} {v : Bool}
    (hb : ((l.map ofBitVec).foldl union (bottom w)).bits[i]? = some b) :
    b.Admits v ↔ ∃ x ∈ l, x.getLsbD i = v := by
  have hbottom : ¬ ∃ c, (bottom w).bits[i]? = some c ∧ c.Admits v := by
    rintro ⟨c, hc, hv⟩
    rw [(getElem?_filled.1 hc).2] at hv
    exact hv.ne_bottom rfl
  rw [admits_foldl_union (width_filled w _) hb]
  exact or_iff_right hbottom

/-- The products of the members, as words. -/
def productWords (a b : BitPattern) : List (BitVec a.width) :=
  ((members a.bits).flatMap fun x => (members b.bits).map fun y => x * y).map (BitVec.ofNat a.width)

theorem productOfMembers_eq (a b : BitPattern) :
    productOfMembers a b = ((productWords a b).map ofBitVec).foldl union (bottom a.width) := by
  rw [productWords, List.map_map, List.foldl_map]
  rfl

theorem width_productOfMembers (a b : BitPattern) : (productOfMembers a b).width = a.width := by
  rw [productOfMembers_eq]
  exact width_foldl_union (width_filled _ _)

theorem admits_productOfMembers {i : Nat} {c : Bit} {v : Bool}
    (hc : (productOfMembers a b).bits[i]? = some c) : c.Admits v ↔
      ∃ m ∈ members a.bits, ∃ n ∈ members b.bits, i < a.width ∧ (m * n).testBit i = v := by
  have hi := lt_width hc
  rw [width_productOfMembers] at hi
  rw [productOfMembers_eq] at hc
  rw [admits_foldl_union_bottom hc]
  have hbit : ∀ n, (BitVec.ofNat a.width n).getLsbD i = n.testBit i := by
    intro n
    rw [BitVec.getLsbD_ofNat, decide_eq_true hi, Bool.true_and]
  simp only [productWords, List.mem_flatMap, List.mem_map]
  constructor
  · rintro ⟨_, ⟨_, ⟨m, hm, n, hn, rfl⟩, rfl⟩, hv⟩
    exact ⟨m, hm, n, hn, hi, (hbit _).symm.trans hv⟩
  · rintro ⟨m, hm, n, hn, -, hv⟩
    exact ⟨_, ⟨_, ⟨m, hm, n, hn, rfl⟩, rfl⟩, (hbit _).trans hv⟩

/-! Zeros at the ends. -/

theorem getElem?_of_lt_takeWhile {l : List Bit} {i : Nat} (hi : i < (l.takeWhile (· == .zero)).length) :
    l[i]? = some .zero := by
  induction l generalizing i with
  | nil => simp at hi
  | cons c r ih =>
    by_cases hc : c = .zero
    · subst hc
      cases i with
      | zero => rfl
      | succ i => simpa using ih (by simpa using hi)
    · simp [hc] at hi

/-- Patterns that grow lose zeros at their ends. -/
theorem length_takeWhile_le {xs ys : List Bit} (h : List.Forall₂ Bit.Le xs ys)
    (hxs : ∀ b ∈ xs, b ≠ .bottom) :
    (ys.takeWhile (· == .zero)).length ≤ (xs.takeWhile (· == .zero)).length := by
  have hzero : ∀ {b c : Bit}, b.Le c → b ≠ .bottom → c = .zero → b = .zero := by decide
  induction h with
  | nil => exact Nat.le_refl 0
  | @cons b c xs ys hbc _ ih =>
    by_cases hc : c = .zero
    · have hb := hzero hbc (hxs b (by simp)) hc
      simpa [hb, hc] using ih fun d hd => hxs d (by simp [hd])
    · simp [hc]

theorem bit_of_lt_trailingZeros {i : Nat} (hi : i < a.trailingZeros) : a.bits[i]? = some .zero :=
  getElem?_of_lt_takeWhile hi

theorem leadingZeros_le_width (a : BitPattern) : a.leadingZeros ≤ a.width := by
  have := (List.takeWhile_sublist (l := a.bits.reverse) (· == Bit.zero)).length_le
  simpa [leadingZeros, width] using this

theorem bit_of_leadingZeros {i : Nat} (hi : i < a.width) (hge : a.width - a.leadingZeros ≤ i) :
    a.bits[i]? = some .zero := by
  have hlt : a.width - 1 - i < a.leadingZeros := by omega
  have hbit := getElem?_of_lt_takeWhile hlt
  simp only [width] at *
  rw [List.getElem?_reverse (by omega)] at hbit
  rwa [show a.bits.length - 1 - (a.bits.length - 1 - i) = i by omega] at hbit

theorem Describes.dvd_toNat (ha : a.Describes x) : 2 ^ a.trailingZeros ∣ x.toNat := by
  refine Nat.dvd_of_mod_eq_zero (Nat.eq_of_testBit_eq fun i => ?_)
  rw [Nat.testBit_mod_two_pow, Nat.zero_testBit, Bool.and_eq_false_imp, BitVec.testBit_toNat]
  intro hi
  have hadm := ha.admits i _ (bit_of_lt_trailingZeros (of_decide_eq_true hi))
  exact (Bit.admits_ofBool_iff (u := false)).1 hadm |>.symm

theorem Describes.toNat_lt (ha : a.Describes x) : x.toNat < 2 ^ (w - a.leadingZeros) := by
  refine Nat.lt_pow_two_of_testBit _ fun i hi => ?_
  rw [BitVec.testBit_toNat]
  by_cases hiw : i < w
  · rw [← ha.width_eq] at hi hiw
    have hadm := ha.admits i _ (bit_of_leadingZeros hiw hi)
    exact (Bit.admits_ofBool_iff (u := false)).1 hadm |>.symm
  · exact BitVec.getLsbD_of_ge x i (Nat.le_of_not_lt hiw)

theorem width_productByZeros : (productByZeros a b).width = a.width := by
  simp [productByZeros, width]

theorem getElem?_productByZeros {i : Nat} {c : Bit} :
    (productByZeros a b).bits[i]? = some c ↔ i < a.width ∧
      c = if i < min (a.trailingZeros + b.trailingZeros) a.width ∨
        a.width - (a.leadingZeros + b.leadingZeros - a.width) ≤ i then .zero else .top := by
  by_cases hi : i < a.width
  · simp [productByZeros, hi, eq_comm]
  · simp [productByZeros, hi]

theorem Describes.productByZeros (ha : a.Describes x) (hb : b.Describes y) :
    (productByZeros a b).Describes (x * y) := by
  refine ⟨width_productByZeros.trans ha.width_eq, fun i c hc => ?_⟩
  obtain ⟨hi, rfl⟩ := getElem?_productByZeros.1 hc
  rw [ha.width_eq] at *
  rw [getLsbD_mul hi]
  split
  · rename_i hends
    -- a zero at the low end, where both factors are even often enough, or at the high end, where
    -- both are so small that their product does not overflow
    have hzero : (x.toNat * y.toNat).testBit i = false := ?_
    · rw [hzero]
      exact Bit.admits_zero
    rcases hends with hlow | hhigh
    · obtain ⟨m, hm⟩ := Nat.mul_dvd_mul ha.dvd_toNat hb.dvd_toNat
      rw [hm, ← Nat.pow_add, Nat.testBit_two_pow_mul, decide_eq_false (by omega), Bool.false_and]
    · have hwa := a.leadingZeros_le_width
      have hwb := b.leadingZeros_le_width
      rw [ha.width_eq] at hwa
      rw [hb.width_eq] at hwb
      have hprod : x.toNat * y.toNat < 2 ^ (w - a.leadingZeros + (w - b.leadingZeros)) := by
        rw [Nat.pow_add]
        exact Nat.mul_lt_mul'' ha.toNat_lt hb.toNat_lt
      exact Nat.testBit_lt_two_pow (Nat.lt_of_lt_of_le hprod
        (Nat.pow_le_pow_right (by decide) (by omega)))
  · exact Bit.admits_top _

theorem productByZeros_le (ha : a.Reached) (hb : b.Reached) (haa : a.Le a') (hbb : b.Le b') :
    (productByZeros a b).Le (productByZeros a' b') := by
  have hta : a'.trailingZeros ≤ a.trailingZeros := length_takeWhile_le haa ha
  have htb : b'.trailingZeros ≤ b.trailingZeros := length_takeWhile_le hbb hb
  have hla : a'.leadingZeros ≤ a.leadingZeros :=
    length_takeWhile_le (List.rel_reverse haa) fun c hc => ha c (by simpa using hc)
  have hlb : b'.leadingZeros ≤ b.leadingZeros :=
    length_takeWhile_le (List.rel_reverse hbb) fun c hc => hb c (by simpa using hc)
  have hw := haa.width_eq
  refine le_iff_getElem?.2 ⟨?_, fun i c c' hc hc' => ?_⟩
  · rw [width_productByZeros, width_productByZeros, hw]
  · obtain ⟨hi, rfl⟩ := getElem?_productByZeros.1 hc
    obtain ⟨-, rfl⟩ := getElem?_productByZeros.1 hc'
    by_cases hends : i < min (a'.trailingZeros + b'.trailingZeros) a'.width ∨
        a'.width - (a'.leadingZeros + b'.leadingZeros - a'.width) ≤ i
    · rw [if_pos (by omega), if_pos hends]
      exact Bit.le_refl _
    · rw [if_neg hends]
      exact Bit.le_top _

/-! The rules together. -/

theorem eq_zero_of_isZero (h : a.isZero = true) (ha : a.Describes x) : x = 0#w := by
  refine BitVec.eq_of_getLsbD_eq fun i hi => ?_
  obtain ⟨c, hc⟩ := exists_bit (ha.width_eq ▸ hi)
  have hzero : c = .zero := by simpa using List.all_eq_true.1 h c (List.mem_of_getElem? hc)
  have hadm := ha.admits i c hc
  rw [hzero] at hadm
  rw [BitVec.getLsbD_zero]
  exact ((Bit.admits_ofBool_iff (u := false)).1 hadm).symm

theorem powerOfTwo?_eq_some_iff {k : Nat} : a.powerOfTwo? = some k ↔ a.toRaw = some (2 ^ k) := by
  rw [powerOfTwo?, Option.bind_eq_some_iff]
  constructor
  · rintro ⟨n, hn, hk⟩
    obtain ⟨hpow, hlog⟩ := Option.ite_none_right_eq_some.1 hk
    cases hlog
    rw [hn, ← Nat.one_shiftLeft, hpow]
  · intro h
    refine ⟨2 ^ k, h, ?_⟩
    rw [Nat.log2_two_pow, Nat.one_shiftLeft, if_pos rfl]

theorem eq_twoPow_of_powerOfTwo? {k : Nat} (h : a.powerOfTwo? = some k) (ha : a.Describes x) :
    x = BitVec.twoPow w k := by
  refine BitVec.eq_of_toNat_eq ?_
  rw [ha.eq_ofNat (powerOfTwo?_eq_some_iff.1 h), BitVec.toNat_twoPow, BitVec.toNat_ofNat]

/-- The last rule applies. -/
structure ByZeros (a b : BitPattern) : Prop where
  left_ne_zero : a.isZero = false
  right_ne_zero : b.isZero = false
  left_not_power : a.powerOfTwo? = none
  right_not_power : b.powerOfTwo? = none
  many_special : enumerationLimit < a.specialCount + b.specialCount

/-- Which rule gives a product of patterns of one width. -/
theorem mul_cases (hw : a.width = b.width) :
    (∃ m n, a.toRaw = some m ∧ b.toRaw = some n ∧ a.mul b = ofBitVec (BitVec.ofNat a.width (m * n))) ∨
    ((a.isZero = true ∨ b.isZero = true) ∧ a.mul b = zero a.width) ∨
    (∃ k, a.powerOfTwo? = some k ∧ a.mul b = b.shiftLeft k) ∨
    (∃ k, b.powerOfTwo? = some k ∧ a.mul b = a.shiftLeft k) ∨
    a.mul b = productOfMembers a b ∨
    (ByZeros a b ∧ a.mul b = productByZeros a b) := by
  unfold mul
  rw [widen_of_width_eq hw]
  dsimp only
  split
  · rename_i m n hm hn
    exact .inl ⟨m, n, hm, hn, rfl⟩
  · right
    by_cases hzero : (a.isZero || b.isZero) = true
    · rw [if_pos hzero]
      exact .inl ⟨by simpa using hzero, rfl⟩
    · rw [if_neg hzero]
      right
      split
      · rename_i k hk
        exact .inl ⟨k, hk, rfl⟩
      · rename_i k ha hk
        exact .inr (.inl ⟨k, hk, rfl⟩)
      · rename_i hka hkb
        by_cases hfew : a.specialCount + b.specialCount ≤ enumerationLimit
        · rw [if_pos hfew]
          exact .inr (.inr (.inl rfl))
        · rw [if_neg hfew]
          rw [Bool.or_eq_true, not_or, Bool.not_eq_true, Bool.not_eq_true] at hzero
          exact .inr (.inr (.inr ⟨⟨hzero.1, hzero.2, hka, hkb, Nat.lt_of_not_le hfew⟩, rfl⟩))

theorem mul_eq_productByZeros (hw : a.width = b.width) (hraw : a.toRaw = none ∨ b.toRaw = none)
    (h : ByZeros a b) : a.mul b = productByZeros a b := by
  unfold mul
  rw [widen_of_width_eq hw]
  dsimp only
  split
  · rename_i m n hm hn
    rcases hraw with hraw | hraw <;> simp_all
  · rw [h.left_ne_zero, h.right_ne_zero, h.left_not_power, h.right_not_power,
      if_neg (Nat.not_le.2 h.many_special)]
    rfl

/-- A product of patterns describes the products of the words that they describe. -/
theorem Describes.mul (ha : a.Describes x) (hb : b.Describes y) : (a.mul b).Describes (x * y) := by
  have hw : a.width = b.width := ha.width_eq.trans hb.width_eq.symm
  rcases mul_cases hw with ⟨m, n, hm, hn, heq⟩ | ⟨hzero, heq⟩ | ⟨k, hk, heq⟩ | ⟨k, hk, heq⟩ | heq | ⟨-, heq⟩
  · rw [heq, ha.eq_ofNat hm, hb.eq_ofNat hn, ← BitVec.ofNat_mul, ha.width_eq]
    exact describes_ofBitVec _
  · have hprod : x * y = 0#w := by
      rcases hzero with h | h
      · rw [eq_zero_of_isZero h ha, BitVec.zero_mul]
      · rw [eq_zero_of_isZero h hb, BitVec.mul_zero]
    rw [heq, hprod, ha.width_eq]
    exact describes_zero w
  · rw [heq, eq_twoPow_of_powerOfTwo? hk ha, BitVec.mul_comm, BitVec.mul_twoPow_eq_shiftLeft]
    exact hb.shiftLeft k
  · rw [heq, eq_twoPow_of_powerOfTwo? hk hb, BitVec.mul_twoPow_eq_shiftLeft]
    exact ha.shiftLeft k
  · rw [heq]
    refine ⟨(width_productOfMembers a b).trans ha.width_eq, fun i c hc => ?_⟩
    have hi := lt_width hc
    rw [width_productOfMembers] at hi
    refine (admits_productOfMembers hc).2 ⟨x.toNat, ?_, y.toNat, ?_, hi, ?_⟩
    · exact (ha.reached.mem_members_iff ha.width_eq).2 ha
    · exact (hb.reached.mem_members_iff hb.width_eq).2 hb
    · exact (getLsbD_mul (ha.width_eq ▸ hi)).symm
  · rw [heq]
    exact ha.productByZeros hb

/-- Every value of every bit of `r` occurs in a product of words that the factors describe. -/
def Attained (w : Nat) (r a b : BitPattern) : Prop :=
  ∀ (i : Nat) (c : Bit) (v : Bool), r.bits[i]? = some c → c.Admits v →
    ∃ x y : BitVec w, a.Describes x ∧ b.Describes y ∧ (x * y).getLsbD i = v

theorem Attained.symm {r : BitPattern} (h : Attained w r a b) : Attained w r b a := by
  intro i c v hc hv
  obtain ⟨x, y, hx, hy, hxy⟩ := h i c v hc hv
  exact ⟨y, x, hy, hx, by rw [BitVec.mul_comm, hxy]⟩

theorem attained_shiftLeft {k : Nat} (ha : a.Reached) (hb : b.Reached) (hwa : a.width = w)
    (hwb : b.width = w) (hk : a.powerOfTwo? = some k) : Attained w (b.shiftLeft k) a b := by
  intro i c v hc hv
  obtain ⟨hi, hc⟩ := getElem?_shiftLeft.1 hc
  rw [hwb] at hi
  obtain ⟨x, hx⟩ := ha.exists_describes hwa
  have hprod : ∀ y : BitVec w, (x * y).getLsbD i = (!decide (i < k) && y.getLsbD (i - k)) := by
    intro y
    rw [eq_twoPow_of_powerOfTwo? hk hx, BitVec.mul_comm, BitVec.mul_twoPow_eq_shiftLeft,
      BitVec.getLsbD_shiftLeft, decide_eq_true hi, Bool.true_and]
  rcases hc with ⟨hik, rfl⟩ | ⟨hik, hc⟩
  · obtain ⟨y, hy⟩ := hb.exists_describes hwb
    refine ⟨x, y, hx, hy, ?_⟩
    rw [hprod, decide_eq_true hik]
    exact (Bit.admits_ofBool_iff (u := false)).1 hv
  · have hbit : ∀ d, b.bits[i - k]? = some d → d.Admits v := by
      intro d hd
      rw [hc, Option.some.injEq] at hd
      rwa [← hd]
    obtain ⟨y, hy, hyi⟩ := exists_describes hb hwb hbit
    refine ⟨x, y, hx, hy, ?_⟩
    rw [hprod, decide_eq_false (Nat.not_lt.2 hik), hyi (by omega)]
    rfl

theorem attained_productOfMembers (ha : a.Reached) (hb : b.Reached) (hwa : a.width = w)
    (hwb : b.width = w) : Attained w (productOfMembers a b) a b := by
  intro i c v hc hv
  obtain ⟨m, hm, n, hn, hi, rfl⟩ := (admits_productOfMembers hc).1 hv
  have hmember : ∀ {p : BitPattern} {k : Nat}, p.Reached → p.width = w → k ∈ members p.bits →
      p.Describes (BitVec.ofNat w k) ∧ (BitVec.ofNat w k).toNat = k := by
    intro p k hp hwp hk
    have hlt : k < 2 ^ w := hwp ▸ (mem_members.1 hk).1
    have hnat : (BitVec.ofNat w k).toNat = k := by rw [BitVec.toNat_ofNat, Nat.mod_eq_of_lt hlt]
    refine ⟨(hp.mem_members_iff hwp).1 ?_, hnat⟩
    rwa [hnat]
  obtain ⟨hx, hxm⟩ := hmember ha hwa hm
  obtain ⟨hy, hyn⟩ := hmember hb hwb hn
  refine ⟨_, _, hx, hy, ?_⟩
  rw [getLsbD_mul (hwa ▸ hi), hxm, hyn]

/-- The product is exact, or else the rule of the zeros at the ends gives it. -/
theorem attained_mul_or_byZeros (ha : a.Reached) (hb : b.Reached) (hwa : a.width = w)
    (hwb : b.width = w) :
    Attained w (a.mul b) a b ∨ (ByZeros a b ∧ a.mul b = productByZeros a b) := by
  rcases mul_cases (hwa.trans hwb.symm) with
    ⟨m, n, hm, hn, heq⟩ | ⟨hzero, heq⟩ | ⟨k, hk, heq⟩ | ⟨k, hk, heq⟩ | heq | ⟨hby, heq⟩
  · left
    rw [heq]
    intro i c v hc hv
    obtain ⟨hi, rfl⟩ := getElem?_ofBitVec.1 hc
    obtain ⟨x, hx⟩ := ha.exists_describes hwa
    obtain ⟨y, hy⟩ := hb.exists_describes hwb
    refine ⟨x, y, hx, hy, ?_⟩
    rw [hx.eq_ofNat hm, hy.eq_ofNat hn, ← BitVec.ofNat_mul, ← hwa]
    exact Bit.admits_ofBool_iff.1 hv
  · left
    rw [heq]
    intro i c v hc hv
    rw [(getElem?_filled.1 hc).2] at hv
    obtain ⟨x, hx⟩ := ha.exists_describes hwa
    obtain ⟨y, hy⟩ := hb.exists_describes hwb
    have hprod : x * y = 0#w := by
      rcases hzero with h | h
      · rw [eq_zero_of_isZero h hx, BitVec.zero_mul]
      · rw [eq_zero_of_isZero h hy, BitVec.mul_zero]
    refine ⟨x, y, hx, hy, ?_⟩
    rw [hprod, BitVec.getLsbD_zero]
    exact (Bit.admits_ofBool_iff (u := false)).1 hv
  · rw [heq]
    exact .inl (attained_shiftLeft ha hb hwa hwb hk)
  · rw [heq]
    exact .inl (attained_shiftLeft hb ha hwb hwa hk).symm
  · rw [heq]
    exact .inl (attained_productOfMembers ha hb hwa hwb)
  · exact .inr ⟨hby, heq⟩

theorem width_mul (ha : a.Reached) (hb : b.Reached) (hwa : a.width = w) (hwb : b.width = w) :
    (a.mul b).width = w := by
  obtain ⟨x, hx⟩ := ha.exists_describes hwa
  obtain ⟨y, hy⟩ := hb.exists_describes hwb
  exact (hx.mul hy).width_eq

theorem specialCount_le {a a' : BitPattern} (ha : a.Reached) (h : a.Le a') :
    a.specialCount ≤ a'.specialCount := by
  have hspecial : ∀ {b c : Bit}, b.Le c → b ≠ .bottom → b.isSpecial = true → c.isSpecial = true := by
    decide
  have key : ∀ {xs ys : List Bit}, List.Forall₂ Bit.Le xs ys → (∀ b ∈ xs, b ≠ .bottom) →
      xs.countP Bit.isSpecial ≤ ys.countP Bit.isSpecial := by
    intro xs ys hxy hxs
    induction hxy with
    | nil => exact Nat.le_refl 0
    | @cons b c xs ys hbc _ ih =>
      have hrest := ih fun d hd => hxs d (by simp [hd])
      have hhead := hspecial hbc (hxs b (by simp))
      simp only [List.countP_cons]
      by_cases hb : b.isSpecial = true
      · rw [if_pos hb, if_pos (hhead hb)]
        omega
      · rw [if_neg hb]
        exact Nat.le_trans hrest (Nat.le_add_right _ _)
  exact key h ha

/-- Below a constant, a reached pattern is that constant. -/
theorem Le.eq_of_toRaw {n : Nat} (h : a.Le a') (ha : a.Reached) (hraw : a'.toRaw = some n) : a = a' := by
  obtain ⟨-, hbits⟩ := rawOf_eq_some hraw
  obtain ⟨hw, hle⟩ := le_iff_getElem?.1 h
  have hknown : ∀ {b : Bit} {v : Bool}, b.Le (Bit.ofBool v) → b ≠ .bottom → b = Bit.ofBool v := by decide
  have heq : a.bits = a'.bits := by
    refine List.ext_getElem? fun i => ?_
    by_cases hi : i < a.width
    · obtain ⟨b, hb⟩ := exists_bit hi
      obtain ⟨c, hc⟩ := exists_bit (hw ▸ hi)
      have hbc := hle i b c hb hc
      rw [hbits i c hc] at hbc
      rw [hb, hc, hbits i c hc, hknown hbc (ha b (List.mem_of_getElem? hb))]
    · have hi' : ¬ i < a'.width := hw ▸ hi
      rw [List.getElem?_eq_none (Nat.le_of_not_lt hi), List.getElem?_eq_none (Nat.le_of_not_lt hi')]
  cases a
  cases a'
  exact congrArg BitPattern.mk heq

theorem specialCount_of_toRaw {n : Nat} (h : a.toRaw = some n) : a.specialCount = 0 := by
  rw [eq_ofBitVec_of_toRaw h, specialCount, List.countP_eq_zero]
  intro b hb
  obtain ⟨i, hi⟩ := List.mem_iff_getElem?.1 hb
  rw [(getElem?_ofBitVec.1 hi).2]
  cases (BitVec.ofNat a.width n).getLsbD i <;> decide

theorem Le.isZero_eq_false (h : a.Le a') (ha : a.Reached) (hz : a.isZero = false) : a'.isZero = false := by
  have hraw : ∀ l : List Bit, (l.all (· == .zero)) = true → rawOf l = some 0 := by
    intro l
    induction l with
    | nil => exact fun _ => rfl
    | cons c r ih =>
      intro hall
      rw [List.all_cons, Bool.and_eq_true, beq_iff_eq] at hall
      simp [rawOf, hall.1, ih hall.2, Bit.known?]
  refine Bool.eq_false_iff.2 fun hz' => ?_
  rw [h.eq_of_toRaw ha (hraw _ hz'), hz'] at hz
  cases hz

theorem Le.powerOfTwo?_eq_none (h : a.Le a') (ha : a.Reached) (hp : a.powerOfTwo? = none) :
    a'.powerOfTwo? = none := by
  cases hraw : a'.toRaw with
  | none => rw [powerOfTwo?, hraw]; rfl
  | some n => rwa [← h.eq_of_toRaw ha hraw]

/-- The rule of the zeros at the ends stays the one that applies when the factors grow. -/
theorem ByZeros.of_le (h : ByZeros a b) (ha : a.Reached) (hb : b.Reached) (haa : a.Le a')
    (hbb : b.Le b') : ByZeros a' b' where
  left_ne_zero := haa.isZero_eq_false ha h.left_ne_zero
  right_ne_zero := hbb.isZero_eq_false hb h.right_ne_zero
  left_not_power := haa.powerOfTwo?_eq_none ha h.left_not_power
  right_not_power := hbb.powerOfTwo?_eq_none hb h.right_not_power
  many_special := by
    have := specialCount_le ha haa
    have := specialCount_le hb hbb
    have := h.many_special
    omega

theorem ByZeros.toRaw_eq_none (h : ByZeros a b) : a.toRaw = none ∨ b.toRaw = none := by
  cases hm : a.toRaw with
  | none => exact .inl rfl
  | some m =>
    cases hn : b.toRaw with
    | none => exact .inr rfl
    | some n =>
      have := h.many_special
      rw [specialCount_of_toRaw hm, specialCount_of_toRaw hn] at this
      exact absurd this (by decide)

/-- Products of reached patterns of one width are monotone. -/
theorem mul_le_of_width_eq (ha : a.Reached) (hb : b.Reached) (hwa : a.width = w) (hwb : b.width = w)
    (haa : a.Le a') (hbb : b.Le b') : (a.mul b).Le (a'.mul b') := by
  have hwa' : a'.width = w := haa.width_eq ▸ hwa
  have hwb' : b'.width = w := hbb.width_eq ▸ hwb
  rcases attained_mul_or_byZeros ha hb hwa hwb with hatt | ⟨hby, heq⟩
  · have hw' := width_mul (haa.reached ha) (hbb.reached hb) hwa' hwb'
    refine le_of_attained ((width_mul ha hb hwa hwb).trans hw'.symm) fun i c v hc hv => ?_
    obtain ⟨x, y, hx, hy, hxy⟩ := hatt i c v hc hv
    rw [hw']
    exact ⟨x * y, (hx.of_le haa).mul (hy.of_le hbb), hxy⟩
  · have hby' := hby.of_le ha hb haa hbb
    rw [heq, mul_eq_productByZeros (hwa'.trans hwb'.symm) hby'.toRaw_eq_none hby']
    exact productByZeros_le ha hb haa hbb

end FlowHistory.BitPattern
