import FlowHistory.IndexSet
import Mathlib.Data.Finset.Sort
import Mathlib.Data.Fintype.Card

/-!
# Sets of indices packed into words

A set is a list of words, and everything asked of it is computed word by word: whether it has members,
how many, whether another set adds to it or includes it, and, by a scan that clears the lowest digit of
a word again and again, which ones they are. All of it agrees with the finite set of the indices that
were put in, in whatever order sets were made and united.
-/
namespace FlowHistory

namespace IndexSet

/-- A word that is not zero ends in a one and as many zeros as its lowest digit is high. -/
theorem toNat_eq_of_ne_zero {x : BitVec 64} (h : x ≠ 0) :
    x.toNat = 2 ^ (x.ctz.toNat + 1) * (x.toNat / 2 ^ (x.ctz.toNat + 1)) + 2 ^ x.ctz.toNat := by
  have hmod : x.toNat % 2 ^ (x.ctz.toNat + 1) = 2 ^ x.ctz.toNat := by
    refine Nat.eq_of_testBit_eq fun i => ?_
    rw [Nat.testBit_mod_two_pow, Nat.testBit_two_pow, BitVec.testBit_toNat]
    rcases Nat.lt_trichotomy i x.ctz.toNat with hi | rfl | hi
    · simp [BitVec.getLsbD_false_of_lt_ctz hi, hi.ne']
    · simp [BitVec.getLsbD_true_ctz_of_ne_zero h]
    · have hlt : ¬ i < x.ctz.toNat + 1 := by omega
      simp [hlt, hi.ne]
  rw [← hmod]
  exact (Nat.div_add_mod _ _).symm

/-- Taking one off a word clears its lowest digit, sets the digits below and leaves those above. -/
theorem getLsbD_sub_one {x : BitVec 64} (h : x ≠ 0) (i : Nat) :
    (x - 1).getLsbD i = if i < x.ctz.toNat + 1 then decide (i < x.ctz.toNat) else x.getLsbD i := by
  have hx := toNat_eq_of_ne_zero h
  generalize x.ctz.toNat = t at hx ⊢
  generalize x.toNat / 2 ^ (t + 1) = q at hx
  have hpos := Nat.two_pow_pos t
  have hlt : 2 ^ t < 2 ^ (t + 1) := Nat.pow_lt_pow_right (by decide) (Nat.lt_succ_self t)
  have hsub : (x - 1).toNat = 2 ^ (t + 1) * q + (2 ^ t - 1) := by
    have hone : (x - 1).toNat = x.toNat - 1 := BitVec.toNat_sub_of_le (BitVec.le_def.2 (by
      change 1 ≤ x.toNat
      omega))
    omega
  rw [← BitVec.testBit_toNat, ← BitVec.testBit_toNat, hsub, hx,
    Nat.testBit_two_pow_mul_add q (by omega), Nat.testBit_two_pow_mul_add q hlt]
  split
  · rw [Nat.testBit_two_pow_sub_one]
  · rfl

theorem getLsbD_and_sub_one {x : BitVec 64} (h : x ≠ 0) (i : Nat) :
    (x &&& (x - 1)).getLsbD i = (x.getLsbD i && decide (x.ctz.toNat < i)) := by
  rw [BitVec.getLsbD_and, getLsbD_sub_one h]
  rcases Nat.lt_trichotomy i x.ctz.toNat with hi | rfl | hi
  · simp [BitVec.getLsbD_false_of_lt_ctz hi]
  · simp
  · have hge : ¬ i < x.ctz.toNat + 1 := by omega
    simp [hge, hi]

theorem ctz_lt {x : BitVec 64} (h : x ≠ 0) : x.ctz.toNat < 64 :=
  BitVec.lt_of_getLsbD (BitVec.getLsbD_true_ctz_of_ne_zero h)

theorem cpopNatRec_eq_add_card (x : BitVec 64) (n acc : Nat) :
    x.cpopNatRec n acc = acc + {i ∈ Finset.range n | x.getLsbD i = true}.card := by
  induction n generalizing acc with
  | zero => simp
  | succ n ih =>
    rw [BitVec.cpopNatRec_succ, ih, Finset.range_add_one, Finset.filter_insert]
    cases hbit : x.getLsbD n
    · simp
    · simp
      omega

theorem cpop_eq_card (x : BitVec 64) : x.cpop.toNat = {i ∈ Finset.range 64 | x.getLsbD i = true}.card := by
  rw [BitVec.toNat_cpop, cpopNatRec_eq_add_card, Nat.zero_add]

/-- Clearing the lowest digit takes one off the number of digits. -/
theorem cpop_and_sub_one {x : BitVec 64} (h : x ≠ 0) : x.cpop.toNat = (x &&& (x - 1)).cpop.toNat + 1 := by
  have hmem : x.ctz.toNat ∈ {i ∈ Finset.range 64 | x.getLsbD i = true} := by
    simp [ctz_lt h, BitVec.getLsbD_true_ctz_of_ne_zero h]
  have herase : {i ∈ Finset.range 64 | (x &&& (x - 1)).getLsbD i = true} =
      ({i ∈ Finset.range 64 | x.getLsbD i = true} : Finset Nat).erase x.ctz.toNat := by
    ext i
    simp only [Finset.mem_filter, Finset.mem_erase, getLsbD_and_sub_one h, Bool.and_eq_true, decide_eq_true_eq]
    constructor
    · rintro ⟨hi, hbit, hlt⟩
      exact ⟨hlt.ne', hi, hbit⟩
    · rintro ⟨hne, hi, hbit⟩
      refine ⟨hi, hbit, Nat.lt_of_le_of_ne (Nat.le_of_not_lt fun hlt => ?_) hne.symm⟩
      rw [BitVec.getLsbD_false_of_lt_ctz hlt] at hbit
      cases hbit
  rw [cpop_eq_card, cpop_eq_card, herase, Finset.card_erase_add_one hmem]

theorem digit_cons (w : BitVec 64) (words : List (BitVec 64)) (i : Nat) :
    digit (w :: words) i = if i < 64 then w.getLsbD i else digit words (i - 64) := by
  split
  · rename_i hi
    simp [digit, Nat.div_eq_of_lt hi, Nat.mod_eq_of_lt hi]
  · have hdiv : i / 64 = (i - 64) / 64 + 1 := by omega
    have hmod : i % 64 = (i - 64) % 64 := by omega
    simp [digit, hdiv, hmod]

@[simp] theorem digit_nil (i : Nat) : digit [] i = false := by simp [digit]

namespace Scan

variable {base i j : Nat} {pending word : BitVec 64} {rest : List (BitVec 64)} {c c' : Scan}

/-- The index is among those to come. -/
def Ahead (c : Scan) (i : Nat) : Prop := c.base ≤ i ∧ digit (c.pending :: c.rest) (i - c.base) = true

/-- The number of indices to come, counted word by word. -/
def left (c : Scan) : Nat := (c.pending :: c.rest).foldr (fun w n => w.cpop.toNat + n) 0

/-- Nothing is lost with a word that has no digit to come. -/
theorem ahead_skip : Ahead ⟨base, 0, word :: rest⟩ i ↔ Ahead ⟨base + 64, word, rest⟩ i := by
  simp only [Ahead]
  rw [digit_cons]
  split
  · rename_i hlt
    simp
    omega
  · rename_i hge
    rw [Nat.sub_sub]
    constructor
    · rintro ⟨-, hdigit⟩
      exact ⟨by omega, hdigit⟩
    · rintro ⟨hle, hdigit⟩
      exact ⟨by omega, hdigit⟩

theorem left_skip : left ⟨base, 0, word :: rest⟩ = left ⟨base + 64, word, rest⟩ := by
  simp [left]

theorem ahead_lowest (h : pending ≠ 0) : Ahead ⟨base, pending, rest⟩ (base + pending.ctz.toNat) := by
  simp [Ahead, digit_cons, ctz_lt h, BitVec.getLsbD_true_ctz_of_ne_zero h]

theorem lowest_le (h : pending ≠ 0) (hj : Ahead ⟨base, pending, rest⟩ j) : base + pending.ctz.toNat ≤ j := by
  obtain ⟨hle, hdigit⟩ := hj
  have hctz := ctz_lt h
  by_contra hlt
  simp only at hle hdigit
  rw [digit_cons, if_pos (by omega), BitVec.getLsbD_false_of_lt_ctz (by omega)] at hdigit
  cases hdigit

/-- Clearing the lowest digit leaves the indices above the one it stands for. -/
theorem ahead_clear (h : pending ≠ 0) :
    Ahead ⟨base, pending &&& (pending - 1), rest⟩ j ↔
      Ahead ⟨base, pending, rest⟩ j ∧ base + pending.ctz.toNat < j := by
  have hctz := ctz_lt h
  simp only [Ahead, digit_cons, getLsbD_and_sub_one h]
  split
  · rw [Bool.and_eq_true, decide_eq_true_eq, and_assoc]
    refine and_congr_right fun hle => and_congr_right fun _ => ?_
    omega
  · rw [and_assoc]
    refine and_congr_right fun hle => (and_iff_left ?_).symm
    omega

/-- What one step does: it gives back the least index to come and leaves the ones above it. -/
structure Gives (c : Scan) (i : Nat) (c' : Scan) : Prop where
  ahead : c.Ahead i
  least {j : Nat} : c.Ahead j → i ≤ j
  above {j : Nat} : c'.Ahead j ↔ c.Ahead j ∧ i < j
  left_eq : c.left = c'.left + 1

theorem gives_lowest (h : pending ≠ 0) :
    Gives ⟨base, pending, rest⟩ (base + pending.ctz.toNat) ⟨base, pending &&& (pending - 1), rest⟩ where
  ahead := ahead_lowest h
  least := lowest_le h
  above := ahead_clear h
  left_eq := by
    simp only [left, List.foldr_cons, cpop_and_sub_one h]
    omega

theorem Gives.skip (h : Gives ⟨base + 64, word, rest⟩ i c) : Gives ⟨base, 0, word :: rest⟩ i c where
  ahead := ahead_skip.2 h.ahead
  least hj := h.least (ahead_skip.1 hj)
  above {j} := by rw [ahead_skip, h.above]
  left_eq := by rw [left_skip, h.left_eq]

theorem gives_nextFrom (h : nextFrom base pending rest = some (i, c)) : Gives ⟨base, pending, rest⟩ i c := by
  induction rest generalizing base pending with
  | nil =>
    rw [nextFrom] at h
    split at h
    · cases h
    · rename_i hne
      cases h
      exact gives_lowest hne
  | cons word rest ih =>
    rw [nextFrom] at h
    split at h
    · rename_i hzero
      rw [hzero]
      exact (ih h).skip
    · rename_i hne
      cases h
      exact gives_lowest hne

/-- A scan ends only when nothing is to come. -/
theorem nextFrom_eq_none (h : nextFrom base pending rest = none) :
    (∀ i, ¬ Ahead ⟨base, pending, rest⟩ i) ∧ left ⟨base, pending, rest⟩ = 0 := by
  induction rest generalizing base pending with
  | nil =>
    rw [nextFrom] at h
    split at h
    · rename_i hzero
      simp [Ahead, left, hzero, digit_cons]
    · cases h
  | cons word rest ih =>
    rw [nextFrom] at h
    split at h
    · rename_i hzero
      simpa only [hzero, ahead_skip, left_skip] using ih h
    · cases h

@[simp] theorem mem_toList : i ∈ c.toList ↔ c.Ahead i := by
  fun_induction toList c with
  | case1 c h => simpa using (nextFrom_eq_none h).1 i
  | case2 c j c' h ih =>
    have hstep := gives_nextFrom h
    rw [List.mem_cons, ih, hstep.above]
    constructor
    · rintro (rfl | ⟨hi, -⟩)
      · exact hstep.ahead
      · exact hi
    · intro hi
      exact (hstep.least hi).eq_or_lt.imp Eq.symm fun hlt => ⟨hi, hlt⟩

theorem sortedLT_toList (c : Scan) : c.toList.SortedLT := by
  fun_induction toList c with
  | case1 c h => exact List.Pairwise.nil.sortedLT
  | case2 c j c' h ih =>
    refine (List.pairwise_cons.2 ⟨fun i hi => ?_, ih.pairwise⟩).sortedLT
    exact ((gives_nextFrom h).above.1 (mem_toList.1 hi)).2

theorem length_toList (c : Scan) : c.toList.length = c.left := by
  fun_induction toList c with
  | case1 c h => exact (nextFrom_eq_none h).2.symm
  | case2 c j c' h ih => rw [List.length_cons, ih, ← (gives_nextFrom h).left_eq]

end Scan

section Members

variable {s t u : IndexSet} {i : Nat}

@[simp] theorem mem_toList : i ∈ s.toList ↔ i ∈ s := by
  rw [toList, Scan.mem_toList, Scan.Ahead, mem_def, contains_eq_digit, scan]
  cases s.words <;> simp [digit_cons]

theorem sortedLT_toList (s : IndexSet) : s.toList.SortedLT := s.scan.sortedLT_toList

theorem length_toList (s : IndexSet) : s.toList.length = s.count := by
  rw [toList, Scan.length_toList, Scan.left, count, scan]
  cases s.words <;> simp

theorem isEmpty_iff : s.isEmpty = true ↔ ∀ i, i ∉ s := by
  have hreplicate : s.isEmpty = true ↔ s.words = List.replicate s.words.length 0 := by
    simp [isEmpty, List.eq_replicate_iff]
  rw [hreplicate]
  simp only [mem_def, contains_eq_digit, Bool.not_eq_true]
  constructor
  · intro h i
    rw [h, digit_replicate]
  · intro h
    exact words_ext (by simp) fun i => by rw [h, digit_replicate]

/-- What holds of all digits side by side holds of all words side by side, and the other way. -/
theorem forall_zip_iff {v w : List (BitVec 64)} (hlen : v.length = w.length) {r : Bool → Bool → Prop}
    (hclear : r false false) :
    (∀ p ∈ v.zip w, ∀ j < 64, r (p.1.getLsbD j) (p.2.getLsbD j)) ↔ ∀ i, r (digit v i) (digit w i) := by
  constructor
  · intro h i
    by_cases hi : i / 64 < v.length
    · have hmem : (v[i / 64], w[i / 64]) ∈ v.zip w := List.mem_iff_getElem.2 ⟨i / 64, by simp; omega, by simp⟩
      simpa [digit, hi, hlen ▸ hi] using h _ hmem (i % 64) (Nat.mod_lt _ (by decide))
    · simpa [digit, hi, hlen ▸ hi] using hclear
  · intro h p hp j hj
    obtain ⟨k, hk, rfl⟩ := List.mem_iff_getElem.1 hp
    rw [List.length_zip] at hk
    have hdiv : (64 * k + j) / 64 = k := by omega
    have hmod : (64 * k + j) % 64 = j := by omega
    have hv : k < v.length := by omega
    have hw : k < w.length := by omega
    simpa [digit, hdiv, hmod, hv, hw] using h (64 * k + j)

theorem and_not_eq_zero_iff {x y : BitVec 64} :
    x &&& ~~~y = 0 ↔ ∀ j < 64, x.getLsbD j = true → y.getLsbD j = true := by
  constructor
  · intro h j hj hx
    have hbit := congrArg (BitVec.getLsbD · j) h
    simpa [hj, hx] using hbit
  · intro h
    refine BitVec.eq_of_getLsbD_eq fun j hj => ?_
    simpa [hj] using h j hj

theorem or_eq_left_iff {x y : BitVec 64} :
    x ||| y = x ↔ ∀ j < 64, y.getLsbD j = true → x.getLsbD j = true := by
  constructor
  · intro h j _ hy
    rw [← h, BitVec.getLsbD_or, hy, Bool.or_true]
  · intro h
    refine BitVec.eq_of_getLsbD_eq fun j hj => ?_
    rw [BitVec.getLsbD_or, Bool.or_eq_left_iff_imp]
    exact h j hj

theorem isSubset_iff : s.isSubset t = true ↔ s.capacity = t.capacity ∧ ∀ i, i ∈ s → i ∈ t := by
  simp only [isSubset, Bool.and_eq_true, beq_iff_eq, List.all_eq_true, and_not_eq_zero_iff, mem_def,
    contains_eq_digit]
  refine and_congr_right fun hc => ?_
  have hlen : s.words.length = t.words.length := by rw [s.length_words, t.length_words, hc]
  exact forall_zip_iff hlen (r := fun a b => a = true → b = true) id

theorem union?_of_capacity_eq (h : s.capacity = t.capacity) :
    ∃ u, s.union? t = some u ∧ u.capacity = s.capacity := by
  simp [union?, h]

theorem capacity_of_union? (h : s.union? t = some u) : s.capacity = t.capacity ∧ u.capacity = s.capacity := by
  unfold union? at h
  split at h
  · rename_i hc
    cases h
    exact ⟨hc, rfl⟩
  · cases h

/-- Taking in a set changes a word just when it brings a new member. -/
theorem exists_absorb? (h : s.capacity = t.capacity) :
    ∃ grew u, s.absorb? t = some (grew, u) ∧ s.union? t = some u ∧ u.capacity = s.capacity ∧
      (grew = true ↔ ∃ i, i ∈ t ∧ i ∉ s) := by
  obtain ⟨u, hu, hcap⟩ := union?_of_capacity_eq h
  have hlen : s.words.length = t.words.length := by rw [s.length_words, t.length_words, h]
  refine ⟨_, u, by rw [absorb?, hu]; rfl, hu, hcap, ?_⟩
  rw [← not_iff_not]
  simp only [Bool.not_eq_true, List.any_eq_false, bne_iff_ne, not_not, or_eq_left_iff, not_exists, not_and]
  simp only [mem_def, contains_eq_digit]
  exact forall_zip_iff hlen (r := fun a b => b = true → a = true) id

theorem exists_insert? (h : i < s.capacity) : ∃ t, s.insert? i = some t ∧ t.capacity = s.capacity := by
  simp [insert?, h]

end Members

/-- How a set over `n` indices comes about: with no member, with one, by adding one to a set, or by
taking another set into one. -/
inductive Recipe (n : Nat) where
  | empty
  | singleton (i : Fin n)
  | insert (r : Recipe n) (i : Fin n)
  | absorb (r t : Recipe n)

namespace Recipe

variable {n : Nat}

def make? : Recipe n → Option IndexSet
  | .empty => some (.empty n)
  | .singleton i => singleton? n i
  | .insert r i => r.make?.bind fun s => s.insert? i
  | .absorb r t => r.make?.bind fun s => t.make?.bind fun u => (s.absorb? u).map Prod.snd

/-- What was put in. -/
def members : Recipe n → Finset Nat
  | .empty => ∅
  | .singleton i => {i.val}
  | .insert r i => Insert.insert i.val r.members
  | .absorb r t => r.members ∪ t.members

theorem exists_make? (r : Recipe n) :
    ∃ s, r.make? = some s ∧ s.capacity = n ∧ ∀ i, i ∈ s ↔ i ∈ r.members := by
  induction r with
  | empty => exact ⟨_, rfl, rfl, fun i => by simp [members]⟩
  | singleton i =>
    obtain ⟨s, hs, hcap⟩ := exists_insert? (s := .empty n) i.isLt
    exact ⟨s, hs, hcap, fun j => by simp [mem_of_insert? hs, members]⟩
  | insert r i ih =>
    obtain ⟨s, hs, hcap, hmem⟩ := ih
    obtain ⟨t, ht, htcap⟩ := exists_insert? (s := s) (i := i) (by omega)
    refine ⟨t, by simp [make?, hs, ht], htcap.trans hcap, fun j => ?_⟩
    rw [mem_of_insert? ht, hmem, members, Finset.mem_insert]
  | absorb r t ihr iht =>
    obtain ⟨s, hs, hscap, hsmem⟩ := ihr
    obtain ⟨u, hu, hucap, humem⟩ := iht
    obtain ⟨grew, v, hv, hunion, hvcap, -⟩ := exists_absorb? (hscap.trans hucap.symm)
    refine ⟨v, by simp [make?, hs, hu, hv], hvcap.trans hscap, fun i => ?_⟩
    rw [mem_of_union? hunion, hsmem, humem, members, Finset.mem_union]

end Recipe

/-- All that can be asked of a single set is answered as the finite set `members` over `n` indices
answers it. -/
structure Shows (s : IndexSet) (n : Nat) (members : Finset Nat) : Prop where
  capacity_eq : s.capacity = n
  contains_iff (i : Nat) : s.contains i = true ↔ i ∈ members
  contains_beyond {i : Nat} : n ≤ i → s.contains i = false
  sortedLT_toList : s.toList.SortedLT
  mem_toList (i : Nat) : i ∈ s.toList ↔ i ∈ members
  count_eq : s.count = members.card
  isEmpty_iff : s.isEmpty = true ↔ members = ∅

theorem shows_of_mem {s : IndexSet} {n : Nat} {members : Finset Nat} (hcap : s.capacity = n)
    (hmem : ∀ i, i ∈ s ↔ i ∈ members) : s.Shows n members where
  capacity_eq := hcap
  contains_iff := hmem
  contains_beyond {i} hi := by simp [contains, hcap, hi]
  sortedLT_toList := s.sortedLT_toList
  mem_toList i := mem_toList.trans (hmem i)
  count_eq := by
    have hfin : s.toList.toFinset = members := by
      ext i
      rw [List.mem_toFinset, mem_toList, hmem]
    rw [← length_toList, ← hfin, List.toFinset_card_of_nodup s.sortedLT_toList.nodup]
  isEmpty_iff := by
    rw [isEmpty_iff, Finset.eq_empty_iff_forall_notMem]
    simp only [hmem]

/-- Sets made in any way are as good as the finite sets of what was put into them: one by one, against
a set over as many indices that is taken in, and against any other set. -/
theorem recipes_faithful {m n : Nat} (r r' : Recipe m) (t : Recipe n) :
    ∃ s s' u, r.make? = some s ∧ r'.make? = some s' ∧ t.make? = some u ∧ s.Shows m r.members ∧
      (∃ grew v, s.absorb? s' = some (grew, v) ∧ v.Shows m (r.members ∪ r'.members) ∧
        (grew = true ↔ ∃ i ∈ r'.members, i ∉ r.members)) ∧
      (s.isSubset u = true ↔ m = n ∧ r.members ⊆ t.members) ∧
      (s = u ↔ m = n ∧ r.members = t.members) := by
  obtain ⟨s, hs, hscap, hsmem⟩ := r.exists_make?
  obtain ⟨s', hs', hscap', hsmem'⟩ := r'.exists_make?
  obtain ⟨u, hu, hucap, humem⟩ := t.exists_make?
  obtain ⟨grew, v, hv, hunion, hvcap, hgrew⟩ := exists_absorb? (hscap.trans hscap'.symm)
  refine ⟨s, s', u, hs, hs', hu, shows_of_mem hscap hsmem, ⟨grew, v, hv, ?_, ?_⟩, ?_, ?_⟩
  · refine shows_of_mem (hvcap.trans hscap) fun i => ?_
    rw [mem_of_union? hunion, hsmem, hsmem', Finset.mem_union]
  · simp only [hgrew, hsmem, hsmem']
  · rw [isSubset_iff, hscap, hucap, Finset.subset_iff]
    simp only [hsmem, humem]
  · constructor
    · rintro rfl
      exact ⟨hscap.symm.trans hucap, Finset.ext fun i => by rw [← hsmem, humem]⟩
    · rintro ⟨hmn, hsame⟩
      exact ext (by rw [hscap, hucap, hmn]) fun i => by rw [hsmem, humem, hsame]

end IndexSet

end FlowHistory
