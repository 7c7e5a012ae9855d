/-!
Subsets of an initial segment of the natural numbers.

A set over `capacity` indices is held in as many words of 64 binary digits as the capacity needs:
index `i` is digit `i % 64` of word `i / 64`. Digits of the last word that stand for no index are
clear, so two sets of one capacity with the same members are equal. Union and inclusion go word by
word, and the members are listed by clearing the lowest digit of a word until none is left.
-/
namespace FlowHistory

/-- The digit of an index. Beyond the words all digits are clear. -/
def IndexSet.digit (words : List (BitVec 64)) (i : Nat) : Bool :=
  (words.getD (i / 64) 0).getLsbD (i % 64)

structure IndexSet where
  capacity : Nat
  words : List (BitVec 64)
  length_words : words.length = (capacity + 63) / 64
  clear_beyond : ∀ i, capacity ≤ i → IndexSet.digit words i = false
  deriving DecidableEq, Repr

namespace IndexSet

@[simp] theorem digit_replicate (n i : Nat) : digit (List.replicate n 0) i = false := by
  simp only [digit, List.getD_eq_getElem?_getD, List.getElem?_replicate]
  split <;> simp

theorem digit_modify {words : List (BitVec 64)} {i : Nat} (h : i / 64 < words.length) (j : Nat) :
    digit (words.modify (i / 64) (· ||| BitVec.twoPow 64 (i % 64))) j = (decide (j = i) || digit words j) := by
  simp only [digit, List.getD_eq_getElem?_getD, List.getElem?_modify]
  by_cases hw : i / 64 = j / 64
  · have hj : j / 64 < words.length := by omega
    have hbit : j % 64 = i % 64 ↔ j = i := by omega
    have hlt : j % 64 < 64 := by omega
    simp [hw, hj, hlt, hbit, Bool.or_comm]
  · have hne : j ≠ i := fun h => hw (by rw [h])
    simp [hw, hne]

theorem digit_zipWith_or {v w : List (BitVec 64)} (h : v.length = w.length) (i : Nat) :
    digit (List.zipWith (· ||| ·) v w) i = (digit v i || digit w i) := by
  simp only [digit, List.getD_eq_getElem?_getD, List.getElem?_zipWith]
  by_cases hi : i / 64 < v.length
  · have hi' : i / 64 < w.length := by omega
    simp [hi, hi']
  · have hi' : ¬ i / 64 < w.length := by omega
    simp [hi, hi']

def empty (capacity : Nat) : IndexSet :=
  ⟨capacity, List.replicate ((capacity + 63) / 64) 0, List.length_replicate, fun _ _ => digit_replicate _ _⟩

def contains (s : IndexSet) (i : Nat) : Bool := digit s.words i && decide (i < s.capacity)

instance : Membership Nat IndexSet := ⟨fun s i => s.contains i = true⟩

theorem mem_def {s : IndexSet} {i : Nat} : i ∈ s ↔ s.contains i = true := Iff.rfl

instance (s : IndexSet) (i : Nat) : Decidable (i ∈ s) :=
  inferInstanceAs (Decidable (s.contains i = true))

theorem contains_eq_digit (s : IndexSet) (i : Nat) : s.contains i = digit s.words i := by
  unfold contains
  by_cases h : i < s.capacity
  · simp [h]
  · simp [h, s.clear_beyond i (Nat.le_of_not_lt h)]

theorem lt_capacity_of_mem {s : IndexSet} {i : Nat} (h : i ∈ s) : i < s.capacity := by
  simp only [mem_def, contains, Bool.and_eq_true, decide_eq_true_eq] at h
  exact h.2

theorem div_lt_length {s : IndexSet} {i : Nat} (h : i < s.capacity) : i / 64 < s.words.length := by
  rw [s.length_words]
  omega

/-- Adds an index; there is no room for one outside the capacity. -/
def insert? (s : IndexSet) (i : Nat) : Option IndexSet :=
  if h : i < s.capacity then
    some
      { capacity := s.capacity
        words := s.words.modify (i / 64) (· ||| BitVec.twoPow 64 (i % 64))
        length_words := by rw [List.length_modify, s.length_words]
        clear_beyond := fun j hj => by
          rw [digit_modify (div_lt_length h), s.clear_beyond j hj]
          simp
          omega }
  else none

def singleton? (capacity i : Nat) : Option IndexSet := (empty capacity).insert? i

/-- The union of two sets over the same indices. -/
def union? (s t : IndexSet) : Option IndexSet :=
  if h : s.capacity = t.capacity then
    have hlen : s.words.length = t.words.length := by rw [s.length_words, t.length_words, h]
    some
      { capacity := s.capacity
        words := List.zipWith (· ||| ·) s.words t.words
        length_words := by rw [List.length_zipWith, ← hlen, Nat.min_self, s.length_words]
        clear_beyond := fun i hi => by
          rw [digit_zipWith_or hlen, s.clear_beyond i hi, t.clear_beyond i (h ▸ hi), Bool.or_self] }
  else none

/-- The union of two sets over the same indices, and whether a word of `s` changed in it. -/
def absorb? (s t : IndexSet) : Option (Bool × IndexSet) :=
  (s.union? t).map fun u => ((s.words.zip t.words).any fun p => p.1 ||| p.2 != p.1, u)

/-- Inclusion, which holds only between sets over the same indices. -/
def isSubset (s t : IndexSet) : Bool :=
  s.capacity == t.capacity && (s.words.zip t.words).all fun p => p.1 &&& ~~~p.2 == 0

/-- A scan of the members in ascending order: the first index of the current word, the digits of that
word still to come, and the words after it. -/
structure Scan where
  base : Nat
  pending : BitVec 64
  rest : List (BitVec 64)

namespace Scan

/-- The next member, and the scan from there on. Words with no digit to come are passed over. The
member is the lowest digit of its word, which is then cleared. -/
def nextFrom (base : Nat) (pending : BitVec 64) (rest : List (BitVec 64)) : Option (Nat × Scan) :=
  if pending = 0 then
    match rest with
    | [] => none
    | word :: rest => nextFrom (base + 64) word rest
  else some (base + pending.ctz.toNat, ⟨base, pending &&& (pending - 1), rest⟩)

def next (c : Scan) : Option (Nat × Scan) := nextFrom c.base c.pending c.rest

/-- A measure of what is to come, which weighs a whole word more than any digits of one. -/
def size (c : Scan) : Nat := UInt64.size * c.rest.length + c.pending.toNat

theorem toNat_and_sub_one_lt {x : BitVec 64} (h : x ≠ 0) : (x &&& (x - 1)).toNat < x.toNat := by
  have hpos : 0 < x.toNat := Nat.pos_of_ne_zero fun h0 => h (BitVec.eq_of_toNat_eq h0)
  have hle : (x &&& (x - 1)).toNat ≤ (x - 1).toNat := by
    rw [BitVec.toNat_and]
    exact Nat.and_le_right
  have hsub : (x - 1).toNat = x.toNat - 1 := BitVec.toNat_sub_of_le (BitVec.le_def.2 hpos)
  omega

theorem size_nextFrom {base i : Nat} {pending : BitVec 64} {rest : List (BitVec 64)} {c : Scan}
    (h : nextFrom base pending rest = some (i, c)) : c.size < UInt64.size * rest.length + pending.toNat := by
  induction rest generalizing base pending with
  | nil =>
    rw [nextFrom] at h
    split at h
    · cases h
    · rename_i hne
      cases h
      simpa [size] using toNat_and_sub_one_lt hne
  | cons word rest ih =>
    rw [nextFrom] at h
    split at h
    · have hlt := ih h
      have hword : word.toNat < UInt64.size := word.isLt
      rw [List.length_cons, Nat.mul_succ]
      omega
    · rename_i hne
      cases h
      simpa [size] using toNat_and_sub_one_lt hne

/-- The members to come. -/
def toList (c : Scan) : List Nat :=
  match _h : c.next with
  | none => []
  | some (i, c') => i :: c'.toList
termination_by c.size
decreasing_by exact size_nextFrom _h

end Scan

def scan (s : IndexSet) : Scan := ⟨0, s.words.headD 0, s.words.tail⟩

/-- The members in ascending order. -/
def toList (s : IndexSet) : List Nat := s.scan.toList

def count (s : IndexSet) : Nat := s.words.foldr (fun w n => w.cpop.toNat + n) 0

def isEmpty (s : IndexSet) : Bool := s.words.all fun w => w == 0

def render (s : IndexSet) : String :=
  "\x7b" ++ ", ".intercalate (s.toList.map toString) ++ "\x7d"

/-- The text with the kind of value in front. -/
def describe (s : IndexSet) : String := "BitSet" ++ s.render

@[simp] theorem not_mem_empty (capacity i : Nat) : i ∉ empty capacity := by
  rw [mem_def, contains_eq_digit, empty, digit_replicate]
  decide

theorem mem_of_insert? {s t : IndexSet} {i j : Nat} (h : s.insert? i = some t) :
    j ∈ t ↔ j = i ∨ j ∈ s := by
  unfold insert? at h
  split at h
  · rename_i hi
    cases h
    simp [mem_def, contains_eq_digit, digit_modify (div_lt_length hi)]
  · cases h

theorem mem_of_union? {s t u : IndexSet} {i : Nat} (h : s.union? t = some u) :
    i ∈ u ↔ i ∈ s ∨ i ∈ t := by
  unfold union? at h
  split at h
  · rename_i hc
    cases h
    have hlen : s.words.length = t.words.length := by rw [s.length_words, t.length_words, hc]
    simp [mem_def, contains_eq_digit, digit_zipWith_or hlen]
  · cases h

theorem words_ext {v w : List (BitVec 64)} (hlen : v.length = w.length)
    (h : ∀ i, digit v i = digit w i) : v = w := by
  refine List.ext_getElem hlen fun k hv hw => BitVec.eq_of_getLsbD_eq fun j hj => ?_
  have hk : (64 * k + j) / 64 = k := by omega
  have hm : (64 * k + j) % 64 = j := by omega
  simpa [digit, hk, hm, hv, hw] using h (64 * k + j)

theorem ext {s t : IndexSet} (hc : s.capacity = t.capacity) (hm : ∀ i, i ∈ s ↔ i ∈ t) : s = t := by
  have hwords : s.words = t.words :=
    words_ext (by rw [s.length_words, t.length_words, hc]) fun i => by
      rw [← contains_eq_digit, ← contains_eq_digit, Bool.eq_iff_iff]
      exact hm i
  cases s; cases t; cases hc; cases hwords; rfl

end IndexSet

end FlowHistory
