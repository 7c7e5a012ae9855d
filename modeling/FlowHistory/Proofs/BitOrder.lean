import FlowHistory.Bits.Pattern
import FlowHistory.Proofs.Order
import Mathlib.Algebra.GroupWithZero.Nat

/-!
# The order of bit patterns

Patterns of one width are ordered bit by bit: `⊥` lies below the known bits and these below `⊤`.
-/
namespace FlowHistory

open LatticeValue (Below)

namespace Bit

theorem forall_iff {P : Bit → Prop} : (∀ b, P b) ↔ P .zero ∧ P .one ∧ P .top ∧ P .bottom :=
  ⟨fun h => ⟨h _, h _, h _, h _⟩, fun ⟨hz, ho, ht, hb⟩ b => by cases b <;> assumption⟩

instance (P : Bit → Prop) [DecidablePred P] : Decidable (∀ b, P b) := decidable_of_iff' _ forall_iff

/-- The order of the join. -/
def Le (b c : Bit) : Prop := b.join c = c

instance (b c : Bit) : Decidable (b.Le c) := inferInstanceAs (Decidable (b.join c = c))

theorem le_refl : ∀ b : Bit, b.Le b := by decide

theorem le_top : ∀ b : Bit, b.Le .top := by decide

theorem bottom_le : ∀ b : Bit, Bit.bottom.Le b := by decide

theorem Le.trans : ∀ {a b c : Bit}, a.Le b → b.Le c → a.Le c := by decide

theorem Le.antisymm : ∀ {a b : Bit}, a.Le b → b.Le a → a = b := by decide

theorem le_join_left : ∀ b c : Bit, b.Le (b.join c) := by decide

theorem le_join_right : ∀ b c : Bit, c.Le (b.join c) := by decide

theorem join_le : ∀ {b c d : Bit}, b.Le d → c.Le d → (b.join c).Le d := by decide

/-- Above a reached bit are only reached bits. -/
theorem Le.ne_bottom : ∀ {b c : Bit}, b.Le c → b ≠ .bottom → c ≠ .bottom := by decide

/-- The height of a bit in the order. -/
def rank : Bit → Nat
  | .bottom => 0
  | .zero | .one => 1
  | .top => 2

theorem rank_le_two : ∀ b : Bit, b.rank ≤ 2 := by decide

theorem Le.rank_lt : ∀ {b c : Bit}, b.Le c → b ≠ c → b.rank < c.rank := by decide

end Bit

namespace BitPattern

/-- Every bit of the one pattern is below the bit of the other at its position. -/
def Le (p q : BitPattern) : Prop := List.Forall₂ Bit.Le p.bits q.bits

theorem Le.width_eq {p q : BitPattern} (h : p.Le q) : p.width = q.width := h.length_eq

theorem le_refl (p : BitPattern) : p.Le p :=
  List.forall₂_same.2 fun b _ => Bit.le_refl b

theorem le_iff_getElem? {p q : BitPattern} : p.Le q ↔ p.width = q.width ∧
    ∀ (i : Nat) (b c : Bit), p.bits[i]? = some b → q.bits[i]? = some c → b.Le c := by
  rw [Le, List.forall₂_iff_get]
  refine and_congr_right fun hw => ⟨fun h i b c hb hc => ?_, fun h i hi hi' => ?_⟩
  · obtain ⟨hi, rfl⟩ := List.getElem?_eq_some_iff.1 hb
    obtain ⟨hi', rfl⟩ := List.getElem?_eq_some_iff.1 hc
    exact h i hi hi'
  · exact h i _ _ (List.getElem?_eq_getElem hi) (List.getElem?_eq_getElem hi')

theorem width_union {p q : BitPattern} (h : p.width = q.width) : (p.union q).width = p.width := by
  simp only [width, union, List.length_zipWith] at *
  omega

theorem join_eq_ok {p q r : BitPattern} :
    LatticeValue.join p q = .ok r ↔ p.width = q.width ∧ p.union q = r := by
  by_cases h : p.width = q.width <;> simp [LatticeValue.join, h]

theorem getElem?_union {p q : BitPattern} {i : Nat} {d : Bit} (h : (p.union q).bits[i]? = some d) :
    ∃ b c, p.bits[i]? = some b ∧ q.bits[i]? = some c ∧ d = b.join c := by
  simp only [union, List.getElem?_zipWith] at h
  split at h
  · rename_i b c hb hc
    cases h
    exact ⟨b, c, hb, hc, rfl⟩
  · cases h

/-- The order of the join of patterns is the order bit by bit. -/
theorem below_iff {p q : BitPattern} : Below p q ↔ p.Le q := by
  have key : ∀ xs ys : List Bit, xs.length = ys.length →
      (List.zipWith Bit.join xs ys = ys ↔ List.Forall₂ Bit.Le xs ys) := by
    intro xs
    induction xs with
    | nil =>
      intro ys h
      cases ys with
      | nil => simp
      | cons y ys => simp at h
    | cons x xs ih =>
      intro ys h
      cases ys with
      | nil => simp at h
      | cons y ys =>
        rw [List.zipWith_cons_cons, List.cons.injEq, List.forall₂_cons, ih ys (by simpa using h)]
        rfl
  constructor
  · intro h
    obtain ⟨hw, hu⟩ := join_eq_ok.1 h
    exact (key _ _ hw).1 (congrArg bits hu)
  · intro h
    refine join_eq_ok.2 ⟨h.width_eq, ?_⟩
    cases q
    exact congrArg BitPattern.mk ((key _ _ h.width_eq).2 h)

instance : LawfulJoin BitPattern where
  refl p := below_iff.2 (le_refl p)
  trans {p q r} hpq hqr := by
    rw [below_iff, le_iff_getElem?] at *
    refine ⟨hpq.1.trans hqr.1, fun i b d hb hd => ?_⟩
    have hi : i < q.bits.length := by
      have := (List.getElem?_eq_some_iff.1 hb).1
      have := hpq.1
      simp only [width] at this
      omega
    have hc := List.getElem?_eq_getElem hi
    exact (hpq.2 i b _ hb hc).trans (hqr.2 i _ d hc hd)
  antisymm {p q} hpq hqp := by
    rw [below_iff, Le] at *
    have key : ∀ {xs ys : List Bit}, List.Forall₂ Bit.Le xs ys → List.Forall₂ Bit.Le ys xs → xs = ys := by
      intro xs ys h h'
      induction h with
      | nil => rfl
      | cons hxy _ ih =>
        cases h' with
        | cons hyx h' => rw [hxy.antisymm hyx, ih h']
    cases p
    cases q
    exact congrArg BitPattern.mk (key hpq hqp)
  left {p q r} h := by
    obtain ⟨hw, rfl⟩ := join_eq_ok.1 h
    rw [below_iff, le_iff_getElem?]
    refine ⟨(width_union hw).symm, fun i b d hb hd => ?_⟩
    obtain ⟨b', c, hb', -, rfl⟩ := getElem?_union hd
    rw [hb, Option.some.injEq] at hb'
    rw [← hb']
    exact Bit.le_join_left b c
  right {p q r} h := by
    obtain ⟨hw, rfl⟩ := join_eq_ok.1 h
    rw [below_iff, le_iff_getElem?]
    refine ⟨hw.symm.trans (width_union hw).symm, fun i c d hc hd => ?_⟩
    obtain ⟨b, c', -, hc', rfl⟩ := getElem?_union hd
    rw [hc, Option.some.injEq] at hc'
    rw [← hc']
    exact Bit.le_join_right b c
  least {p q r u} h hpu hqu := by
    obtain ⟨hw, rfl⟩ := join_eq_ok.1 h
    rw [below_iff, le_iff_getElem?] at *
    refine ⟨(width_union hw).trans hpu.1, fun i d e hd he => ?_⟩
    obtain ⟨b, c, hb, hc, rfl⟩ := getElem?_union hd
    exact Bit.join_le (hpu.2 i b e hb he) (hqu.2 i c e hc he)

/-- No bit is still at the bottom. -/
def Reached (p : BitPattern) : Prop := ∀ b ∈ p.bits, b ≠ .bottom

theorem Le.reached {p q : BitPattern} (h : p.Le q) (hp : p.Reached) : q.Reached := by
  have key : ∀ {xs ys : List Bit}, List.Forall₂ Bit.Le xs ys → (∀ b ∈ xs, b ≠ Bit.bottom) →
      ∀ c ∈ ys, c ≠ Bit.bottom := by
    intro xs ys hxy hxs
    induction hxy with
    | nil => simp
    | cons hbc _ ih =>
      intro c hc
      rcases List.mem_cons.1 hc with rfl | hc
      · exact hbc.ne_bottom (hxs _ (by simp))
      · exact ih (fun b hb => hxs b (by simp [hb])) c hc
  exact key h hp

theorem bottom_le (p : BitPattern) : (bottom p.width).Le p := by
  refine le_iff_getElem?.2 ⟨by simp [bottom], fun i b c hb _ => ?_⟩
  obtain ⟨-, rfl⟩ : _ ∧ Bit.bottom = b := by simpa [bottom, filled, List.getElem?_replicate] using hb
  exact Bit.bottom_le c

theorem le_top (p : BitPattern) : p.Le (top p.width) := by
  refine le_iff_getElem?.2 ⟨by simp [top], fun i b c _ hc => ?_⟩
  obtain ⟨-, rfl⟩ : _ ∧ Bit.top = c := by simpa [top, filled, List.getElem?_replicate] using hc
  exact Bit.le_top b

theorem reached_filled {w : Nat} {b : Bit} (h : b ≠ .bottom) : (filled w b).Reached := by
  intro c hc
  rw [List.eq_of_mem_replicate hc]
  exact h

/-- The sum of the heights of the bits. -/
def rank (p : BitPattern) : Nat := (p.bits.map Bit.rank).sum

theorem rank_le (p : BitPattern) : p.rank ≤ 2 * p.width := by
  simp only [rank, width]
  induction p.bits with
  | nil => simp
  | cons b r ih =>
    have := b.rank_le_two
    simp only [List.map_cons, List.sum_cons, List.length_cons]
    omega

end BitPattern

end FlowHistory
