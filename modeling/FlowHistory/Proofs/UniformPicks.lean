import FlowHistory.Proofs.WaitingCalls
import Mathlib.Algebra.BigOperators.Group.Finset.Piecewise
import Mathlib.Algebra.BigOperators.Group.Finset.Sigma
import Mathlib.Algebra.BigOperators.Ring.Finset
import Mathlib.Data.Finset.Prod
import Mathlib.Tactic.Ring

/-!
# The pick of a random list is uniform

The pick is drawn once when a block is given back and then kept up to date: a newcomer draws whether it
becomes the pick. Take every draw below `n` as a free choice among `n` outcomes. Then over all
combinations of outcomes each block that waits is the pick equally often, from an empty list on as well
as from a draw after a block was given back, however many blocks come then.

The count goes newcomer by newcomer. Of the `n + 1` outcomes that the next newcomer can draw, one makes
it the pick and `n` leave the pick as it was.
-/
namespace FlowHistory

namespace Source

/-- Draws below each of the bounds in turn. -/
def draws : Source → List Nat → List Nat × Source
  | s, [] => ([], s)
  | s, n :: bounds =>
    let (x, s) := s.below n
    let (xs, s) := s.draws bounds
    (x :: xs, s)

theorem draws_cons (s : Source) (n : Nat) (bounds : List Nat) :
    s.draws (n :: bounds) =
      ((s.below n).1 :: ((s.below n).2.draws bounds).1, ((s.below n).2.draws bounds).2) := rfl

theorem below_tape {x n : Nat} (h : x < n) (t : List Nat) : (tape (x :: t)).below n = (x, .tape t) := by
  rw [below, Nat.mod_eq_of_lt h]

/-- All combinations of outcomes of draws below the bounds. -/
def outcomes : List Nat → Finset (List Nat)
  | [] => {[]}
  | n :: bounds => (Finset.range n ×ˢ outcomes bounds).image fun p => p.1 :: p.2

theorem sum_outcomes_cons (n : Nat) (bounds : List Nat) (f : List Nat → Nat) :
    ∑ t ∈ outcomes (n :: bounds), f t = ∑ x ∈ Finset.range n, ∑ t ∈ outcomes bounds, f (x :: t) := by
  have hinj : Function.Injective fun p : Nat × List Nat => p.1 :: p.2 := by
    rintro ⟨x, t⟩ ⟨y, u⟩ h
    simpa using h
  rw [outcomes, Finset.sum_image hinj.injOn, Finset.sum_product]

theorem card_outcomes_cons (n : Nat) (bounds : List Nat) :
    (outcomes (n :: bounds)).card = n * (outcomes bounds).card := by
  rw [Finset.card_eq_sum_ones, sum_outcomes_cons]
  simp

/-- What a source gives is one of the combinations. -/
theorem draws_mem_outcomes {bounds : List Nat} (h : ∀ n ∈ bounds, 0 < n) (s : Source) :
    (s.draws bounds).1 ∈ outcomes bounds := by
  induction bounds generalizing s with
  | nil => simp [draws, outcomes]
  | cons n bounds ih =>
    have hlt := s.below_lt (h n List.mem_cons_self)
    have hrest := ih (fun m hm => h m (List.mem_cons_of_mem n hm)) (s.below n).2
    rw [draws_cons, outcomes, Finset.mem_image]
    exact ⟨(_, _), Finset.mem_product.2 ⟨Finset.mem_range.2 hlt, hrest⟩, rfl⟩

end Source

open Source

namespace RandomList

/-- The list with its draws from the given source. -/
def drawing (l : RandomList) (s : Source) : RandomList := { l with source := s }

/-- Of its source the run uses just draws below the bounds, in this order. -/
def Asks (run : Source → RandomList) (bounds : List Nat) : Prop :=
  ∀ s, run s = (run (.tape (s.draws bounds).1)).drawing (s.draws bounds).2

/-- The number of combinations for which the run ends with `b` as the pick. -/
def picks (run : Source → RandomList) (bounds : List Nat) (b : Nat) : Nat :=
  {t ∈ outcomes bounds | (run (.tape t)).peek = some b}.card

theorem asks_cons {n : Nat} {bounds : List Nat} {run : Source → RandomList} (rest : Nat → Source → RandomList)
    (hn : 0 < n) (hrun : ∀ s, run s = rest (s.below n).1 (s.below n).2) (h : ∀ x < n, Asks (rest x) bounds) :
    Asks run (n :: bounds) := by
  intro s
  have hlt := s.below_lt hn
  rw [hrun, h _ hlt, draws_cons, hrun (.tape _), below_tape hlt]

/-- The combinations are counted by the outcome of the first draw. -/
theorem picks_cons {n : Nat} {run : Source → RandomList} (rest : Nat → Source → RandomList)
    (hrun : ∀ s, run s = rest (s.below n).1 (s.below n).2) (bounds : List Nat) (b : Nat) :
    picks run (n :: bounds) b = ∑ x ∈ Finset.range n, picks (rest x) bounds b := by
  simp only [picks, Finset.card_filter, sum_outcomes_cons]
  refine Finset.sum_congr rfl fun x hx => Finset.sum_congr rfl fun t _ => ?_
  rw [hrun, below_tape (Finset.mem_range.1 hx)]

/-- The list after blocks that are new to it have come. -/
def adds (l : RandomList) (bs : List Nat) (s : Source) : RandomList := bs.foldl add (l.drawing s)

/-- The list after a newcomer that drew `x`, where the pick was at `i`. -/
def joined (l : RandomList) (i b x : Nat) : RandomList :=
  ⟨l.items ++ [b], some (if x = l.items.length then l.items.length else i), l.source⟩

theorem adds_cons {l : RandomList} {i : Nat} (h : l.next = some i) (b : Nat) (bs : List Nat) (s : Source) :
    l.adds (b :: bs) s =
      (l.joined i b (s.below (l.items.length + 1)).1).adds bs (s.below (l.items.length + 1)).2 := by
  simp [adds, drawing, add, h, joined]

/-- A newcomer draws below the number of blocks it makes. -/
theorem asks_adds {l : RandomList} {i : Nat} (h : l.next = some i) (bs : List Nat) :
    Asks (l.adds bs) (List.range' (l.items.length + 1) bs.length) := by
  induction bs generalizing l i with
  | nil => exact fun s => rfl
  | cons b bs ih =>
    refine asks_cons (fun x => (l.joined i b x).adds bs) (Nat.succ_pos _) (adds_cons h b bs) fun x _ => ?_
    simpa [joined] using ih (l := l.joined i b x) rfl

/-- How often a block is the pick after newcomers: with the weight of all blocks that waited before if it
was the pick then, with the weight of one if it is a newcomer. -/
theorem picks_adds {l : RandomList} {i c : Nat} {bs : List Nat} (h : l.next = some i)
    (hc : l.items[i]? = some c) (hnodup : (l.items ++ bs).Nodup) (b : Nat) :
    picks (l.adds bs) (List.range' (l.items.length + 1) bs.length) b * (l.items.length + bs.length) =
      (outcomes (List.range' (l.items.length + 1) bs.length)).card *
        (if b = c then l.items.length else if b ∈ bs then 1 else 0) := by
  induction bs generalizing l i c with
  | nil =>
    have hpeek : ∀ s, (l.adds [] s).peek = some c := fun s => by simp [adds, drawing, peek, h, hc]
    by_cases hb : b = c
    · simp [picks, outcomes, hpeek, hb]
    · simp [picks, outcomes, hpeek, hb, Ne.symm hb]
  | cons b' bs ih =>
    have hmem : c ∈ l.items := List.mem_of_getElem? hc
    have hi : i < l.items.length := (List.getElem?_eq_some_iff.1 hc).1
    obtain ⟨-, hbs, hdisjoint⟩ := List.nodup_append.1 hnodup
    have hcb' : c ≠ b' := hdisjoint c hmem b' List.mem_cons_self
    have hcbs : c ∉ bs := fun h => hdisjoint c hmem c (List.mem_cons_of_mem b' h) rfl
    have hb'bs : b' ∉ bs := (List.nodup_cons.1 hbs).1
    have hstep : ∀ x d, (l.joined i b' x).items[if x = l.items.length then l.items.length else i]? = some d →
        picks ((l.joined i b' x).adds bs) (List.range' (l.items.length + 2) bs.length) b *
          (l.items.length + (bs.length + 1)) =
        (outcomes (List.range' (l.items.length + 2) bs.length)).card *
          (if b = d then l.items.length + 1 else if b ∈ bs then 1 else 0) := fun x d hd => by
      have hcount := ih (l := l.joined i b' x) rfl hd (by simpa [joined] using hnodup)
      simpa [joined, Nat.add_assoc, Nat.add_comm 1] using hcount
    have hkeep : ∀ x ∈ Finset.range l.items.length, _ := fun x hx =>
      hstep x c (by simp [joined, (Finset.mem_range.1 hx).ne, List.getElem?_append_left hi, hc])
    have hnew := hstep l.items.length b' (by simp [joined])
    rw [List.length_cons, List.range'_succ, card_outcomes_cons,
      picks_cons (fun x => (l.joined i b' x).adds bs) (adds_cons h b' bs), Finset.sum_range_succ, Nat.add_mul,
      Finset.sum_mul, Finset.sum_const_nat hkeep, hnew, Finset.card_range]
    -- of the outcomes one makes the newcomer the pick, and all others leave it
    rcases eq_or_ne b c with rfl | hbc
    · simp only [if_true, hcb', if_false, hcbs]
      ring
    · rcases eq_or_ne b b' with rfl | hbb'
      · simp only [hbc, hb'bs, if_true, if_false, List.mem_cons_self]
        ring
      · simp only [hbc, hbb', if_false, List.mem_cons, false_or]
        ring

theorem items_adds (l : RandomList) (bs : List Nat) (s : Source) : (l.adds bs s).items = l.items ++ bs := by
  have hfold : ∀ l : RandomList, (bs.foldl add l).items = l.items ++ bs := by
    induction bs with
    | nil => simp
    | cons b bs ih => simp [ih, items_add]
  exact hfold (l.drawing s)

/-- The list of these items with the pick at `i`, before it has a source. -/
def picking (items : List Nat) (i : Nat) : RandomList := ⟨items, some i, .tape []⟩

/-- After a draw among all blocks and any newcomers each block is the pick equally often. -/
theorem picks_of_drawn {items bs : List Nat} {run : Source → RandomList} (hnodup : (items ++ bs).Nodup)
    (hrun : ∀ s, run s = (picking items (s.below items.length).1).adds bs (s.below items.length).2)
    {b : Nat} (hb : b ∈ items ++ bs) :
    picks run (List.range' items.length (bs.length + 1)) b * (items ++ bs).length =
      (outcomes (List.range' items.length (bs.length + 1))).card := by
  obtain ⟨hitems, -, hdisjoint⟩ := List.nodup_append.1 hnodup
  have hcount : ∀ x ∈ Finset.range items.length,
      picks ((picking items x).adds bs) (List.range' (items.length + 1) bs.length) b *
        (items.length + bs.length) =
      (outcomes (List.range' (items.length + 1) bs.length)).card *
        (if items[x]? = some b then items.length else if b ∈ bs then 1 else 0) := by
    intro x hx
    obtain ⟨c, hc⟩ : ∃ c, items[x]? = some c := ⟨_, List.getElem?_eq_getElem (Finset.mem_range.1 hx)⟩
    simpa [picking, hc, eq_comm] using picks_adds (l := picking items x) rfl hc hnodup b
  rw [List.range'_succ, card_outcomes_cons, picks_cons (fun x => (picking items x).adds bs) hrun,
    List.length_append, Finset.sum_mul, Finset.sum_congr rfl hcount, ← Finset.mul_sum, Nat.mul_comm items.length]
  congr 1
  rcases List.mem_append.1 hb with hitem | hnew
  · -- just one outcome of the draw makes the block the pick
    obtain ⟨j, hj⟩ := List.getElem?_of_mem hitem
    have hlt : j < items.length := (List.getElem?_eq_some_iff.1 hj).1
    have hbs : b ∉ bs := fun h => hdisjoint b hitem b h rfl
    rw [Finset.sum_eq_single_of_mem j (Finset.mem_range.2 hlt) fun x hx hne => ?_, if_pos hj]
    rw [if_neg fun hx => hne ((List.getElem?_inj hlt hitems).1 (hj.trans hx.symm)).symm, if_neg hbs]
  · have hitem : ∀ x, items[x]? ≠ some b := fun x hx => hdisjoint b (List.mem_of_getElem? hx) b hnew rfl
    simp [hitem, hnew]

end RandomList

namespace Worklist

open RandomList

/-- Over all combinations of outcomes of the draws that a run makes, each block it ends with is the pick
equally often. -/
structure Fair (run : Source → Worklist) (bounds held : List Nat) : Prop where
  -- the run makes draws below the bounds, in this order, and uses nothing else of its source
  draws_mem (s : Source) : (s.draws bounds).1 ∈ outcomes bounds
  asks (s : Source) : ∃ l, run (.tape (s.draws bounds).1) = .random l ∧
    run s = .random (l.drawing (s.draws bounds).2)
  toList_perm (s : Source) : (run s).toList.Perm held
  share {b : Nat} : b ∈ held →
    {t ∈ outcomes bounds | (run (.tape t)).peek = some b}.card * held.length = (outcomes bounds).card
  equal {b c : Nat} : b ∈ held → c ∈ held →
    {t ∈ outcomes bounds | (run (.tape t)).peek = some b}.card =
      {t ∈ outcomes bounds | (run (.tape t)).peek = some c}.card

theorem fair_of_picks {run : Source → Worklist} (list : Source → RandomList) {bounds held : List Nat}
    (hrun : ∀ s, run s = .random (list s)) (hpos : ∀ n ∈ bounds, 0 < n) (hasks : Asks list bounds)
    (hitems : ∀ s, (list s).items.Perm held)
    (hpicks : ∀ b ∈ held, picks list bounds b * held.length = (outcomes bounds).card) :
    Fair run bounds held := by
  have hshare : ∀ b ∈ held, {t ∈ outcomes bounds | (run (.tape t)).peek = some b}.card * held.length =
      (outcomes bounds).card := by
    intro b hb
    simp only [hrun]
    exact hpicks b hb
  refine ⟨draws_mem_outcomes hpos, fun s => ⟨_, hrun _, ?_⟩, fun s => ?_, hshare _, fun {b c} hb hc => ?_⟩
  · rw [hrun, hasks s]
  · rw [hrun]
    exact hitems s
  · exact Nat.eq_of_mul_eq_mul_right (List.length_pos_of_mem hb) ((hshare b hb).trans (hshare c hc).symm)

theorem answerAll_snd (q : Worklist) (calls : List Call) :
    (q.answerAll calls).2 = calls.foldl (fun q c => (q.answer c).2) q := by
  induction calls using List.reverseRecOn with
  | nil => rfl
  | append_singleton calls c ih => simp [answerAll_append_singleton, ih]

/-- Blocks that are new are added without further ado. -/
theorem answerAll_adds {l : RandomList} {bs : List Nat} (h : (l.items ++ bs).Nodup) (s : Source) :
    ((random (l.drawing s)).answerAll (bs.map .add)).2 = .random (l.adds bs s) := by
  have hfold : ∀ l : RandomList, (l.items ++ bs).Nodup →
      (bs.map Call.add).foldl (fun q c => (q.answer c).2) (random l) = .random (bs.foldl RandomList.add l) := by
    clear h
    induction bs with
    | nil => intro l _; rfl
    | cons b bs ih =>
      intro l h
      have hb : b ∉ l.items := fun hb => (List.nodup_append.1 h).2.2 b hb b List.mem_cons_self rfl
      have hadd : ((random l).answer (.add b)).2 = .random (l.add b) := by
        simp [answer, Worklist.add, contains, toList, hb, push]
      rw [List.map_cons, List.foldl_cons, hadd, ih (l.add b) (by simpa [items_add] using h), List.foldl_cons]
  rw [answerAll_snd]
  exact hfold _ h

/-- From an empty list on, the pick is uniform after any newcomers. -/
theorem fair_adds {bs : List Nat} (h : bs.Nodup) :
    Fair (fun s => ((random (.empty s)).answerAll (bs.map .add)).2) (List.range' 2 (bs.length - 1)) bs := by
  cases bs with
  | nil => exact fair_of_picks .empty (fun s => rfl) (by simp) (fun s => rfl) (fun s => .refl _) (by simp)
  | cons b bs =>
    have hrun : ∀ s, ((random (.empty s)).answerAll ((b :: bs).map .add)).2 =
        .random ((picking [b] 0).adds bs s) := fun s => answerAll_adds (l := .empty s) h s
    refine fair_of_picks _ hrun (fun n hn => ?_) ?_ (fun s => ?_) fun c hc => ?_
    · have := (List.mem_range'_1.1 hn).1
      omega
    · exact asks_adds (l := picking [b] 0) rfl bs
    · rw [items_adds]
      exact .refl _
    · have hweight : (if c = b then 1 else if c ∈ bs then 1 else 0) = 1 := by
        rcases List.mem_cons.1 hc with rfl | hmem <;> simp [*]
      have hcount := picks_adds (l := picking [b] 0) (c := b) rfl rfl h c
      rw [show (picking [b] 0).items.length = 1 from rfl, hweight, Nat.mul_one, Nat.add_comm 1 bs.length] at hcount
      exact hcount

/-- From a draw after a block was given back on, the pick is uniform after any newcomers. -/
theorem fair_poll_adds {l : RandomList} {b : Nat} {bs : List Nat} (hl : l.items.Nodup) (hpeek : l.peek = some b)
    (hmany : 2 ≤ l.items.length) (hbs : bs.Nodup) (hnew : ∀ c ∈ bs, c ∉ l.items.erase b) :
    Fair (fun s => ((random (l.drawing s)).answerAll (.poll :: bs.map .add)).2)
      (List.range' (l.items.length - 1) (bs.length + 1)) (l.items.erase b ++ bs) := by
  obtain ⟨i, hi, hb⟩ := Option.bind_eq_some_iff.1 hpeek
  have hperm : (swapRemove l.items i).Perm (l.items.erase b) :=
    (List.cons_perm_iff_perm_erase.1 (swapRemove_perm hb)).2
  have hlen : (swapRemove l.items i).length = l.items.length - 1 := by
    rw [hperm.length_eq, List.length_erase_of_mem (List.mem_of_getElem? hb)]
  have hheld : (swapRemove l.items i ++ bs).Perm (l.items.erase b ++ bs) := hperm.append_right bs
  have hnodup : (swapRemove l.items i ++ bs).Nodup := by
    refine hheld.nodup_iff.2 (List.nodup_append.2 ⟨hl.erase b, hbs, fun c hc d hd => ?_⟩)
    rintro rfl
    exact hnew c hd hc
  -- giving the pick back draws among the blocks that are left
  have hpoll : ∀ s, ((random (l.drawing s)).answer .poll).2 =
      .random ((picking (swapRemove l.items i) (s.below (swapRemove l.items i).length).1).drawing
        (s.below (swapRemove l.items i).length).2) := by
    intro s
    have hne : (swapRemove l.items i).isEmpty = false := by
      rw [List.isEmpty_eq_false_iff, ← List.length_pos_iff]
      omega
    simp [answer, poll, RandomList.poll, drawing, picking, hi, hb, hne]
  have hrun : ∀ s, ((random (l.drawing s)).answerAll (.poll :: bs.map .add)).2 =
      .random ((picking (swapRemove l.items i) (s.below (swapRemove l.items i).length).1).adds bs
        (s.below (swapRemove l.items i).length).2) := by
    intro s
    rw [answerAll_snd, List.foldl_cons, hpoll, ← answerAll_snd]
    exact answerAll_adds hnodup _
  rw [← hlen]
  refine fair_of_picks _ hrun (fun n hn => ?_) ?_ (fun s => ?_) fun c hc => ?_
  · have := (List.mem_range'_1.1 hn).1
    omega
  · refine asks_cons (fun x => (picking (swapRemove l.items i) x).adds bs) (by omega) (fun s => rfl) fun x _ => ?_
    exact asks_adds (l := picking _ x) rfl bs
  · rw [items_adds]
    exact hheld
  · rw [← hheld.length_eq]
    exact picks_of_drawn hnodup (fun s => rfl) (hheld.mem_iff.2 hc)

/-- The pick is uniform: from an empty list on, and from a draw after a block was given back in a list that
any calls have made. -/
theorem picks_uniform (source : Source) (calls : List Call) {l : RandomList} {bs : List Nat}
    (hl : ((random (.empty source)).answerAll calls).2 = .random l) (hbs : bs.Nodup) :
    Fair (fun s => ((random (.empty s)).answerAll (bs.map .add)).2) (List.range' 2 (bs.length - 1)) bs ∧
      ∀ b, l.peek = some b → 2 ≤ l.items.length → (∀ c ∈ bs, c ∉ l.items.erase b) →
        Fair (fun s => ((random (l.drawing s)).answerAll (.poll :: bs.map .add)).2)
          (List.range' (l.items.length - 1) (bs.length + 1)) (l.items.erase b ++ bs) := by
  have hserves := ((Fresh.random source).serves_answerAll calls).2
  rw [hl] at hserves
  have hnodup : l.items.Nodup := hserves.toList_perm.nodup_iff.2 hserves.nodup
  exact ⟨fair_adds hbs, fun b hpeek hmany hnew => fair_poll_adds hnodup hpeek hmany hbs hnew⟩

/-- Three blocks wait and one is given back; it and another come again. -/
theorem picks_uniform_three :
    Fair (fun s => ((random (.empty s)).answerAll ([2, 7].map .add)).2) [2] [2, 7] ∧
    Fair (fun s => ((random (RandomList.drawing ⟨[5, 2, 9], some 1, .tape []⟩ s)).answerAll
      (.poll :: [2, 7].map .add)).2) [2, 3, 4] [5, 9, 2, 7] := by
  have hbs : [2, 7].Nodup := by decide
  have h := picks_uniform (.tape [1, 0]) [.add 5, .add 2, .add 9] (l := ⟨[5, 2, 9], some 1, .tape []⟩) rfl hbs
  exact ⟨h.1, h.2 2 rfl (by decide) (by decide)⟩

end Worklist

end FlowHistory
