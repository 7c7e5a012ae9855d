import FlowHistory.Engine.Run

/-!
# Waiting blocks as a collection

Seen from outside, a list of waiting blocks is what it holds: adding puts in blocks that are new, and
polling takes one block out. A random list keeps its promise only while its pick is one of its items,
which holds of an empty list and is kept by every operation, since a draw below `n` is below `n`.
-/
namespace FlowHistory

namespace KeyStream

theorem pair_lt (low high : UInt32) : low.toNat + high.toNat <<< 32 < UInt64.size := by
  have hlow := low.toNat_lt
  have hhigh := high.toNat_lt
  rw [Nat.shiftLeft_eq, UInt64.size]
  omega

theorem draw_lt (k : KeyStream) : k.draw.1 < UInt64.size := by
  unfold draw
  exact pair_lt _ _

theorem belowWithin_lt (attempts : Nat) {n : Nat} (k : KeyStream) (hn : 0 < n) :
    (belowWithin attempts n k).1 < n := by
  induction attempts generalizing k with
  | zero => exact hn
  | succ attempts ih =>
    simp only [belowWithin]
    split
    · have hx := k.draw_lt
      rw [Nat.shiftRight_eq_div_pow, Nat.div_lt_iff_lt_mul (by decide), Nat.mul_comm]
      exact Nat.mul_lt_mul_of_pos_left hx hn
    · exact ih _

end KeyStream

theorem Source.below_lt (s : Source) {n : Nat} (hn : 0 < n) : (s.below n).1 < n := by
  cases s with
  | seeded k => exact k.belowWithin_lt KeyStream.maxAttempts hn
  | tape outcomes =>
    cases outcomes with
    | nil => exact hn
    | cons x rest => exact Nat.mod_lt x hn

namespace RandomList

/-- The pick is one of the items, and it is missing only if there are none. -/
structure Ready (l : RandomList) : Prop where
  empty_of_none : l.next = none → l.items = []
  lt_of_some {i : Nat} : l.next = some i → i < l.items.length

theorem ready_empty (s : Source) : (empty s).Ready := ⟨fun _ => rfl, fun h => by cases h⟩

theorem items_add (l : RandomList) (b : Nat) : (l.add b).items = l.items ++ [b] := by
  simp only [add]
  split <;> rfl

theorem ready_add {l : RandomList} (h : l.Ready) (b : Nat) : (l.add b).Ready := by
  constructor
  · intro hnone
    simp only [add] at hnone
    split at hnone <;> cases hnone
  · intro j hj
    rw [items_add, List.length_append, List.length_singleton]
    simp only [add] at hj
    split at hj
    · cases hj
      omega
    · rename_i i hi
      have hlt := h.lt_of_some hi
      simp only [Option.some.injEq] at hj
      split at hj <;> omega

/-- Filling a position with the last item takes out just the item that was there. -/
theorem swapRemove_perm {items : List Nat} {i b : Nat} (h : items[i]? = some b) :
    (b :: swapRemove items i).Perm items := by
  rcases List.eq_nil_or_concat items with rfl | ⟨front, last, rfl⟩
  · simp at h
  · rw [List.concat_eq_append] at h ⊢
    simp only [swapRemove, List.getLast?_append, List.getLast?_singleton, Option.some_or]
    by_cases hi : i < front.length
    · rw [List.getElem?_append_left hi] at h
      rw [List.set_append_left _ _ hi, List.dropLast_concat]
      obtain ⟨hlt, hget⟩ := List.getElem?_eq_some_iff.1 h
      have hsplit : front = front.take i ++ b :: front.drop (i + 1) := by
        rw [← hget, ← List.drop_eq_getElem_cons, List.take_append_drop]
      rw [List.set_eq_take_append_cons_drop, if_pos hi]
      conv => rhs; rw [hsplit]
      -- both sides hold `b`, the front without it, and the last item
      rw [List.perm_iff_count]
      intro c
      simp only [List.count_cons, List.count_append, List.count_nil]
      omega
    · have hlen : i < (front ++ [last]).length := (List.getElem?_eq_some_iff.1 h).1
      have hi' : i = front.length := by simp at hlen; omega
      subst hi'
      simp only [List.getElem?_concat_length, Option.some.injEq] at h
      subst h
      rw [List.set_append_right _ _ (Nat.le_refl _), Nat.sub_self, List.set_cons_zero,
        List.dropLast_concat]
      exact (List.perm_append_singleton last front).symm

theorem poll_eq_some {l l' : RandomList} {b : Nat} (h : l.poll = some (b, l')) :
    (b :: l'.items).Perm l.items ∧ l'.Ready := by
  simp only [poll] at h
  split at h
  · cases h
  · rename_i i hi
    split at h
    · cases h
    · rename_i c hc
      split at h
      · rename_i hempty
        cases h
        refine ⟨swapRemove_perm hc, fun _ => by simpa using hempty, fun hj => ?_⟩
        cases hj
      · rename_i hne
        cases h
        refine ⟨swapRemove_perm hc, fun hnone => ?_, fun hj => ?_⟩
        · cases hnone
        · cases hj
          refine Source.below_lt _ (List.length_pos_iff.2 ?_)
          simpa using hne

theorem poll_eq_none {l : RandomList} (hl : l.Ready) (h : l.poll = none) : l.items = [] := by
  simp only [poll] at h
  split at h
  · rename_i hnext
    exact hl.empty_of_none hnext
  · rename_i i hi
    have hlt := hl.lt_of_some hi
    rw [List.getElem?_eq_getElem hlt] at h
    simp only at h
    split at h <;> cases h

end RandomList

namespace Worklist

/-- A list that holds nothing, whatever order it will keep and wherever its draws will come from. -/
inductive Fresh : Worklist → Prop
  | naive : Fresh (.naive [])
  | random (source : Source) : Fresh (.random (.empty source))

/-- A list that will give back everything it holds. -/
def Ready : Worklist → Prop
  | .naive _ => True
  | .random l => l.Ready

theorem Fresh.toList_eq {q : Worklist} (h : q.Fresh) : q.toList = [] := by
  cases h <;> rfl

theorem Fresh.ready {q : Worklist} (h : q.Fresh) : q.Ready := by
  cases h with
  | naive => trivial
  | random source => exact RandomList.ready_empty source

theorem ready_add {q : Worklist} (h : q.Ready) (b : Nat) : (q.add b).2.Ready := by
  by_cases hb : q.contains b = true
  · simpa [add, hb] using h
  · simp only [add, hb]
    cases q with
    | naive items => trivial
    | random l => exact RandomList.ready_add h b

theorem ready_addAll {q : Worklist} (h : q.Ready) (bs : List Nat) : (q.addAll bs).Ready := by
  induction bs generalizing q with
  | nil => exact h
  | cons b bs ih => exact ih (ready_add h b)

theorem poll_eq_some {q q' : Worklist} {b : Nat} (hq : q.Ready) (h : q.poll = some (b, q')) :
    (b :: q'.toList).Perm q.toList ∧ q'.Ready := by
  cases q with
  | naive items =>
    cases items with
    | nil => cases h
    | cons c rest =>
      cases h
      exact ⟨List.Perm.refl _, trivial⟩
  | random l =>
    obtain ⟨⟨c, l'⟩, hl, heq⟩ := Option.map_eq_some_iff.1 h
    cases heq
    exact RandomList.poll_eq_some hl

theorem poll_eq_none {q : Worklist} (hq : q.Ready) (h : q.poll = none) : q.toList = [] := by
  cases q with
  | naive items =>
    cases items with
    | nil => rfl
    | cons c rest => cases h
  | random l => exact RandomList.poll_eq_none hq (Option.map_eq_none_iff.1 h)

@[simp] theorem mem_add {q : Worklist} {b c : Nat} : c ∈ (q.add b).2.toList ↔ c ∈ q.toList ∨ c = b := by
  rw [toList_add]
  split
  · rename_i h
    constructor
    · exact Or.inl
    · rintro (hc | rfl)
      · exact hc
      · exact h
  · simp

theorem mem_addAll {q : Worklist} {bs : List Nat} {c : Nat} :
    c ∈ (q.addAll bs).toList ↔ c ∈ q.toList ∨ c ∈ bs := by
  induction bs generalizing q with
  | nil => simp [addAll]
  | cons b bs ih =>
    rw [show q.addAll (b :: bs) = (q.add b).2.addAll bs from rfl, ih, mem_add, List.mem_cons, or_assoc]

theorem nodup_addAll {q : Worklist} (h : q.toList.Nodup) (bs : List Nat) :
    (q.addAll bs).toList.Nodup := by
  induction bs generalizing q with
  | nil => exact h
  | cons b bs ih =>
    refine ih ?_
    rw [toList_add]
    split
    · exact h
    · rename_i hb
      refine List.nodup_append.2 ⟨h, by simp, fun c hc d hd => ?_⟩
      rw [List.mem_singleton.1 hd]
      rintro rfl
      exact hb hc

theorem length_addAll_le (q : Worklist) (bs : List Nat) :
    (q.addAll bs).toList.length ≤ q.toList.length + bs.length := by
  induction bs generalizing q with
  | nil => simp [addAll]
  | cons b bs ih =>
    have hadd : (q.add b).2.toList.length ≤ q.toList.length + 1 := by
      rw [toList_add]
      split
      · omega
      · simp
    have := ih (q.add b).2
    simp only [show q.addAll (b :: bs) = (q.add b).2.addAll bs from rfl, List.length_cons]
    omega

end Worklist

/-- Every configuration starts from an empty list. -/
theorem Config.worklist_fresh (c : Config) : c.worklist.Fresh := by
  obtain ⟨policy, seed⟩ := c
  cases policy with
  | naive => exact .naive
  | random =>
    cases seed with
    | none => exact .random _
    | some s => exact .random _

end FlowHistory
