import FlowHistory.Proofs.Waiting
import Mathlib.Data.List.Induction
import Mathlib.Data.List.Perm.Basic

/-!
# Calls on a list of waiting blocks

Whatever is called on an empty list, the answers alone say what it holds: the blocks it took, less those
it gave back. Both kinds of list answer every further call from that collection and keep each block once.
They differ only in the block they give back next: the naive list goes by the order of arrival, and the
random list by a pick that is there as long as any block waits and always points at one of them.
-/
namespace FlowHistory

namespace RandomList

/-- What can be looked at is what is given back. -/
theorem peek_eq_poll (l : RandomList) : l.peek = l.poll.map Prod.fst := by
  simp only [peek, poll]
  cases l.next with
  | none => rfl
  | some i =>
    simp only [Option.bind_some]
    cases l.items[i]? with
    | none => rfl
    | some b =>
      simp only
      split <;> rfl

theorem Ready.next_eq_none_iff {l : RandomList} (h : l.Ready) : l.next = none ↔ l.items = [] := by
  refine ⟨h.empty_of_none, fun hempty => ?_⟩
  cases hnext : l.next with
  | none => rfl
  | some i =>
    have hlt := h.lt_of_some hnext
    simp [hempty] at hlt

end RandomList

namespace Worklist

inductive Call where
  | add (b : Nat)
  | poll
  deriving DecidableEq

/-- What came of a call: a block was taken or waits already, a block was given back, or there was none. -/
inductive Answer where
  | took (b : Nat)
  | refused (b : Nat)
  | gave (b : Nat)
  | nothing
  deriving DecidableEq

/-- The answer to a call, and the list after it. -/
def answer (q : Worklist) : Call → Answer × Worklist
  | .add b => (if (q.add b).1 then .took b else .refused b, (q.add b).2)
  | .poll =>
    match q.poll with
    | none => (.nothing, q)
    | some (b, q') => (.gave b, q')

/-- The answers to a list of calls, and the list after them. -/
def answerAll (q : Worklist) (calls : List Call) : List Answer × Worklist :=
  calls.foldl (fun r c => (r.1 ++ [(r.2.answer c).1], (r.2.answer c).2)) ([], q)

theorem answerAll_append_singleton (q : Worklist) (calls : List Call) (c : Call) :
    q.answerAll (calls ++ [c]) =
      ((q.answerAll calls).1 ++ [((q.answerAll calls).2.answer c).1], ((q.answerAll calls).2.answer c).2) := by
  simp [answerAll]

namespace Answer

/-- A collection after an answer, as the answer alone tells it. -/
def update (held : List Nat) : Answer → List Nat
  | .took b => held ++ [b]
  | .gave b => held.erase b
  | .refused _ | .nothing => held

/-- The blocks that wait after these answers. -/
def queued (answers : List Answer) : List Nat := answers.foldl update []

/-- The blocks that were taken, in the order in which they came. -/
def taken (answers : List Answer) : List Nat :=
  answers.filterMap fun
    | .took b => some b
    | _ => none

/-- The blocks that were given back, in the order in which they went. -/
def given (answers : List Answer) : List Nat :=
  answers.filterMap fun
    | .gave b => some b
    | _ => none

theorem queued_append_singleton (answers : List Answer) (a : Answer) :
    queued (answers ++ [a]) = update (queued answers) a := by
  simp [queued]

end Answer

open Answer

/-- The list serves the collection `held`: it holds those blocks and answers every call from them. -/
structure Serves (q : Worklist) (held : List Nat) : Prop where
  -- what it holds
  nodup : held.Nodup
  toList_perm : q.toList.Perm held
  contains_iff (b : Nat) : q.contains b = true ↔ b ∈ held
  length_eq : q.length = held.length
  isEmpty_iff : q.isEmpty = true ↔ held = []
  -- what it answers
  add_held {b : Nat} : b ∈ held → q.add b = (false, q)
  add_new {b : Nat} : b ∉ held → (q.add b).1 = true ∧ (q.add b).2.toList = q.toList ++ [b]
  poll_none : q.poll = none ↔ held = []
  poll_some {b : Nat} {q' : Worklist} : q.poll = some (b, q') → b ∈ held ∧ q'.toList.Perm (held.erase b)
  peek_eq : q.peek = q.poll.map Prod.fst

theorem peek_eq_poll (q : Worklist) : q.peek = q.poll.map Prod.fst := by
  cases q with
  | naive items => cases items <;> rfl
  | random l =>
    rw [peek, poll, l.peek_eq_poll, Option.map_map]
    rfl

theorem serves_of_perm {q : Worklist} {held : List Nat} (hready : q.Ready) (hnodup : held.Nodup)
    (hperm : q.toList.Perm held) : q.Serves held where
  nodup := hnodup
  toList_perm := hperm
  contains_iff b := by rw [contains, List.contains_iff_mem, hperm.mem_iff]
  length_eq := hperm.length_eq
  isEmpty_iff := by
    rw [isEmpty, List.isEmpty_iff, ← List.length_eq_zero_iff, hperm.length_eq, List.length_eq_zero_iff]
  add_held {b} hb := by
    have hcontains : q.contains b = true := by rw [contains, List.contains_iff_mem, hperm.mem_iff]; exact hb
    simp [add, hcontains]
  add_new {b} hb := by
    have hmem : b ∉ q.toList := fun h => hb (hperm.mem_iff.1 h)
    have hcontains : q.contains b = false := by simpa [contains] using hmem
    refine ⟨by simp [add, hcontains], ?_⟩
    rw [toList_add, if_neg hmem]
  poll_none := by
    constructor
    · intro h
      have hempty := poll_eq_none hready h
      rw [hempty] at hperm
      exact hperm.nil_eq.symm
    · rintro rfl
      cases hpoll : q.poll with
      | none => rfl
      | some p =>
        have hlen := (poll_eq_some hready hpoll).1.trans hperm
        simp at hlen
  poll_some {b q'} h := by
    have hpoll := (poll_eq_some hready h).1.trans hperm
    have hb : b ∈ held := hpoll.subset List.mem_cons_self
    exact ⟨hb, List.cons_perm_iff_perm_erase.1 hpoll |>.2⟩
  peek_eq := q.peek_eq_poll

/-- After an answer the list is ready again and holds what the answer tells. -/
theorem answer_perm {q : Worklist} {held : List Nat} (hready : q.Ready) (hserves : q.Serves held) (c : Call) :
    (q.answer c).2.Ready ∧ (update held (q.answer c).1).Nodup ∧
      (q.answer c).2.toList.Perm (update held (q.answer c).1) := by
  cases c with
  | add b =>
    refine ⟨ready_add hready b, ?_⟩
    by_cases hb : b ∈ held
    · simp only [answer, hserves.add_held hb]
      exact ⟨hserves.nodup, hserves.toList_perm⟩
    · obtain ⟨hnew, hlist⟩ := hserves.add_new hb
      simp only [answer, hnew, if_true, hlist, update]
      refine ⟨?_, hserves.toList_perm.append_right [b]⟩
      exact List.nodup_append.2 ⟨hserves.nodup, by simp, fun c hc d hd => by
        rw [List.mem_singleton.1 hd]
        rintro rfl
        exact hb hc⟩
  | poll =>
    cases hpoll : q.poll with
    | none =>
      simp only [answer, hpoll, update]
      exact ⟨hready, hserves.nodup, hserves.toList_perm⟩
    | some p =>
      simp only [answer, hpoll, update]
      exact ⟨(poll_eq_some hready hpoll).2, hserves.nodup.erase p.1, (hserves.poll_some hpoll).2⟩

theorem Fresh.serves_answerAll {q : Worklist} (h : q.Fresh) (calls : List Call) :
    (q.answerAll calls).2.Ready ∧ (q.answerAll calls).2.Serves (queued (q.answerAll calls).1) := by
  induction calls using List.reverseRecOn with
  | nil => exact ⟨h.ready, serves_of_perm h.ready List.nodup_nil (by simp [answerAll, h.toList_eq, queued])⟩
  | append_singleton calls c ih =>
    obtain ⟨hready, hserves⟩ := ih
    obtain ⟨hready', hnodup, hperm⟩ := answer_perm hready hserves c
    rw [answerAll_append_singleton, queued_append_singleton]
    exact ⟨hready', serves_of_perm hready' hnodup hperm⟩

/-- The naive list holds what came, less what went, in the order in which it came. -/
theorem answerAll_naive (calls : List Call) :
    ∃ items, ((naive []).answerAll calls).2 = .naive items ∧
      taken ((naive []).answerAll calls).1 = given ((naive []).answerAll calls).1 ++ items := by
  induction calls using List.reverseRecOn with
  | nil => exact ⟨[], rfl, rfl⟩
  | append_singleton calls c ih =>
    obtain ⟨items, hlist, horder⟩ := ih
    rw [answerAll_append_singleton, hlist]
    cases c with
    | add b =>
      by_cases hb : b ∈ items
      · refine ⟨items, by simp [answer, add, contains, toList, hb], ?_⟩
        simpa [answer, add, contains, toList, hb, taken, given] using horder
      · refine ⟨items ++ [b], by simp [answer, add, contains, toList, hb, push], ?_⟩
        rw [← List.append_assoc]
        simpa [answer, add, contains, toList, hb, taken, given] using congrArg (· ++ [b]) horder
    | poll =>
      cases items with
      | nil =>
        refine ⟨[], rfl, ?_⟩
        simpa [answer, poll, taken, given] using horder
      | cons b rest =>
        refine ⟨rest, rfl, ?_⟩
        simpa [answer, poll, taken, given] using horder

/-- A random list stays one. -/
theorem answerAll_random (source : Source) (calls : List Call) :
    ∃ l, ((random (.empty source)).answerAll calls).2 = .random l := by
  induction calls using List.reverseRecOn with
  | nil => exact ⟨_, rfl⟩
  | append_singleton calls c ih =>
    obtain ⟨l, hl⟩ := ih
    rw [answerAll_append_singleton, hl]
    cases c with
    | add b =>
      by_cases hb : (random l).contains b = true
      · exact ⟨l, by simp [answer, add, hb]⟩
      · exact ⟨l.add b, by simp [answer, add, hb, push]⟩
    | poll =>
      cases hpoll : l.poll with
      | none => exact ⟨l, by simp [answer, poll, hpoll]⟩
      | some p => exact ⟨p.2, by simp [answer, poll, hpoll]⟩

/-- Both kinds of list answer any calls from one and the same collection, which holds no block twice. The
naive list gives back in the order of arrival; the random list has a pick, and it is one of its blocks,
just when there is a block to give back. -/
theorem calls_served (source : Source) (calls : List Call) :
    (∃ answers items, (naive []).answerAll calls = (answers, .naive items) ∧
      (naive items).Serves (queued answers) ∧ taken answers = given answers ++ items) ∧
    (∃ answers l, (random (.empty source)).answerAll calls = (answers, .random l) ∧
      (random l).Serves (queued answers) ∧ (l.next = none ↔ l.items = []) ∧
      ∀ i, l.next = some i → i < l.items.length) := by
  constructor
  · obtain ⟨items, hlist, horder⟩ := answerAll_naive calls
    obtain ⟨-, hserves⟩ := Fresh.naive.serves_answerAll calls
    exact ⟨_, items, Prod.ext rfl hlist, hlist ▸ hserves, horder⟩
  · obtain ⟨l, hl⟩ := answerAll_random source calls
    obtain ⟨hready, hserves⟩ := (Fresh.random source).serves_answerAll calls
    rw [hl] at hready
    exact ⟨_, l, Prod.ext rfl hl, hl ▸ hserves, RandomList.Ready.next_eq_none_iff hready,
      fun i => RandomList.Ready.lt_of_some hready⟩

end Worklist

end FlowHistory
