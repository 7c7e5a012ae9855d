import FlowHistory.Random.KeyStream

/-!
Lists of blocks that wait to be visited. A block waits at most once.

The naive list gives blocks back in the order in which they came. The random list draws the block
it will give back ahead of time, so that it can be looked at; a newcomer replaces the pick with a
chance of one in the number of waiting blocks.
-/
namespace FlowHistory

/-- Where draws come from: a seeded stream, or outcomes fixed in advance. -/
inductive Source where
  | seeded (stream : KeyStream)
  | tape (outcomes : List Nat)
  deriving DecidableEq, Repr

/-- A draw below `n`. An empty tape gives zero. -/
def Source.below : Source → Nat → Nat × Source
  | .seeded k, n =>
    let (x, k) := k.below n
    (x, .seeded k)
  | .tape [], _ => (0, .tape [])
  | .tape (x :: rest), n => (x % n, .tape rest)

structure RandomList where
  items : List Nat
  /-- position of the block that is given back next -/
  next : Option Nat
  source : Source
  deriving DecidableEq, Repr

namespace RandomList

def empty (source : Source) : RandomList := ⟨[], none, source⟩

/-- Appends a new block and draws whether it becomes the pick. The first block is the pick without
a draw. -/
def add (l : RandomList) (b : Nat) : RandomList :=
  let items := l.items ++ [b]
  match l.next with
  | none => ⟨items, some l.items.length, l.source⟩
  | some i =>
    let (x, source) := l.source.below items.length
    ⟨items, some (if x = l.items.length then l.items.length else i), source⟩

/-- Removes a position, which the last item fills. -/
def swapRemove (items : List Nat) (i : Nat) : List Nat :=
  match items.getLast? with
  | some last => (items.set i last).dropLast
  | none => []

def peek (l : RandomList) : Option Nat := l.next.bind fun i => l.items[i]?

/-- Gives back the pick and draws the next one if blocks remain. -/
def poll (l : RandomList) : Option (Nat × RandomList) :=
  match l.next with
  | none => none
  | some i =>
    match l.items[i]? with
    | none => none
    | some b =>
      let items := swapRemove l.items i
      if items.isEmpty then some (b, ⟨items, none, l.source⟩)
      else
        let (x, source) := l.source.below items.length
        some (b, ⟨items, some x, source⟩)

end RandomList

inductive Policy where
  | naive | random
  deriving DecidableEq, Repr

namespace Policy

def all : List Policy := [.naive, .random]

def render : Policy → String
  | .naive => "Naive"
  | .random => "Random"

end Policy

inductive Worklist where
  | naive (items : List Nat)
  | random (list : RandomList)
  deriving DecidableEq, Repr

namespace Worklist

/-- An empty list. The random order is fixed by a seed. Without one the draws may be any, and here the
empty tape stands for them; what holds of every list that is empty at first holds of all of them. -/
def create : Policy → Option UInt64 → Worklist
  | .naive, _ => .naive []
  | .random, some seed => .random (.empty (.seeded (.ofSeed seed)))
  | .random, none => .random (.empty (.tape []))

/-- The waiting blocks, in the order in which they are kept. -/
def toList : Worklist → List Nat
  | .naive items => items
  | .random list => list.items

def length (l : Worklist) : Nat := l.toList.length

def isEmpty (l : Worklist) : Bool := l.toList.isEmpty

def contains (l : Worklist) (b : Nat) : Bool := l.toList.contains b

/-- Adds a block that does not wait yet. -/
def push : Worklist → Nat → Worklist
  | .naive items, b => .naive (items ++ [b])
  | .random list, b => .random (list.add b)

/-- Adds a block and says whether it is new; a block that waits already changes nothing. -/
def add (l : Worklist) (b : Nat) : Bool × Worklist :=
  if l.contains b then (false, l) else (true, l.push b)

def addAll (l : Worklist) (bs : List Nat) : Worklist := bs.foldl (fun l b => (l.add b).2) l

/-- The block that is given back next. -/
def peek : Worklist → Option Nat
  | .naive items => items.head?
  | .random list => list.peek

/-- Takes out the next block. -/
def poll : Worklist → Option (Nat × Worklist)
  | .naive [] => none
  | .naive (b :: rest) => some (b, .naive rest)
  | .random list => list.poll.map fun p => (p.1, .random p.2)

theorem toList_push (l : Worklist) (b : Nat) : (l.push b).toList = l.toList ++ [b] := by
  cases l with
  | naive items => rfl
  | random list =>
    simp only [push, toList, RandomList.add]
    split <;> rfl

theorem toList_add (l : Worklist) (b : Nat) :
    (l.add b).2.toList = if b ∈ l.toList then l.toList else l.toList ++ [b] := by
  by_cases h : b ∈ l.toList <;> simp [add, contains, h, toList_push]

/-- Takes out up to the given number of blocks. -/
def take : Nat → Worklist → List Nat × Worklist
  | 0, l => ([], l)
  | n + 1, l =>
    match l.poll with
    | none => ([], l)
    | some (b, l) =>
      let (bs, l) := take n l
      (b :: bs, l)

/-- Takes out all blocks, in the order in which they are given back. -/
def drain (l : Worklist) : List Nat × Worklist := take l.length l

end Worklist

end FlowHistory
