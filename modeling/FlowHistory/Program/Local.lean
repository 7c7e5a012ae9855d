/-!
Typed local variables and finite sets of them.

A local is identified by its name and its type together. Locals are ordered by name, code point by
code point, and locals of one name by the rank of their type; a `LocalSet` lists its members in that
order without repetition, so two sets with the same members are equal.
-/
namespace FlowHistory

inductive LocalType where
  | boolean | byte | char | short | int | long | float | double | reference
  deriving DecidableEq, Repr

namespace LocalType

def all : List LocalType :=
  [.boolean, .byte, .char, .short, .int, .long, .float, .double, .reference]

/-- Position in the declaration order. -/
def rank : LocalType → Nat
  | .boolean => 0
  | .byte => 1
  | .char => 2
  | .short => 3
  | .int => 4
  | .long => 5
  | .float => 6
  | .double => 7
  | .reference => 8

def render : LocalType → String
  | .boolean => "boolean"
  | .byte => "byte"
  | .char => "char"
  | .short => "short"
  | .int => "int"
  | .long => "long"
  | .float => "float"
  | .double => "double"
  | .reference => "object"

def isIntegral : LocalType → Bool
  | .boolean | .byte | .char | .short | .int | .long => true
  | .float | .double | .reference => false

def isNumeric : LocalType → Bool
  | .float | .double => true
  | t => t.isIntegral

/-- Width of a value in bits. Every type narrower than `int` is held in an `int`. -/
def bitWidth : LocalType → Nat
  | .long | .double => 64
  | _ => 32

theorem rank_inj {s t : LocalType} (h : s.rank = t.rank) : s = t := by
  cases s <;> cases t <;> simp_all [rank]

end LocalType

structure Local where
  name : String
  type : LocalType
  deriving DecidableEq, Repr

namespace Local

/-- By name first, and by type among locals of one name. -/
def Before (a b : Local) : Prop :=
  a.name < b.name ∨ (a.name = b.name ∧ a.type.rank < b.type.rank)

instance : LT Local := ⟨Before⟩

instance (a b : Local) : Decidable (a < b) :=
  inferInstanceAs (Decidable (a.name < b.name ∨ (a.name = b.name ∧ a.type.rank < b.type.rank)))

theorem lt_def {a b : Local} :
    a < b ↔ a.name < b.name ∨ (a.name = b.name ∧ a.type.rank < b.type.rank) := Iff.rfl

theorem lt_irrefl (a : Local) : ¬ a < a := by
  rw [lt_def]
  rintro (h | ⟨_, h⟩)
  · exact String.lt_irrefl _ h
  · omega

theorem lt_trans {a b c : Local} (hab : a < b) (hbc : b < c) : a < c := by
  rw [lt_def] at *
  rcases hab with hab | ⟨hab, rab⟩ <;> rcases hbc with hbc | ⟨hbc, rbc⟩
  · exact Or.inl (String.lt_trans hab hbc)
  · exact Or.inl (hbc ▸ hab)
  · exact Or.inl (hab ▸ hbc)
  · exact Or.inr ⟨hab.trans hbc, by omega⟩

theorem ne_of_lt {a b : Local} (h : a < b) : a ≠ b := by
  rintro rfl
  exact lt_irrefl a h

theorem lt_of_not_lt {a b : Local} (h : ¬ a < b) (hne : a ≠ b) : b < a := by
  rw [lt_def] at *
  have hname : ¬ a.name < b.name := fun h' => h (Or.inl h')
  by_cases heq : a.name = b.name
  · have hrank : a.type.rank ≠ b.type.rank := fun hr => hne (by
      cases a; cases b; exact congr (congrArg Local.mk heq) (LocalType.rank_inj hr))
    have hle : ¬ a.type.rank < b.type.rank := fun h' => h (Or.inr ⟨heq, h'⟩)
    exact Or.inr ⟨heq.symm, by omega⟩
  · exact Or.inl (Classical.byContradiction fun hba =>
      heq (String.le_antisymm (String.not_lt.1 hba) (String.not_lt.1 hname)))

def order (a b : Local) : Ordering :=
  if a < b then .lt else if a = b then .eq else .gt

/-- Ascending order; locals that occur several times stay. -/
def sort (l : List Local) : List Local := l.mergeSort fun a b => a.order b != .gt

/-- A local is shown by its name alone. -/
def render (a : Local) : String := a.name

end Local

/-- A finite set of locals, listed in ascending order. -/
structure LocalSet where
  toList : List Local
  ordered : toList.Pairwise (· < ·)
  deriving DecidableEq

namespace LocalSet

/-- Puts a local in its place of an ascending list, unless it is there. -/
def place (a : Local) : List Local → List Local
  | [] => [a]
  | b :: r => if a < b then a :: b :: r else if a = b then b :: r else b :: place a r

theorem mem_place {a x : Local} {l : List Local} : x ∈ place a l ↔ x = a ∨ x ∈ l := by
  induction l with
  | nil => simp [place]
  | cons b r ih =>
    simp only [place]
    split
    · simp
    · split
      · rename_i h; subst h; simp
      · simp [ih, or_left_comm]

theorem place_ordered (a : Local) {l : List Local} (h : l.Pairwise (· < ·)) :
    (place a l).Pairwise (· < ·) := by
  induction l with
  | nil => simp [place]
  | cons b r ih =>
    obtain ⟨hb, hr⟩ := List.pairwise_cons.1 h
    simp only [place]
    split
    · rename_i hab
      refine List.pairwise_cons.2 ⟨fun x hx => ?_, h⟩
      rcases List.mem_cons.1 hx with rfl | hx
      · exact hab
      · exact Local.lt_trans hab (hb x hx)
    · split
      · exact h
      · rename_i hab hne
        refine List.pairwise_cons.2 ⟨fun x hx => ?_, ih hr⟩
        rcases mem_place.1 hx with rfl | hx
        · exact Local.lt_of_not_lt hab hne
        · exact hb x hx

def empty : LocalSet := ⟨[], List.Pairwise.nil⟩

def insert (s : LocalSet) (a : Local) : LocalSet :=
  ⟨place a s.toList, place_ordered a s.ordered⟩

def ofList (l : List Local) : LocalSet := l.foldl insert empty

def filter (s : LocalSet) (p : Local → Bool) : LocalSet :=
  ⟨s.toList.filter p, s.ordered.filter p⟩

instance : Membership Local LocalSet := ⟨fun s a => a ∈ s.toList⟩

theorem mem_def {s : LocalSet} {a : Local} : a ∈ s ↔ a ∈ s.toList := Iff.rfl

instance (s : LocalSet) (a : Local) : Decidable (a ∈ s) :=
  inferInstanceAs (Decidable (a ∈ s.toList))

@[simp] theorem not_mem_empty (a : Local) : a ∉ empty := by simp [mem_def, empty]

@[simp] theorem mem_insert {s : LocalSet} {a x : Local} : x ∈ s.insert a ↔ x = a ∨ x ∈ s :=
  mem_place

@[simp] theorem mem_filter {s : LocalSet} {p : Local → Bool} {x : Local} :
    x ∈ s.filter p ↔ x ∈ s ∧ p x = true := by
  simp [mem_def, filter]

theorem mem_foldl_insert {l : List Local} {s : LocalSet} {x : Local} :
    x ∈ l.foldl insert s ↔ x ∈ s ∨ x ∈ l := by
  induction l generalizing s with
  | nil => simp
  | cons a r ih => simp [ih, or_assoc, or_left_comm]

@[simp] theorem mem_ofList {l : List Local} {x : Local} : x ∈ ofList l ↔ x ∈ l := by
  simp [ofList, mem_foldl_insert]

end LocalSet

end FlowHistory
