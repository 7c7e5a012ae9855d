import FlowHistory.Flowgraph.Basic
import Mathlib.Data.Option.Basic

/-!
# Execution on words

What a program does to its integral locals: words in two's complement, followed along any path of
blocks, whatever the branches decide. What comes from outside (bindings, the heap, calls, lengths) may
be any word. An instruction without a result has no successor; in a program whose widths fit, only
divisions and remainders by zero have none.
-/
namespace FlowHistory

/-- Whether the relation named by an operator holds of two numbers. -/
def BinaryOp.holds (op : BinaryOp) (m n : Int) : Bool :=
  match op with
  | .eq => m = n
  | .ne => m ≠ n
  | .lt => m < n
  | .le => m ≤ n
  | .gt => n < m
  | .ge => n ≤ m
  | _ => false

/-- A word with its width. -/
structure Word where
  width : Nat
  value : BitVec width

namespace Word

/-- An operation on two words of one width. -/
def alike? (a b : Word) (f : ∀ {w : Nat}, BitVec w → BitVec w → Option (BitVec w)) : Option Word :=
  if h : a.width = b.width then (f a.value (b.value.cast h.symm)).map (Word.mk a.width) else none

/-- A shift by a word, of which as many low bits count as the width of the shifted word needs. An `int`
is not shifted by a `long`. -/
def shifted? (a b : Word) (f : ∀ {w : Nat}, BitVec w → Nat → BitVec w) : Option Word :=
  if a.width = 32 ∧ b.width = 64 then none else some ⟨a.width, f a.value (b.value.toNat % a.width)⟩

/-- 1 or 0, as the relation holds of the values in two's complement or not. -/
def related (op : BinaryOp) (a b : Word) : Word :=
  ⟨32, if op.holds a.value.toInt b.value.toInt then 1 else 0⟩

/-- -1, 0 or 1 for less, equal and greater values in two's complement. -/
def ordered (a b : Word) : Word :=
  ⟨32, if a.value.toInt < b.value.toInt then -1 else if a.value.toInt = b.value.toInt then 0 else 1⟩

theorem alike?_eq_some {a b c : Word} {f : ∀ {w : Nat}, BitVec w → BitVec w → Option (BitVec w)}
    (h : a.alike? b f = some c) :
    ∃ (w : Nat) (x y z : BitVec w), a = ⟨w, x⟩ ∧ b = ⟨w, y⟩ ∧ f x y = some z ∧ c = ⟨w, z⟩ := by
  obtain ⟨w, x⟩ := a
  obtain ⟨v, y⟩ := b
  simp only [alike?] at h
  split at h
  · rename_i hw
    cases hw
    obtain ⟨z, hz, rfl⟩ := Option.map_eq_some_iff.1 h
    exact ⟨w, x, y, z, rfl, rfl, hz, rfl⟩
  · cases h

theorem shifted?_eq_some {a b c : Word} {f : ∀ {w : Nat}, BitVec w → Nat → BitVec w}
    (h : a.shifted? b f = some c) : c = ⟨a.width, f a.value (b.value.toNat % a.width)⟩ := by
  simp only [shifted?] at h
  split at h
  · cases h
  · cases h
    rfl

def binary? (op : BinaryOp) (a b : Word) : Option Word :=
  match op with
  | .add => a.alike? b fun x y => some (x + y)
  | .sub => a.alike? b fun x y => some (x - y)
  | .mul => a.alike? b fun x y => some (x * y)
  | .div => a.alike? b fun x y => if y = 0 then none else some (x.sdiv y)
  | .rem => a.alike? b fun x y => if y = 0 then none else some (x.srem y)
  | .and => a.alike? b fun x y => some (x &&& y)
  | .or => a.alike? b fun x y => some (x ||| y)
  | .xor => a.alike? b fun x y => some (x ^^^ y)
  | .shl => a.shifted? b fun x n => x <<< n
  | .shr => a.shifted? b fun x n => x.sshiftRight n
  | .ushr => a.shifted? b fun x n => x >>> n
  | .cmp | .cmpl | .cmpg => some (a.ordered b)
  | .eq | .ne | .lt | .le | .gt | .ge => some (related op a b)

def neg (a : Word) : Word := ⟨a.width, -a.value⟩

/-- A conversion between integral types. Narrow integers are held in 32 bits. -/
def cast? (type : LocalType) (a : Word) : Option Word :=
  match type with
  | .long => some ⟨64, a.value.signExtend 64⟩
  | .int | .boolean => some ⟨32, a.value.setWidth 32⟩
  | .byte => some ⟨32, (a.value.setWidth 8).signExtend 32⟩
  | .short => some ⟨32, (a.value.setWidth 16).signExtend 32⟩
  | .char => some ⟨32, (a.value.setWidth 16).setWidth 32⟩
  | .float | .double | .reference => none

end Word

/-- A word for each local. Only those of integral locals are ever read. -/
def Store := (x : Local) → BitVec x.type.bitWidth

def Store.put (σ : Store) (x : Local) (v : BitVec x.type.bitWidth) : Store :=
  fun y => if h : y = x then h ▸ v else σ y

@[simp] theorem Store.put_same (σ : Store) (x : Local) (v : BitVec x.type.bitWidth) :
    σ.put x v x = v := by
  simp [put]

theorem Store.put_other (σ : Store) {x y : Local} (v : BitVec x.type.bitWidth) (h : y ≠ x) :
    σ.put x v y = σ y := by
  simp [put, h]

/-- Every integral local is zero. -/
def Store.IsZero (σ : Store) : Prop := ∀ x : Local, x.type.isIntegral = true → σ x = 0

namespace Operand

/-- The word of an integral local or constant. -/
def word? (σ : Store) : Operand → Option Word
  | .read x => if x.type.isIntegral then some ⟨x.type.bitWidth, σ x⟩ else none
  | .literal (.int v) => some ⟨32, v⟩
  | .literal (.long v) => some ⟨64, v⟩
  | .literal _ => none

/-- The width of an integral local or constant. -/
def width? : Operand → Option Nat
  | .read x => if x.type.isIntegral then some x.type.bitWidth else none
  | .literal (.int _) => some 32
  | .literal (.long _) => some 64
  | .literal _ => none

end Operand

/-- The width of `a op b` for operands of two widths that fit the operator. -/
def BinaryOp.width? (op : BinaryOp) (v w : Nat) : Option Nat :=
  if op.isRelational || op.isThreeWay then some 32
  else if op.isShift then if v = 32 ∧ w = 64 then none else some v
  else if v = w then some v
  else none

namespace Expr

/-- The word that an expression computes from integral locals and constants. -/
def word? (σ : Store) : Expr → Option Word
  | .operand x => x.word? σ
  | .binary op lhs rhs => (lhs.word? σ).bind fun a => (rhs.word? σ).bind fun b => a.binary? op b
  | .neg x => (x.word? σ).map Word.neg
  | .cast type x => (x.word? σ).bind (Word.cast? type)
  | _ => none

/-- The width of what an expression computes, if the widths of its operands fit. -/
def width? : Expr → Option Nat
  | .operand x | .neg x => x.width?
  | .binary op lhs rhs => (lhs.width?).bind fun v => (rhs.width?).bind fun w => op.width? v w
  | .cast type x => if type.isIntegral then x.width?.map fun _ => type.bitWidth else none
  | _ => none

/-- Nothing is known of the value but that it fits the local it is assigned to. -/
def isOpaque : Expr → Bool
  | .instanceOf _ _ | .invoke _ | .field _ _ | .element _ _ | .create _ | .createArray _ _ => true
  | _ => false

def isLength : Expr → Bool
  | .length _ => true
  | _ => false

end Expr

namespace Instruction

/-- What is assigned to an integral local fits its width. -/
def WidthConsistent : Instruction → Prop
  | .assign (.var x) value => x.type.isIntegral = true →
    value.width? = some x.type.bitWidth ∨ value.isOpaque = true ∨
      (value.isLength = true ∧ x.type.bitWidth = 32)
  | _ => True

def DividesByZero (σ : Store) : Instruction → Prop
  | .assign (.var x) (.binary op _ rhs) =>
    x.type.isIntegral = true ∧ (op = .div ∨ op = .rem) ∧ ∃ w, rhs.word? σ = some ⟨w, 0⟩
  | _ => False

/-- One instruction. -/
inductive Steps : Instruction → Store → Store → Prop
  | compute {σ : Store} {x : Local} {value : Expr} {v : BitVec x.type.bitWidth} :
    x.type.isIntegral = true → value.word? σ = some ⟨x.type.bitWidth, v⟩ →
    Steps (.assign (.var x) value) σ (σ.put x v)
  | receive {σ : Store} {x : Local} {value : Expr} (v : BitVec x.type.bitWidth) :
    x.type.isIntegral = true → value.isOpaque = true ∨ (value.isLength = true ∧ x.type.bitWidth = 32) →
    Steps (.assign (.var x) value) σ (σ.put x v)
  | bind {σ : Store} {x : Local} {origin : Origin} (v : BitVec x.type.bitWidth) :
    Steps (.bind x origin) σ (σ.put x v)
  | skip {σ : Store} {i : Instruction} :
    (∀ x, i.defined? = some x → x.type.isIntegral = false) → Steps i σ σ

/-- Several instructions, one after the other. -/
inductive RunsAll {S : Type} (step : Instruction → S → S → Prop) : List Instruction → S → S → Prop
  | nil {σ : S} : RunsAll step [] σ σ
  | cons {σ τ υ : S} {i : Instruction} {rest : List Instruction} :
    step i σ τ → RunsAll step rest τ υ → RunsAll step (i :: rest) σ υ

end Instruction

namespace Flowgraph

/-- Every assignment to an integral local fits its width. -/
def WidthConsistent (g : Flowgraph) : Prop := ∀ s ∈ g.sites, s.instruction.WidthConsistent

/-- Some path of blocks from the entry, executed from a starting state, ends in block `b` with the state
`σ`. -/
inductive Executed {S : Type} (g : Flowgraph) (start : S → Prop) (step : Instruction → S → S → Prop) :
    Nat → S → Prop
  | enter {σ τ : S} {block : Block} : start σ → g.block? g.entry = some block →
    Instruction.RunsAll step block.instructions σ τ → Executed g start step g.entry τ
  | follow {b c : Nat} {σ τ : S} {block : Block} : Executed g start step b σ → c ∈ g.successors b →
    g.block? c = some block → Instruction.RunsAll step block.instructions σ τ →
    Executed g start step c τ

/-- Some path of blocks from the entry, executed on integral locals that are zero at first, ends in
block `b` with the store `σ`. -/
abbrev Arrives (g : Flowgraph) : Nat → Store → Prop := g.Executed Store.IsZero Instruction.Steps

end Flowgraph

/-! The results of comparisons, and the widths of operands. -/

theorem BinaryOp.relates_compare (op : BinaryOp) (m n : Int) :
    op.relates (compare m n) = op.holds m n := by
  rw [Bool.eq_iff_iff]
  cases op with
  | eq | ne => simp [relates, holds]
  | lt => simp [relates, holds, Int.compare_eq_lt]
  | le => simp [relates, holds, Int.compare_ne_gt]
  | gt => simp [relates, holds, Int.compare_eq_gt]
  | ge => simp [relates, holds, Int.compare_ne_lt]
  | _ => simp [relates, holds]

theorem Word.related_eq {op : BinaryOp} (h : op.isRelational = true) (a b : Word) :
    related op a b = ⟨32, BitVec.ofInt 32 (op.verdict (compare a.value.toInt b.value.toInt))⟩ := by
  simp only [related, BinaryOp.verdict, h, if_true, BinaryOp.relates_compare]
  cases op.holds a.value.toInt b.value.toInt <;> rfl

theorem Word.ordered_eq {op : BinaryOp} (h : op.isRelational = false) (a b : Word) :
    ordered a b = ⟨32, BitVec.ofInt 32 (op.verdict (compare a.value.toInt b.value.toInt))⟩ := by
  simp only [ordered, BinaryOp.verdict, h]
  rcases Int.lt_trichotomy a.value.toInt b.value.toInt with hlt | heq | hgt
  · rw [Int.compare_eq_lt.2 hlt, if_pos hlt]
    rfl
  · rw [Int.compare_eq_eq.2 heq, if_neg (by omega), if_pos heq]
    rfl
  · rw [Int.compare_eq_gt.2 hgt, if_neg (by omega), if_neg (by omega)]
    rfl

/-- A comparison, whatever the widths of its operands, computes the verdict on the two values. -/
theorem Word.binary?_comparison {op : BinaryOp} (h : (op.isRelational || op.isThreeWay) = true)
    (a b : Word) :
    a.binary? op b = some ⟨32, BitVec.ofInt 32 (op.verdict (compare a.value.toInt b.value.toInt))⟩ := by
  cases op with
  | cmp | cmpl | cmpg => exact congrArg some (ordered_eq rfl a b)
  | eq | ne | lt | le | gt | ge => exact congrArg some (related_eq rfl a b)
  | _ => cases h

theorem Operand.width_of_word? {σ : Store} {x : Operand} {a : Word} (h : x.word? σ = some a) :
    a.width = 32 ∨ a.width = 64 := by
  have hbits : ∀ t : LocalType, t.bitWidth = 32 ∨ t.bitWidth = 64 := by
    intro t
    cases t <;> simp [LocalType.bitWidth]
  cases x with
  | read x =>
    simp only [word?] at h
    split at h
    · cases h
      exact hbits x.type
    · cases h
  | literal c =>
    cases c with
    | int v => cases h; exact .inl rfl
    | long v => cases h; exact .inr rfl
    | _ => cases h

/-! Where widths fit, only a division by zero stops an execution. -/

theorem Operand.map_width_word? (σ : Store) (x : Operand) : (x.word? σ).map Word.width = x.width? := by
  cases x with
  | read x =>
    simp only [word?, width?]
    split <;> rfl
  | literal c => cases c <;> rfl

theorem Operand.exists_word? (σ : Store) {x : Operand} {w : Nat} (h : x.width? = some w) :
    ∃ v, x.word? σ = some ⟨w, v⟩ := by
  rw [← x.map_width_word? σ] at h
  obtain ⟨⟨_, v⟩, hv, rfl⟩ := Option.map_eq_some_iff.1 h
  exact ⟨v, hv⟩

theorem Word.alike?_of_width_eq {w : Nat} (x y : BitVec w)
    (f : ∀ {w : Nat}, BitVec w → BitVec w → Option (BitVec w)) :
    alike? ⟨w, x⟩ ⟨w, y⟩ f = (f x y).map (Word.mk w) := by
  simp [alike?]

/-- Words whose widths fit an operator have a result, but for division by zero. -/
theorem Word.exists_binary? {op : BinaryOp} {v w u : Nat} (x : BitVec v) (y : BitVec w)
    (h : op.width? v w = some u) (hzero : (op = .div ∨ op = .rem) → y ≠ 0) :
    ∃ z, binary? op ⟨v, x⟩ ⟨w, y⟩ = some ⟨u, z⟩ := by
  cases op with
  | div | rem =>
    obtain ⟨rfl, rfl⟩ : v = w ∧ v = u := by simpa [BinaryOp.width?, BinaryOp.isRelational,
      BinaryOp.isThreeWay, BinaryOp.isShift] using h
    have hy : y ≠ 0 := hzero (by simp)
    simpa [binary?, alike?_of_width_eq] using hy
  | add | sub | mul | and | or | xor =>
    obtain ⟨rfl, rfl⟩ : v = w ∧ v = u := by simpa [BinaryOp.width?, BinaryOp.isRelational,
      BinaryOp.isThreeWay, BinaryOp.isShift] using h
    simp [binary?, alike?_of_width_eq]
  | shl | shr | ushr =>
    simp only [BinaryOp.width?, BinaryOp.isRelational, BinaryOp.isThreeWay, BinaryOp.isShift] at h
    simp only [binary?, shifted?]
    by_cases hlong : v = 32 ∧ w = 64
    · simp [hlong] at h
    · obtain rfl : v = u := by simpa [hlong] using h
      simp [hlong]
  | _ =>
    obtain rfl : 32 = u := by simpa [BinaryOp.width?, BinaryOp.isRelational, BinaryOp.isThreeWay] using h
    exact ⟨_, rfl⟩

theorem Word.binary?_zero {op : BinaryOp} (hop : op = .div ∨ op = .rem) (a : Word) (w : Nat) :
    a.binary? op ⟨w, 0⟩ = none := by
  rcases hop with rfl | rfl
  all_goals
    refine Option.eq_none_iff_forall_ne_some.2 fun c hc => ?_
    simp only [binary?] at hc
    obtain ⟨v, x, y, z, -, hy, hz, -⟩ := alike?_eq_some hc
    cases hy
    simp at hz

theorem Word.exists_cast? {t : LocalType} (h : t.isIntegral = true) (a : Word) :
    ∃ v, a.cast? t = some ⟨t.bitWidth, v⟩ := by
  cases t with
  | float | double | reference => cases h
  | _ => exact ⟨_, rfl⟩

/-- The divisor of an expression, if it has one. -/
def Expr.divisor? : Expr → Option Operand
  | .binary .div _ rhs | .binary .rem _ rhs => some rhs
  | _ => none

theorem Expr.exists_word? {σ : Store} {value : Expr} {w : Nat} (h : value.width? = some w)
    (hzero : ∀ rhs v, value.divisor? = some rhs → rhs.word? σ ≠ some ⟨v, 0⟩) :
    ∃ v, value.word? σ = some ⟨w, v⟩ := by
  cases value with
  | operand x => exact x.exists_word? σ h
  | neg x =>
    obtain ⟨v, hv⟩ := x.exists_word? σ h
    exact ⟨-v, by rw [word?, hv]; rfl⟩
  | cast t x =>
    simp only [width?] at h
    split at h
    · rename_i ht
      obtain ⟨u, hu, rfl⟩ := Option.map_eq_some_iff.1 h
      obtain ⟨v, hv⟩ := x.exists_word? σ hu
      rw [word?, hv]
      exact Word.exists_cast? ht _
    · cases h
  | binary op lhs rhs =>
    obtain ⟨u, hu, h⟩ := Option.bind_eq_some_iff.1 h
    obtain ⟨v, hv, h⟩ := Option.bind_eq_some_iff.1 h
    obtain ⟨x, hx⟩ := lhs.exists_word? σ hu
    obtain ⟨y, hy⟩ := rhs.exists_word? σ hv
    rw [word?, hx, hy]
    refine Word.exists_binary? x y h fun hop hy0 => ?_
    refine hzero rhs v ?_ (hy0 ▸ hy)
    rcases hop with rfl | rfl <;> rfl
  | _ => cases h

namespace Instruction

theorem steps_iff {σ : Store} {i : Instruction} (h : i.WidthConsistent) :
    (∃ τ, i.Steps σ τ) ↔ ¬ i.DividesByZero σ := by
  constructor
  · rintro ⟨τ, hstep⟩ hdiv
    cases hstep with
    | @compute _ x value v hx hv =>
      cases value with
      | binary op lhs rhs =>
        obtain ⟨-, hop, w, hw⟩ := hdiv
        obtain ⟨a, -, hv⟩ := Option.bind_eq_some_iff.1 hv
        rw [hw, Option.bind_some, Word.binary?_zero hop] at hv
        cases hv
      | _ => exact hdiv
    | @receive _ x value v hx hval =>
      cases value with
      | binary op lhs rhs => simp [Expr.isOpaque, Expr.isLength] at hval
      | _ => exact hdiv
    | bind v => exact hdiv
    | skip hskip =>
      cases i with
      | assign target value =>
        cases target with
        | var x =>
          have hx := hskip x rfl
          cases value with
          | binary op lhs rhs =>
            have hx' := hdiv.1
            rw [hx] at hx'
            cases hx'
          | _ => exact hdiv
        | _ => exact hdiv
      | _ => exact hdiv
  · intro hdiv
    cases i with
    | assign target value =>
      cases target with
      | var x =>
        by_cases hx : x.type.isIntegral = true
        · rcases h hx with hw | hfree
          · have hzero : ∀ rhs v, value.divisor? = some rhs → rhs.word? σ ≠ some ⟨v, 0⟩ := by
              intro rhs v hrhs hword
              refine hdiv ?_
              unfold Expr.divisor? at hrhs
              split at hrhs
              · cases hrhs
                exact ⟨hx, .inl rfl, v, hword⟩
              · cases hrhs
                exact ⟨hx, .inr rfl, v, hword⟩
              · cases hrhs
            obtain ⟨v, hv⟩ := Expr.exists_word? hw hzero
            exact ⟨_, .compute hx hv⟩
          · exact ⟨_, .receive 0 hx hfree⟩
        · refine ⟨σ, .skip fun y hy => ?_⟩
          cases hy
          simpa using hx
      | field base name => exact ⟨σ, .skip fun y hy => by cases hy⟩
      | element base index => exact ⟨σ, .skip fun y hy => by cases hy⟩
    | bind x origin => exact ⟨_, .bind 0⟩
    | _ => exact ⟨σ, .skip fun y hy => by cases hy⟩

end Instruction

/-! An execution that asks less of a program: only what is computed from integral operands alone has to
fit, and everything else that is assigned may be any word. -/

def Operand.isIntegral (x : Operand) : Bool := x.width?.isSome

/-- Whether the expression computes a word from words. -/
def Expr.isIntegral : Expr → Bool
  | .operand x | .neg x => x.isIntegral
  | .binary _ lhs rhs => lhs.isIntegral && rhs.isIntegral
  | .cast type x => type.isIntegral && x.isIntegral
  | _ => false

namespace Instruction

/-- Whether the instruction assigns a word that it computes from words. -/
def isComputed : Instruction → Bool
  | .assign (.var _) value => value.isIntegral
  | _ => false

inductive Executes : Instruction → Store → Store → Prop
  | step {i : Instruction} {σ τ : Store} : i.Steps σ τ → Executes i σ τ
  | receive {σ : Store} {x : Local} {value : Expr} (v : BitVec x.type.bitWidth) :
    value.isIntegral = false → Executes (.assign (.var x) value) σ (σ.put x v)

theorem executes_iff {σ : Store} {i : Instruction} (h : i.isComputed = true → i.WidthConsistent) :
    (∃ τ, i.Executes σ τ) ↔ ¬ (i.isComputed = true ∧ i.DividesByZero σ) := by
  by_cases hi : i.isComputed = true
  · have hsteps := steps_iff (σ := σ) (h hi)
    constructor
    · rintro ⟨τ, hτ⟩ ⟨-, hdiv⟩
      cases hτ with
      | step hstep => exact hsteps.1 ⟨τ, hstep⟩ hdiv
      | receive v hvalue =>
        rw [isComputed, hvalue] at hi
        cases hi
    · intro hdiv
      obtain ⟨τ, hτ⟩ := hsteps.2 fun h => hdiv ⟨hi, h⟩
      exact ⟨τ, .step hτ⟩
  · refine ⟨fun _ hdiv => hi hdiv.1, fun _ => ?_⟩
    cases i with
    | assign target value =>
      cases target with
      | var x => exact ⟨_, .receive 0 (by simpa [isComputed] using hi)⟩
      | _ => exact ⟨σ, .step (.skip fun y hy => by cases hy)⟩
    | bind x origin => exact ⟨_, .step (.bind 0)⟩
    | _ => exact ⟨σ, .step (.skip fun y hy => by cases hy)⟩

end Instruction

/-- Every word that is computed fits the local that it is assigned to. -/
def Flowgraph.ComputesConsistently (g : Flowgraph) : Prop :=
  ∀ s ∈ g.sites, s.instruction.isComputed = true → s.instruction.WidthConsistent

end FlowHistory
