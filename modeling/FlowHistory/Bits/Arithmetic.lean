import FlowHistory.Bits.Pattern

/-!
Arithmetic on bit patterns.

Both operands are first brought to one width by zero extension, except that a shift is as wide as
the value shifted and that comparisons extend the sign. Addition ripples a carry through the
positions; subtraction and negation are additions of a complement. Multiplication is exact as long
as few bits are unknown, and otherwise keeps the zeros known at both ends.
-/
namespace FlowHistory.BitPattern

/-- The two operands at the width of the wider one. -/
def widen (a b : BitPattern) : BitPattern × BitPattern :=
  let w := max a.width b.width
  (a.zeroExtend w, b.zeroExtend w)

/-- The majority of three reached bits, known as soon as two of them agree. -/
def majority (x y z : Bit) : Bit :=
  let inputs := [x, y, z]
  if 2 ≤ inputs.count .one then .one
  else if 2 ≤ inputs.count .zero then .zero
  else .top

/-- The carry out of a position. A bit that is not reached may still settle to either value, so the
carry is the meet over all settlements. -/
def carry (x y z : Bit) : Bit :=
  let outcomes := x.settlements.flatMap fun x => y.settlements.flatMap fun y =>
    z.settlements.map fun z => majority x y z
  outcomes.foldl Bit.meet .top

/-- The sum bit of a position: unknown if an input is, and else not reached if an input is not. -/
def sumBit (x y z : Bit) : Bit :=
  let inputs := [x, y, z]
  if .top ∈ inputs then .top
  else if .bottom ∈ inputs then .bottom
  else Bit.ofBool (inputs.count .one % 2 == 1)

def ripple : Bit → List Bit → List Bit → List Bit
  | c, x :: xs, y :: ys => sumBit x y c :: ripple (carry x y c) xs ys
  | _, _, _ => []

/-- Sum of two patterns of one width and a carry into the lowest position. -/
def addWithCarry (a b : BitPattern) (c : Bit) : BitPattern := ⟨ripple c a.bits b.bits⟩

def add (a b : BitPattern) : BitPattern :=
  let (a, b) := widen a b
  addWithCarry a b .zero

/-- `a - b` is `a + ~b + 1`. -/
def sub (a b : BitPattern) : BitPattern :=
  let (a, b) := widen a b
  addWithCarry a (b.map Bit.not) .one

/-- `-a` is `~a + 1`. -/
def neg (a : BitPattern) : BitPattern := add (a.map Bit.not) (constant 1 a.width)

/-- Moves the bits up by `n` positions. -/
def shiftLeft (a : BitPattern) (n : Nat) : BitPattern :=
  ⟨(List.replicate n Bit.zero ++ a.bits).take a.width⟩

/-- Moves the bits down by `n` positions and fills from above. -/
def shiftRight (a : BitPattern) (n : Nat) (fill : Bit) : BitPattern :=
  ⟨a.bits.drop n ++ List.replicate (min n a.width) fill⟩

/-- The numbers that result from settling every bit that is not known. -/
def members : List Bit → List Nat
  | [] => [0]
  | b :: r => (members r).flatMap fun high => b.choices.map fun low => low.toNat + 2 * high

/-- The join of the products of all members, for two patterns of one width. -/
def productOfMembers (a b : BitPattern) : BitPattern :=
  let products := (members a.bits).flatMap fun x => (members b.bits).map fun y => x * y
  products.foldl (fun p n => p.union (ofBitVec (BitVec.ofNat a.width n))) (bottom a.width)

/-- The zeros known at the low ends add up. Those at the high ends add up less the width. Nothing is
claimed of the bits between. -/
def productByZeros (a b : BitPattern) : BitPattern :=
  let low := min (a.trailingZeros + b.trailingZeros) a.width
  let high := a.leadingZeros + b.leadingZeros - a.width
  ⟨(List.range a.width).map fun i => if i < low ∨ a.width - high ≤ i then .zero else .top⟩

/-- How many unknown bits two factors may have together for their members to be multiplied out. -/
def enumerationLimit : Nat := 5

/-- The first rule that applies: both constant; one of them zero; one of them a power of two; few
unknown bits; zeros at the ends. -/
def mul (a b : BitPattern) : BitPattern :=
  let (a, b) := widen a b
  match a.toRaw, b.toRaw with
  | some x, some y => ofBitVec (BitVec.ofNat a.width (x * y))
  | _, _ =>
    if a.isZero || b.isZero then zero a.width
    else match a.powerOfTwo?, b.powerOfTwo? with
      | some k, _ => b.shiftLeft k
      | none, some k => a.shiftLeft k
      | none, none =>
        if a.specialCount + b.specialCount ≤ enumerationLimit then productOfMembers a b
        else productByZeros a b

/-- The answer where no rule says more: not reached if an operand is not, else unknown. -/
def unknown (width : Nat) (a b : BitPattern) : BitPattern :=
  if a.isBottom || b.isBottom then bottom width else top width

def absorbing? : BinaryOp → Option Bit
  | .and => some .zero
  | .or => some .one
  | _ => none

/-- One position of `&`, `|` or `^` that no absorbing bit decides: two known bits do, and otherwise
`⊤` wins over `⊥`. -/
def undecidedBit (op : BinaryOp) (x y : Bit) : Bit :=
  match x.known?, y.known? with
  | some p, some q =>
    match op with
    | .and => Bit.ofBool (p && q)
    | .or => Bit.ofBool (p || q)
    | _ => Bit.ofBool (p ^^ q)
  | _, _ => if x = .top ∨ y = .top then .top else .bottom

/-- One position of `&`, `|` or `^`: an absorbing bit decides it whatever the other is. -/
def bitwiseBit (op : BinaryOp) (x y : Bit) : Bit :=
  match absorbing? op with
  | some b => if x = b ∨ y = b then b else undecidedBit op x y
  | none => undecidedBit op x y

/-- `&`, `|`, or else `^`. -/
def bitwise (op : BinaryOp) (a b : BitPattern) : BitPattern :=
  let (a, b) := widen a b
  ⟨List.zipWith (bitwiseBit op) a.bits b.bits⟩

/-- `<<`, `>>`, or else `>>>`, by a known distance. -/
def shiftBy (op : BinaryOp) (a : BitPattern) (n : Nat) : BitPattern :=
  match op with
  | .shl => a.shiftLeft n
  | .shr => a.shiftRight n a.signBit
  | _ => a.shiftRight n .zero

/-- `<<`, `>>`, or else `>>>`. A known distance is masked by the width less one. -/
def shift (op : BinaryOp) (a distance : BitPattern) : BitPattern :=
  match distance.toRaw with
  | none => unknown a.width a distance
  | some raw => shiftBy op a (raw &&& (a.width - 1))

/-- `/`, or else `%`, rounding toward zero. Nothing is known of a division by zero. -/
def divRem (op : BinaryOp) (a b : BitPattern) : BitPattern :=
  let (a, b) := widen a b
  match a.toSigned, b.toSigned with
  | some x, some y =>
    if y = 0 then top a.width
    else constant (if op = .div then x.tdiv y else x.tmod y) a.width
  | _, _ => unknown a.width a b

/-- A comparison gives a 32-bit number: 0 or 1 for a relation, else -1, 0 or 1. So of an undecided
relation only the lowest bit is unknown. -/
def compare (op : BinaryOp) (a b : BitPattern) : BitPattern :=
  let w := max a.width b.width
  match (a.signExtend w).toSigned, (b.signExtend w).toSigned with
  | some x, some y => constant (op.verdict (Ord.compare x y)) 32
  | _, _ =>
    if op.isRelational then ⟨.top :: List.replicate 31 .zero⟩ else top 32

/-- The value of `a op b`. -/
def binary (op : BinaryOp) (a b : BitPattern) : BitPattern :=
  match op with
  | .add => add a b
  | .sub => sub a b
  | .mul => mul a b
  | .div | .rem => divRem op a b
  | .and | .or | .xor => bitwise op a b
  | .shl | .shr | .ushr => shift op a b
  | .cmp | .cmpl | .cmpg | .eq | .ne | .lt | .le | .gt | .ge => compare op a b

/-- The value after a conversion. Narrow integers are cut and extended to 32 bits again; what leaves
the integers is unknown. -/
def cast (type : LocalType) (a : BitPattern) : BitPattern :=
  match type with
  | .long => a.signExtend 64
  | .int | .boolean => a.zeroExtend 32
  | .byte => (a.zeroExtend 8).signExtend 32
  | .short => (a.zeroExtend 16).signExtend 32
  | .char => (a.zeroExtend 16).zeroExtend 32
  | .float => top 32
  | .double | .reference => top 64

end FlowHistory.BitPattern
