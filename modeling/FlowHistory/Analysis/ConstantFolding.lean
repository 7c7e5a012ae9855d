import FlowHistory.Analysis.Basic

/-!
Constant folding over integral locals.

A local is not reached, holds one known word, or may hold anything. Words of 32 and 64 bits fold with
two's complement arithmetic, shift distances count modulo the width, and comparisons give a 32-bit
word. Nothing is known of a division by zero.
-/
namespace FlowHistory

inductive ConstValue where
  | bottom
  | top
  | int (value : BitVec 32)
  | long (value : BitVec 64)
  deriving DecidableEq, Repr

namespace ConstValue

def zero : LocalType → ConstValue
  | .long => .long 0
  | _ => .int 0

def isConstant : ConstValue → Bool
  | .int _ | .long _ => true
  | .bottom | .top => false

/-- Two different constants have no common value below `⊤`. -/
def union : ConstValue → ConstValue → ConstValue
  | .bottom, x | x, .bottom => x
  | x, y => if x = y then x else .top

def render : ConstValue → String
  | .bottom => "⊥"
  | .top => "⊤"
  | .int v => toString v.toInt
  | .long v => toString v.toInt ++ "L"

instance : LatticeValue ConstValue where
  join x y := .ok (x.union y)
  render := render

end ConstValue

namespace ConstantFolding

/-- Arithmetic on words of one width; a division by zero has no result, nor has a comparison. -/
def arithmetic? {w : Nat} (op : BinaryOp) (a b : BitVec w) : Option (BitVec w) :=
  match op with
  | .add => some (a + b)
  | .sub => some (a - b)
  | .mul => some (a * b)
  | .div => if b = 0 then none else some (a.sdiv b)
  | .rem => if b = 0 then none else some (a.srem b)
  | .and => some (a &&& b)
  | .or => some (a ||| b)
  | .xor => some (a ^^^ b)
  | .shl => some (a <<< (b.toNat % w))
  | .shr => some (a.sshiftRight (b.toNat % w))
  | .ushr => some (a >>> (b.toNat % w))
  | .cmp | .cmpl | .cmpg | .eq | .ne | .lt | .le | .gt | .ge => none

/-- Folds two words of one width; `lift` is the value of a word of that width. -/
def foldWords {w : Nat} (lift : BitVec w → ConstValue) (op : BinaryOp) (a b : BitVec w) :
    ConstValue :=
  if op.isRelational || op.isThreeWay then
    .int (BitVec.ofInt 32 (op.verdict (compare a.toInt b.toInt)))
  else
    match arithmetic? op a b with
    | some v => lift v
    | none => .top

/-- Folds `a op b`. An operand that is not reached wins over one that is unknown, and words of
different width are folded as the wider ones. -/
def foldBinary (op : BinaryOp) : ConstValue → ConstValue → ConstValue
  | .bottom, _ | _, .bottom => .bottom
  | .top, _ | _, .top => .top
  | .int a, .int b => foldWords .int op a b
  | .int a, .long b => foldWords .long op (a.signExtend 64) b
  | .long a, .int b => foldWords .long op a (b.signExtend 64)
  | .long a, .long b => foldWords .long op a b

def negate : ConstValue → ConstValue
  | .int v => .int (-v)
  | .long v => .long (-v)
  | x => x

/-- Converts a word, taken at 64 bits. -/
def castWord (type : LocalType) (v : BitVec 64) : ConstValue :=
  match type with
  | .byte => .int ((v.setWidth 8).signExtend 32)
  | .short => .int ((v.setWidth 16).signExtend 32)
  | .char => .int ((v.setWidth 16).setWidth 32)
  | .boolean | .int => .int (v.setWidth 32)
  | .long => .long v
  | .float | .double | .reference => .top

def cast (type : LocalType) : ConstValue → ConstValue
  | .int v => castWord type (v.signExtend 64)
  | .long v => castWord type v
  | x => x

/-- The value of an operand. Locals that are not tracked may hold anything; constants that are no
numbers are not supported. -/
def operand (e : Env ConstValue) : Operand → Except Fault ConstValue
  | .read x => .ok ((e.get? x).getD .top)
  | .literal (.int v) => .ok (.int v)
  | .literal (.long v) => .ok (.long v)
  | .literal (.float _) | .literal (.double _) => .ok .top
  | x => .error (.unsupportedValue .constantFolding x)

def evaluate (e : Env ConstValue) : Expr → Except Fault ConstValue
  | .operand x => operand e x
  | .binary op lhs rhs => do
    let a ← operand e lhs
    let b ← operand e rhs
    return foldBinary op a b
  | .neg x => return negate (← operand e x)
  | .cast type x => return cast type (← operand e x)
  | .length _ | .instanceOf _ _ | .invoke _ | .field _ _ | .element _ _ | .create _
  | .createArray _ _ => return .top

def transfer (site : Site) (e : Env ConstValue) : Except Fault (Env ConstValue) :=
  match site.instruction with
  | .assign (.var x) value =>
    if e.contains x then return e.write x (← evaluate e value) else return e
  | .bind x _ => return e.write x .top
  | _ => return e

def analysis : Analysis ConstValue where
  kind := .constantFolding
  tracks x := x.type.isIntegral
  bottom _ := .bottom
  fresh _ x := .zero x.type
  transfer _ := transfer
  height _ := 2

end ConstantFolding

end FlowHistory
