import FlowHistory.Decimal.Plain
import FlowHistory.Program.Local

/-!
Operands, expressions and assignable places of a three-address program, with their text and the
locals they read. An operand is a local or a literal; expressions do not nest.
-/
namespace FlowHistory

/-- A literal. Integers are words; a floating point literal is kept as its bit pattern, since it is
only ever shown. -/
inductive Constant where
  | int (value : BitVec 32)
  | long (value : BitVec 64)
  | float (bits : BitVec 32)
  | double (bits : BitVec 64)
  | null
  | string (text : String)
  | classRef (name : String)
  | methodHandle (name : String)
  deriving DecidableEq, Repr

namespace Constant

def quoted (text : String) : String := "\"" ++ text ++ "\""

def render : Constant → String
  | .int v => toString v.toInt
  | .long v => toString v.toInt ++ "L"
  | .float bits => Decimal.single bits ++ "F"
  | .double bits => Decimal.double bits
  | .null => "null"
  | .string text => quoted text
  | .classRef name => "class " ++ quoted name
  | .methodHandle name => "methodhandle: " ++ quoted name

/-- Whether the literal denotes an object rather than a number or `null`. -/
def isObject : Constant → Bool
  | .string _ | .classRef _ | .methodHandle _ => true
  | _ => false

end Constant

inductive Operand where
  | read (x : Local)
  | literal (c : Constant)
  deriving DecidableEq, Repr

namespace Operand

def local? : Operand → Option Local
  | .read x => some x
  | .literal _ => none

def render : Operand → String
  | .read x => x.render
  | .literal c => c.render

end Operand

inductive BinaryOp where
  | add | sub | mul | div | rem
  | and | or | xor
  | shl | shr | ushr
  | cmp | cmpl | cmpg
  | eq | ne | lt | le | gt | ge
  deriving DecidableEq, Repr

namespace BinaryOp

def symbol : BinaryOp → String
  | .add => "+"
  | .sub => "-"
  | .mul => "*"
  | .div => "/"
  | .rem => "%"
  | .and => "&"
  | .or => "|"
  | .xor => "^"
  | .shl => "<<"
  | .shr => ">>"
  | .ushr => ">>>"
  | .cmp => "cmp"
  | .cmpl => "cmpl"
  | .cmpg => "cmpg"
  | .eq => "=="
  | .ne => "!="
  | .lt => "<"
  | .le => "<="
  | .gt => ">"
  | .ge => ">="

def isRelational : BinaryOp → Bool
  | .eq | .ne | .lt | .le | .gt | .ge => true
  | _ => false

def isThreeWay : BinaryOp → Bool
  | .cmp | .cmpl | .cmpg => true
  | _ => false

def isShift : BinaryOp → Bool
  | .shl | .shr | .ushr => true
  | _ => false

/-- Whether the relation named by `op` holds of two values compared as `o`. Of an operator that
names no relation it never holds. -/
def relates (op : BinaryOp) (o : Ordering) : Bool :=
  match op with
  | .eq => o == .eq
  | .ne => o != .eq
  | .lt => o == .lt
  | .le => o != .gt
  | .gt => o == .gt
  | .ge => o != .lt
  | _ => false

/-- The number that a comparison gives: 1 or 0 for a relation that holds or not, and otherwise -1, 0
or 1 for less, equal and greater. -/
def verdict (op : BinaryOp) (o : Ordering) : Int :=
  if op.isRelational then (op.relates o).toNat
  else match o with
    | .lt => -1
    | .eq => 0
    | .gt => 1

end BinaryOp

/-- What is known of an invoked method: it taints its argument, cleans it, or must not be given
tainted data. -/
structure Tags where
  taint : Bool
  clean : Bool
  sensitive : Bool
  deriving DecidableEq, Repr

namespace Tags

def empty : Tags := ⟨false, false, false⟩

/-- One bit a tag: 1 for taint, 2 for clean, 4 for sensitive. -/
def code (t : Tags) : Nat := t.taint.toNat + 2 * t.clean.toNat + 4 * t.sensitive.toNat

end Tags

structure Invocation where
  method : String
  args : List Operand
  tags : Tags
  deriving DecidableEq, Repr

namespace Invocation

def render (c : Invocation) : String :=
  c.method ++ "(" ++ ", ".intercalate (c.args.map Operand.render) ++ ")"

def locals (c : Invocation) : List Local := c.args.filterMap Operand.local?

end Invocation

/-- A field of an object, or a static field when there is no object. -/
def renderField : Option Local → String → String
  | some base, name => base.render ++ "." ++ name
  | none, name => "<" ++ name ++ ">"

def renderElement (base : Local) (index : Operand) : String :=
  base.render ++ "[" ++ index.render ++ "]"

inductive Expr where
  | operand (x : Operand)
  | binary (op : BinaryOp) (lhs rhs : Operand)
  | neg (x : Operand)
  | length (x : Operand)
  | cast (type : LocalType) (x : Operand)
  | instanceOf (x : Operand) (className : String)
  | invoke (call : Invocation)
  | field (base : Option Local) (name : String)
  | element (base : Local) (index : Operand)
  | create (className : String)
  | createArray (elementType : String) (size : Operand)
  deriving DecidableEq, Repr

namespace Expr

def render : Expr → String
  | .operand x => x.render
  | .binary op lhs rhs => lhs.render ++ " " ++ op.symbol ++ " " ++ rhs.render
  | .neg x => "neg " ++ x.render
  | .length x => "lengthof " ++ x.render
  | .cast type x => "(" ++ type.render ++ ") " ++ x.render
  | .instanceOf x className => x.render ++ " instanceof " ++ className
  | .invoke call => "invoke " ++ call.render
  | .field base name => renderField base name
  | .element base index => renderElement base index
  | .create className => "new " ++ className
  | .createArray elementType size => "newarray (" ++ elementType ++ ")[" ++ size.render ++ "]"

/-- The locals an expression reads, from left to right. -/
def used : Expr → List Local
  | .operand x | .neg x | .length x | .cast _ x | .instanceOf x _ | .createArray _ x =>
    x.local?.toList
  | .binary _ lhs rhs => lhs.local?.toList ++ rhs.local?.toList
  | .invoke call => call.locals
  | .field base _ => base.toList
  | .element base index => base :: index.local?.toList
  | .create _ => []

end Expr

inductive Place where
  | var (x : Local)
  | field (base : Option Local) (name : String)
  | element (base : Local) (index : Operand)
  deriving DecidableEq, Repr

namespace Place

def render : Place → String
  | .var x => x.render
  | .field base name => renderField base name
  | .element base index => renderElement base index

/-- The locals read to find the place. Writing a local reads none. -/
def used : Place → List Local
  | .var _ => []
  | .field base _ => base.toList
  | .element base index => base :: index.local?.toList

end Place

end FlowHistory
