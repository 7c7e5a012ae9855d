/-!
A single abstract bit: known, unknown (`⊤`), or not reached yet (`⊥`).
-/
namespace FlowHistory

inductive Bit where
  | zero | one | top | bottom
  deriving DecidableEq, Repr

namespace Bit

def ofBool (b : Bool) : Bit := if b then .one else .zero

/-- Neither known to be 0 nor known to be 1. -/
def isSpecial : Bit → Bool
  | .top | .bottom => true
  | .zero | .one => false

def known? : Bit → Option Bool
  | .zero => some false
  | .one => some true
  | .top | .bottom => none

/-- Least upper bound. -/
def join : Bit → Bit → Bit
  | .top, _ | _, .top => .top
  | .bottom, x | x, .bottom => x
  | .zero, .zero => .zero
  | .one, .one => .one
  | .zero, .one | .one, .zero => .top

/-- Greatest lower bound. -/
def meet : Bit → Bit → Bit
  | .bottom, _ | _, .bottom => .bottom
  | .top, x | x, .top => x
  | .zero, .zero => .zero
  | .one, .one => .one
  | .zero, .one | .one, .zero => .bottom

/-- Flips a known bit. -/
def not : Bit → Bit
  | .zero => .one
  | .one => .zero
  | .top => .top
  | .bottom => .bottom

def symbol : Bit → Char
  | .zero => '0'
  | .one => '1'
  | .top => '⊤'
  | .bottom => '⊥'

/-- The values a bit may still settle to while it is not reached. -/
def settlements : Bit → List Bit
  | .bottom => [.zero, .one]
  | b => [b]

/-- The concrete values that a bit may have. -/
def choices : Bit → List Bool
  | .zero => [false]
  | .one => [true]
  | .top | .bottom => [false, true]

end Bit

end FlowHistory
