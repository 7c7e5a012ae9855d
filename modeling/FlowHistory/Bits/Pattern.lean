import FlowHistory.Bits.Bit
import FlowHistory.Lattice

/-!
Vectors of abstract bits, least significant bit first. A pattern has any width; patterns of
different width have no join.
-/
namespace FlowHistory

structure BitPattern where
  bits : List Bit
  deriving DecidableEq, Repr

namespace BitPattern

def width (p : BitPattern) : Nat := p.bits.length

def filled (width : Nat) (b : Bit) : BitPattern := ⟨List.replicate width b⟩

def bottom (width : Nat) : BitPattern := filled width .bottom
def top (width : Nat) : BitPattern := filled width .top
def zero (width : Nat) : BitPattern := filled width .zero

/-- The pattern that describes one word. -/
def ofBitVec {w : Nat} (x : BitVec w) : BitPattern :=
  ⟨(List.range w).map fun i => Bit.ofBool (x.getLsbD i)⟩

/-- The pattern of an integer, reduced to `width` bits. -/
def constant (value : Int) (width : Nat) : BitPattern := ofBitVec (BitVec.ofInt width value)

def bit? (p : BitPattern) (i : Nat) : Option Bit := p.bits[i]?

/-- The number written by known bits. -/
def rawOf : List Bit → Option Nat
  | [] => some 0
  | b :: r => do
    let low ← b.known?
    let high ← rawOf r
    return low.toNat + 2 * high

/-- The unsigned value, if every bit is known. -/
def toRaw (p : BitPattern) : Option Nat := rawOf p.bits

/-- The value in two's complement, if every bit is known. -/
def toSigned (p : BitPattern) : Option Int :=
  p.toRaw.map fun n => (BitVec.ofNat p.width n).toInt

def isConstant (p : BitPattern) : Bool := p.bits.all fun b => !b.isSpecial
def isZero (p : BitPattern) : Bool := p.bits.all (· == .zero)
def isBottom (p : BitPattern) : Bool := p.bits.all (· == .bottom)

/-- The number of bits that are not known. -/
def specialCount (p : BitPattern) : Nat := p.bits.countP Bit.isSpecial

/-- The exponent, if the value is known and a power of two. -/
def powerOfTwo? (p : BitPattern) : Option Nat :=
  p.toRaw.bind fun n => if 1 <<< n.log2 = n then some n.log2 else none

/-- Low bits that are known to be 0, up to the first that is not. -/
def trailingZeros (p : BitPattern) : Nat := (p.bits.takeWhile (· == .zero)).length

/-- High bits that are known to be 0, down to the first that is not. -/
def leadingZeros (p : BitPattern) : Nat := (p.bits.reverse.takeWhile (· == .zero)).length

/-- Cuts to `width` bits, or fills up to them. -/
def resize (p : BitPattern) (width : Nat) (fill : Bit) : BitPattern :=
  ⟨p.bits.take width ++ List.replicate (width - p.width) fill⟩

def signBit (p : BitPattern) : Bit := p.bits.getLast?.getD .zero

def zeroExtend (p : BitPattern) (width : Nat) : BitPattern := p.resize width .zero
def signExtend (p : BitPattern) (width : Nat) : BitPattern := p.resize width p.signBit

def map (f : Bit → Bit) (p : BitPattern) : BitPattern := ⟨p.bits.map f⟩

/-- Bitwise join of two patterns of one width. -/
def union (p q : BitPattern) : BitPattern := ⟨List.zipWith Bit.join p.bits q.bits⟩

/-- Most significant bit first. -/
def render (p : BitPattern) : String := String.ofList (p.bits.reverse.map Bit.symbol)

instance : LatticeValue BitPattern where
  join p q := if p.width = q.width then .ok (p.union q) else .error (.differentWidths p.width q.width)
  render := render

@[simp] theorem width_filled (w : Nat) (b : Bit) : (filled w b).width = w := by
  simp [width, filled]

@[simp] theorem width_ofBitVec {w : Nat} (x : BitVec w) : (ofBitVec x).width = w := by
  simp [width, ofBitVec]

@[simp] theorem width_constant (v : Int) (w : Nat) : (constant v w).width = w :=
  width_ofBitVec _

@[simp] theorem width_resize (p : BitPattern) (w : Nat) (b : Bit) : (p.resize w b).width = w := by
  simp [width, resize]; omega

@[simp] theorem width_map (f : Bit → Bit) (p : BitPattern) : (p.map f).width = p.width := by
  simp [width, map]

end BitPattern

end FlowHistory
