import FlowHistory.Analysis.Basic
import FlowHistory.Bits.Arithmetic

/-!
Constant bits of integral locals: every bit of a local is tracked on its own, so that masks, shifts
and products keep what they determine even where the whole value is unknown.
-/
namespace FlowHistory

namespace ConstantBits

/-- The pattern of an operand. Of locals that are not tracked and of floating point constants only
the width is known; constants that are no numbers are not supported. -/
def operand (e : Env BitPattern) : Operand → Except Fault BitPattern
  | .read x => .ok ((e.get? x).getD (.top x.type.bitWidth))
  | .literal (.int v) => .ok (.ofBitVec v)
  | .literal (.long v) => .ok (.ofBitVec v)
  | .literal (.float _) => .ok (.top 32)
  | .literal (.double _) => .ok (.top 64)
  | x => .error (.unsupportedValue .constantBits x)

/-- The pattern of an expression. Where nothing is known of it, `width` is taken. -/
def evaluate (e : Env BitPattern) (width : Nat) : Expr → Except Fault BitPattern
  | .operand x => operand e x
  | .binary op lhs rhs => do
    let a ← operand e lhs
    let b ← operand e rhs
    return BitPattern.binary op a b
  | .neg x => return (← operand e x).neg
  | .length _ => return .top 32
  | .cast type x => return (← operand e x).cast type
  | .instanceOf _ _ | .invoke _ | .field _ _ | .element _ _ | .create _ | .createArray _ _ =>
    return .top width

def transfer (site : Site) (e : Env BitPattern) : Except Fault (Env BitPattern) :=
  match site.instruction with
  | .assign (.var x) value =>
    if e.contains x then do
      let v ← evaluate e x.type.bitWidth value
      return e.write x (v.zeroExtend x.type.bitWidth)
    else return e
  | .bind x _ => return e.write x (.top x.type.bitWidth)
  | .lookupSwitch _ | .tableSwitch _ => .error (.unsupportedInstruction .constantBits site.instruction)
  | _ => return e

def analysis : Analysis BitPattern where
  kind := .constantBits
  tracks x := x.type.isIntegral
  bottom x := .bottom x.type.bitWidth
  fresh _ x := .zero x.type.bitWidth
  transfer _ := transfer
  height _ := 2 * 64

end ConstantBits

end FlowHistory
