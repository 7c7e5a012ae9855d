import FlowHistory.Decimal.Shortest

/-!
Plain decimal text: digits and at most one point, never an exponent. Whole numbers carry no point,
a zero keeps its sign, and what is not a finite number has a word of its own.
-/
namespace FlowHistory.Decimal

def zeros (n : Nat) : String := String.ofList (List.replicate n '0')

def Dec.plain (d : Dec) : String :=
  let digits := Nat.toDigits 10 d.digits
  if 0 ≤ d.exponent then String.ofList digits ++ zeros d.exponent.toNat
  else
    let places := (-d.exponent).toNat
    if places < digits.length then
      String.ofList (digits.take (digits.length - places)) ++ "." ++
        String.ofList (digits.drop (digits.length - places))
    else "0." ++ zeros (places - digits.length) ++ String.ofList digits

def Reading.plain : Reading → String
  | .notANumber => "NaN"
  | .infinite negative => if negative then "-inf" else "inf"
  | .finite negative x => (if negative then "-" else "") ++ x.shortest.plain

/-- The text of a 32-bit value, given by its bit pattern. -/
def single (bits : BitVec 32) : String := (BinaryFormat.single.read bits.toNat).plain

/-- The text of a 64-bit value, given by its bit pattern. -/
def double (bits : BitVec 64) : String := (BinaryFormat.double.read bits.toNat).plain

end FlowHistory.Decimal
