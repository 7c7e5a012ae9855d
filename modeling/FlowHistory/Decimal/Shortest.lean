/-!
The shortest decimal of a binary floating point value.

A finite value is read off its bit pattern as `m * 2^q`. The reals that round to it form an
interval, whose ends belong to it exactly when `m` is even. Among the decimals in that interval the
shortest is chosen, of two shortest ones the nearer, and of two equally near ones the larger. All
comparisons are made between natural numbers, so nothing is lost to rounding.
-/
namespace FlowHistory.Decimal

/-- Field widths of an interchange format: exponent and stored fraction, in bits. -/
structure BinaryFormat where
  exponentBits : Nat
  fractionBits : Nat

def BinaryFormat.single : BinaryFormat := ⟨8, 23⟩
def BinaryFormat.double : BinaryFormat := ⟨11, 52⟩

/-- The magnitude `m * 2^q`. If `narrowBelow`, the gap to the next smaller value is half the gap to
the next larger one. -/
structure Magnitude where
  m : Nat
  q : Int
  narrowBelow : Bool
  deriving DecidableEq, Repr

inductive Reading where
  | notANumber
  | infinite (negative : Bool)
  | finite (negative : Bool) (magnitude : Magnitude)
  deriving DecidableEq, Repr

/-- Splits a bit pattern into sign, exponent and fraction. -/
def BinaryFormat.read (f : BinaryFormat) (bits : Nat) : Reading :=
  let fraction := bits % 1 <<< f.fractionBits
  let exponent := bits >>> f.fractionBits % 1 <<< f.exponentBits
  let negative := bits.testBit (f.exponentBits + f.fractionBits)
  let least : Int := 2 - (1 <<< (f.exponentBits - 1) : Nat) - f.fractionBits
  if exponent = 1 <<< f.exponentBits - 1 then
    if fraction = 0 then .infinite negative else .notANumber
  else if exponent = 0 then
    .finite negative ⟨fraction, least, false⟩
  else
    .finite negative
      ⟨1 <<< f.fractionBits + fraction, least + exponent - 1, fraction = 0 && 1 < exponent⟩

/-- The number `digits * 10^exponent`. -/
structure Dec where
  digits : Nat
  exponent : Int
  deriving DecidableEq, Repr

/-- Compares `d` with `n * 2^j`. -/
def Dec.compareBinary (d : Dec) (n : Nat) (j : Int) : Ordering :=
  compare ((d.digits * Nat.pow 10 d.exponent.toNat) <<< (-j).toNat)
    (n <<< j.toNat * Nat.pow 10 (-d.exponent).toNat)

/-- Whether `d` is one of the reals that round to `x`, ties going to the even neighbour. -/
def Magnitude.readsBack (x : Magnitude) (d : Dec) : Bool :=
  let low := if x.narrowBelow then 4 * x.m - 1 else 4 * x.m - 2
  let high := 4 * x.m + 2
  let inclusive := x.m % 2 == 0
  let atLow := d.compareBinary low (x.q - 2)
  let atHigh := d.compareBinary high (x.q - 2)
  (atLow == .gt || (inclusive && atLow == .eq)) && (atHigh == .lt || (inclusive && atHigh == .eq))

def digitCount (n : Nat) : Nat := (Nat.toDigits 10 n).length

/-- The least `k` with `x < 10^k`, for a positive `x`. -/
def Magnitude.scale (x : Magnitude) : Int :=
  let num := x.m <<< x.q.toNat
  let den := 1 <<< (-x.q).toNat
  if den ≤ num then digitCount (num / den) else 1 - (digitCount ((den - 1) / num) : Int)

/-- The multiple of `10^j` just below `x`, or `x` itself if it is one. -/
def Magnitude.floorAt (x : Magnitude) (j : Int) : Dec :=
  ⟨x.m <<< x.q.toNat * Nat.pow 10 (-j).toNat / Nat.pow 10 j.toNat <<< (-x.q).toNat, j⟩

/-- Whether `x` lies strictly below the middle between `d` and the next multiple of its unit. -/
def Magnitude.nearerBelow (x : Magnitude) (d : Dec) : Bool :=
  (⟨2 * d.digits + 1, d.exponent⟩ : Dec).compareBinary (2 * x.m) x.q == .gt

/-- The choice between the two neighbours of `x` among the multiples of `10^j`. -/
def Magnitude.pick? (x : Magnitude) (j : Int) : Option Dec :=
  let below := x.floorAt j
  let above : Dec := ⟨below.digits + 1, j⟩
  match x.readsBack below, x.readsBack above with
  | true, true => some (if x.nearerBelow below then below else above)
  | true, false => some below
  | false, true => some above
  | false, false => none

/-- The exact value, written with as many digits as it takes. -/
def Magnitude.exact (x : Magnitude) : Dec :=
  if 0 ≤ x.q then ⟨x.m <<< x.q.toNat, 0⟩ else ⟨x.m * Nat.pow 5 (-x.q).toNat, x.q⟩

/-- Moves up to `n` trailing zeros of the digits into the exponent. -/
def Dec.dropZeros : Nat → Dec → Dec
  | 0, d => d
  | n + 1, d =>
    if d.digits % 10 = 0 ∧ d.digits ≠ 0 then dropZeros n ⟨d.digits / 10, d.exponent + 1⟩ else d

/-- The shortest decimal that reads back as `x`. Seventeen digits suffice for either format. -/
def Magnitude.shortest (x : Magnitude) : Dec :=
  if x.m = 0 then ⟨0, 0⟩
  else
    let found := (List.range 17).findSome? fun n : Nat => x.pick? (x.scale - n - 1)
    let d := found.getD x.exact
    d.dropZeros (digitCount d.digits)

end FlowHistory.Decimal
