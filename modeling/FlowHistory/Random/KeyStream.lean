/-!
A seeded stream of pseudo-random words and bounded draws from it.

The seed is expanded to a key of eight words by a linear congruential step whose output is permuted.
The stream is that of the ChaCha cipher with twelve rounds under this key, with a 64-bit block
counter and a zero nonce. A draw below `n` multiplies a 64-bit word by `n` and keeps the upper half;
words whose lower half falls outside a zone that holds a multiple of `n` are skipped.

This stands for the generator of the random number library that the analyses draw from, which is not part
of them: its seeding, its words and its way of drawing below a bound are given here so that a seed fixes
the same order of visits. That library skips words for as long as it has to. Here the skipping ends after
`maxAttempts` words, with zero. Of this module the theory uses only that a draw below `n` is below `n`;
what it says of random orders holds for every source of draws, or counts all that the draws may come to.
-/
namespace FlowHistory

/-- Four words, one a column of the cipher state. -/
structure CipherRow where
  w0 : UInt32
  w1 : UInt32
  w2 : UInt32
  w3 : UInt32
  deriving DecidableEq, Repr

namespace CipherRow

def zip (f : UInt32 → UInt32 → UInt32) (a b : CipherRow) : CipherRow :=
  ⟨f a.w0 b.w0, f a.w1 b.w1, f a.w2 b.w2, f a.w3 b.w3⟩

def map (f : UInt32 → UInt32) (a : CipherRow) : CipherRow := ⟨f a.w0, f a.w1, f a.w2, f a.w3⟩

def add : CipherRow → CipherRow → CipherRow := zip (· + ·)

/-- Exclusive or, then a rotation of each word to the left. -/
def xorRotate (a b : CipherRow) (n : UInt32) : CipherRow :=
  (zip (· ^^^ ·) a b).map fun w => (w <<< n) ||| (w >>> (32 - n))

/-- Moves the columns one place to the left. -/
def turn (a : CipherRow) : CipherRow := ⟨a.w1, a.w2, a.w3, a.w0⟩

def toList (a : CipherRow) : List UInt32 := [a.w0, a.w1, a.w2, a.w3]

end CipherRow

/-- The cipher state: sixteen words in four rows. -/
structure CipherState where
  a : CipherRow
  b : CipherRow
  c : CipherRow
  d : CipherRow
  deriving DecidableEq, Repr

namespace CipherState

def add (m n : CipherState) : CipherState := ⟨m.a.add n.a, m.b.add n.b, m.c.add n.c, m.d.add n.d⟩

/-- One half of a quarter round on all four columns. -/
def halfQuarter (m : CipherState) (i j : UInt32) : CipherState :=
  let a := m.a.add m.b
  let d := m.d.xorRotate a i
  let c := m.c.add d
  let b := m.b.xorRotate c j
  ⟨a, b, c, d⟩

/-- A quarter round on each column. -/
def columnRound (m : CipherState) : CipherState := (m.halfQuarter 16 12).halfQuarter 8 7

/-- Brings the diagonals into columns. -/
def toDiagonals (m : CipherState) : CipherState := ⟨m.a, m.b.turn, m.c.turn.turn, m.d.turn.turn.turn⟩

/-- Brings the diagonals back. -/
def ofDiagonals (m : CipherState) : CipherState := ⟨m.a, m.b.turn.turn.turn, m.c.turn.turn, m.d.turn⟩

def doubleRound (m : CipherState) : CipherState := m.columnRound.toDiagonals.columnRound.ofDiagonals

def toList (m : CipherState) : List UInt32 := m.a.toList ++ m.b.toList ++ m.c.toList ++ m.d.toList

end CipherState

/-- A key and the number of words already taken from its stream. -/
structure KeyStream where
  key0 : CipherRow
  key1 : CipherRow
  position : Nat
  deriving DecidableEq, Repr

namespace KeyStream

def nextSeedState (s : UInt64) : UInt64 := s * 6364136223846793005 + 11634580027462260723

/-- The key word of a seed state: a shifted mix of it, rotated right by its top five bits. -/
def seedWord (s : UInt64) : UInt32 :=
  let x := (((s >>> 18) ^^^ s) >>> 27).toUInt32
  let n := (s >>> 59).toUInt32
  (x >>> n) ||| (x <<< (32 - n))

/-- The key word number `n` of a seed. -/
def keyWord (seed : UInt64) (n : Nat) : UInt32 := seedWord (Nat.repeat nextSeedState (n + 1) seed)

def ofSeed (seed : UInt64) : KeyStream :=
  let w := keyWord seed
  ⟨⟨w 0, w 1, w 2, w 3⟩, ⟨w 4, w 5, w 6, w 7⟩, 0⟩

/-- The cipher block number `n`. -/
def block (k : KeyStream) (n : Nat) : List UInt32 :=
  let start : CipherState :=
    ⟨⟨0x61707865, 0x3320646e, 0x79622d32, 0x6b206574⟩, k.key0, k.key1,
      ⟨n.toUInt32, (n >>> 32).toUInt32, 0, 0⟩⟩
  (start.add (Nat.repeat CipherState.doubleRound 6 start)).toList

/-- The word number `n` of the stream. -/
def word (k : KeyStream) (n : Nat) : UInt32 := (k.block (n / 16))[n % 16]?.getD 0

/-- The next two words as one number, the first being its lower half. -/
def draw (k : KeyStream) : Nat × KeyStream :=
  ((k.word k.position).toNat + (k.word (k.position + 1)).toNat <<< 32,
    { k with position := k.position + 2 })

/-- The largest lower half that is accepted: one less than `n` shifted up to fill 64 bits. -/
def zone (n : Nat) : Nat := n <<< (63 - n.log2) - 1

/-- A number below `n`, drawn in at most the given number of attempts. -/
def belowWithin : Nat → Nat → KeyStream → Nat × KeyStream
  | 0, _, k => (0, k)
  | attempts + 1, n, k =>
    let (x, k) := k.draw
    let p := x * n
    if p.toUInt64.toNat ≤ zone n then (p >>> 64, k) else belowWithin attempts n k

/-- Every attempt is accepted with probability at least one half, so a run of refusals this long
does not occur. -/
def maxAttempts : Nat := 512

/-- A number below `n`, for a positive `n`. -/
def below (k : KeyStream) (n : Nat) : Nat × KeyStream := belowWithin maxAttempts n k

end KeyStream

end FlowHistory
