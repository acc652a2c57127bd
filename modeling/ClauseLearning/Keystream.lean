/-!
# A keystream of random words

The ChaCha stream cipher with twelve rounds, keyed by a seed. Every word of the stream can be had
by its position, so a user of the stream only has to count the words that it took.
-/

namespace ClauseLearning.Keystream

/-- The state that the rounds work on, a four by four matrix row by row. -/
abbrev Matrix := Vector UInt32 16

abbrev Key := Vector UInt32 8

def rotateLeft (w n : UInt32) : UInt32 := (w <<< n) ||| (w >>> (32 - n))

/-- Adds one cell to another, and mixes the sum into a third by exclusive or and rotation. -/
def mix (m : Matrix) (target addend mixed : Fin 16) (rotation : UInt32) : Matrix :=
  let m := m.set target (m[target] + m[addend])
  m.set mixed (rotateLeft (m[mixed] ^^^ m[target]) rotation)

def quarterRound (m : Matrix) (a b c d : Fin 16) : Matrix :=
  let m := mix m a b d 16
  let m := mix m c d b 12
  let m := mix m a b d 8
  mix m c d b 7

/-- One round over the columns and one over the diagonals. -/
def doubleRound (m : Matrix) : Matrix :=
  let m := quarterRound m 0 4 8 12
  let m := quarterRound m 1 5 9 13
  let m := quarterRound m 2 6 10 14
  let m := quarterRound m 3 7 11 15
  let m := quarterRound m 0 5 10 15
  let m := quarterRound m 1 6 11 12
  let m := quarterRound m 2 7 8 13
  quarterRound m 3 4 9 14

/-- The constants, the key, the number of the block in two words, and two words of zeros. -/
def initial (key : Key) (number : UInt64) : Matrix :=
  #v[0x61707865, 0x3320646e, 0x79622d32, 0x6b206574,
    key[0], key[1], key[2], key[3], key[4], key[5], key[6], key[7],
    number.toUInt32, (number >>> 32).toUInt32, 0, 0]

/-- The block of the stream with the given number. -/
def block (key : Key) (number : UInt64) : Matrix :=
  Vector.zipWith (· + ·) (Nat.repeat doubleRound 6 (initial key number)) (initial key number)

/-- The next state of the generator that spreads a seed over a key. -/
def advance (state : UInt64) : UInt64 := state * 6364136223846793005 + 11634580027462260723

/-- What the spreading generator gives out in a state. -/
def spread (state : UInt64) : UInt32 :=
  let x := (((state >>> 18) ^^^ state) >>> 27).toUInt32
  let rotation := (state >>> 59).toUInt32
  (x >>> rotation) ||| (x <<< ((32 - rotation) % 32))

/-- The key of a seed. -/
def keyOfSeed (seed : UInt64) : Key :=
  Vector.ofFn fun i => spread (Nat.repeat advance (i.val + 1) seed)

/-- The 64-bit word of the stream at a position: two neighbours in a block, the lower half first. -/
def word (key : Key) (position : Nat) : UInt64 :=
  let b := block key (.ofNat (position / 8))
  let i := position % 8
  have h : i < 8 := Nat.mod_lt _ (by decide)
  b[2 * i].toUInt64 ||| (b[2 * i + 1].toUInt64 <<< 32)

/-- A number below `2 ^ 53`, spread evenly. -/
def fraction (key : Key) (position : Nat) : Nat := (word key position >>> 11).toNat

/-- A fair coin. -/
def coin (key : Key) (position : Nat) : Bool := word key position < 0x8000000000000000

end ClauseLearning.Keystream
