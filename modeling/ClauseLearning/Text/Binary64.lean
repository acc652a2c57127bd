import ClauseLearning.Text.Decimal

/-!
# Binary fractions in decimal

Decimal text of a number is read as the double nearest to it, where a number half way between two
goes to the one with the even last bit. A double is also a quotient of two naturals.
-/

namespace ClauseLearning.Text

/-- The natural number nearest to a quotient; a half goes to the even neighbour. -/
def roundQuotient (numerator denominator : Nat) : Nat :=
  let q := numerator / denominator
  let twice := 2 * (numerator % denominator)
  if twice < denominator ∨ twice = denominator ∧ q % 2 = 0 then q else q + 1

/-- The weight of the leading bit in the 53 bits of a significand. -/
def leadingBit : Nat := 0x10000000000000

/-- The bits of infinity. -/
def infinityBits : Nat := 0x7FF0000000000000

/-- A quotient divided by a power of two, as a quotient. -/
def divideByPower (numerator denominator : Nat) (exponent : Int) : Nat × Nat :=
  (numerator <<< (-exponent).toNat, denominator <<< exponent.toNat)

/-- The exponent of the last bit in the double nearest to a quotient, at least -1074. -/
def lastBitExponent (numerator denominator : Nat) : Int :=
  let estimate : Int := (numerator.log2 : Int) - denominator.log2 - 53
  let (n, d) := divideByPower numerator denominator estimate
  max (if n / d < 2 * leadingBit then estimate else estimate + 1) (-1074)

/-- The bits of the double nearest to a quotient. What is out of reach above is infinite. -/
def quotientBits (numerator denominator : Nat) : Nat :=
  let exponent := lastBitExponent numerator denominator
  let (n, d) := divideByPower numerator denominator exponent
  min ((exponent + 1074).toNat * leadingBit + roundQuotient n d) infinityBits

/-- The double nearest to `digits * 10 ^ exponent`. -/
def decimalToDouble (digits : Nat) (exponent : Int) : Float :=
  let magnitude := (Nat.toDigits 10 digits).length + exponent
  if digits = 0 ∨ magnitude < -400 then 0
  else if 400 < magnitude then Float.ofBits (.ofNat infinityBits)
  else
    let numerator := digits * Nat.pow 10 exponent.toNat
    Float.ofBits (.ofNat (quotientBits numerator (Nat.pow 10 (-exponent).toNat)))

/-- The longest run of digits in front, and what follows it. -/
def spanDigits (text : List Char) : List Char × List Char :=
  text.span fun c => (digit? c).isSome

/-- The number that digits stand for. -/
def digitsValue (digits : List Char) : Nat :=
  digits.foldl (fun value c => 10 * value + (digit? c).getD 0) 0

/-- Reads an exponent that goes to the end of the text: nothing, or a letter `e`, a sign if any,
and digits. -/
def readExponent? : List Char → Option Int
  | [] => some 0
  | c :: rest =>
    if c = 'e' ∨ c = 'E' then
      let (negative, digits) :=
        match rest with
        | '-' :: digits => (true, digits)
        | '+' :: digits => (false, digits)
        | digits => (false, digits)
      if digits.isEmpty ∨ digits.any fun c => (digit? c).isNone then none
      else
        let value : Int := digitsValue digits
        some (if negative then -value else value)
    else none

/-- Reads an unsigned finite number: digits with a point among or around them, at least one digit,
then an exponent if any. -/
def readUnsigned? (text : List Char) : Option Float :=
  let (whole, rest) := spanDigits text
  let (fraction, rest) :=
    match rest with
    | '.' :: rest => spanDigits rest
    | rest => ([], rest)
  if whole.isEmpty ∧ fraction.isEmpty then none
  else
    (readExponent? rest).map fun exponent =>
      decimalToDouble (digitsValue (whole ++ fraction)) (exponent - fraction.length)

/-- Reads a number without its sign: a finite one, or a name of infinity or of no number. -/
def readMagnitude? (text : List Char) : Option Float :=
  let lower := text.map Char.toLower
  if lower = "inf".toList ∨ lower = "infinity".toList then some (Float.ofBits (.ofNat infinityBits))
  else if lower = "nan".toList then some (Float.ofBits 0x7FF8000000000000)
  else readUnsigned? text

/-- Reads a double. -/
def readDouble? : List Char → Option Float
  | '-' :: text => (readMagnitude? text).map Float.neg
  | '+' :: text => readMagnitude? text
  | text => readMagnitude? text

/-- The quotient that a finite double without its sign stands for. -/
def doubleQuotient (x : Float) : Nat × Nat :=
  let bits := x.toBits.toNat % 0x8000000000000000
  let exponent := bits / leadingBit
  let fraction := bits % leadingBit
  if exponent = 0 then (fraction, 1 <<< 1074)
  else ((leadingBit + fraction) <<< (exponent - 1075), 1 <<< (1075 - exponent))

end ClauseLearning.Text
