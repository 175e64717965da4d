/-!
# Binary floating-point words

A 64-bit word holds a sign, eleven exponent bits and 52 fraction bits. This module takes words
apart, rounds fractions to the nearest word and gives the four arithmetic operations and the
order on words, infinities and not-a-numbers included.
-/

namespace ExprBackend.Binary64

/-- The sign bit alone. -/
def signBit : UInt64 := 0x8000000000000000

/-- Positive infinity. -/
def infinity : UInt64 := 0x7ff0000000000000

/-- The not-a-number that reading one gives. -/
def readNaN : UInt64 := 0x7ff8000000000001

/-- The not-a-number that an operation without a result gives. -/
def invalidNaN : UInt64 := 0xfff8000000000000

/-- The bit that tells a quiet not-a-number. -/
def quietBit : UInt64 := 0x0008000000000000

/-- The word without its sign. -/
def magnitude (w : UInt64) : UInt64 :=
  w &&& 0x7fffffffffffffff

def isNegative (w : UInt64) : Bool :=
  w &&& signBit != 0

def isNaN (w : UInt64) : Bool :=
  magnitude w > infinity

/-- A finite magnitude as `mantissa * 2 ^ (exponent - 1074)`. -/
structure Finite where
  mantissa : Nat
  exponent : Nat

/-- The leading bit of a normal mantissa, which the word does not hold. -/
def hiddenBit : Nat := 0x10000000000000

/-- The parts of a finite word, its sign left out. Words below the first normal one share the
exponent of the first normal ones. -/
def finite (w : UInt64) : Finite :=
  let m := (magnitude w).toNat
  let field := m / hiddenBit
  if field = 0 then ⟨m, 0⟩ else ⟨hiddenBit + m % hiddenBit, field - 1⟩

/-- `num / den` to the nearest integer, a half to the even neighbour. -/
def roundQuotient (num den : Nat) : Nat :=
  let q := num / den
  let r := num % den
  if 2 * r > den ∨ (2 * r = den ∧ q % 2 = 1) then q + 1 else q

/-- The power of two at or below `num / den`, as an integer exponent. -/
def binaryOrder (num den : Nat) : Int :=
  let guess : Int := (num.log2 : Int) - den.log2
  let fits := if guess ≥ 0 then den <<< guess.toNat ≤ num else den ≤ num <<< (-guess).toNat
  if fits then guess else guess - 1

/-- The word nearest to `num / den`, a half to the even neighbour; infinity when no finite word
is near. The word is the rounded mantissa plus its unit's exponent in the exponent field, so a
mantissa that rounds up to a power of two carries into the next exponent. -/
def ofFraction (num den : Nat) : UInt64 :=
  if num = 0 ∨ den = 0 then 0
  else
    let unit := max (binaryOrder num den - 52) (-1074)
    let mantissa :=
      if unit ≥ 0 then roundQuotient num (den <<< unit.toNat)
      else roundQuotient (num <<< (-unit).toNat) den
    let word := (unit + 1074).toNat * hiddenBit + mantissa
    if word ≥ infinity.toNat then infinity else word.toUInt64

/-- An operation of two numbers on words: a not-a-number operand comes back quiet, the left one
first, and an operation of two numbers without a result gives `invalidNaN`. -/
def lift (f : Float → Float → Float) (a b : UInt64) : UInt64 :=
  if isNaN a then a ||| quietBit
  else if isNaN b then b ||| quietBit
  else
    let r := (f (Float.ofBits a) (Float.ofBits b)).toBits
    if isNaN r then invalidNaN else r

def add : UInt64 → UInt64 → UInt64 := lift (· + ·)
def sub : UInt64 → UInt64 → UInt64 := lift (· - ·)
def mul : UInt64 → UInt64 → UInt64 := lift (· * ·)
def div : UInt64 → UInt64 → UInt64 := lift (· / ·)

/-- Equality of numbers: both zeros are equal, a not-a-number equals nothing. -/
def eq (a b : UInt64) : Bool :=
  Float.ofBits a == Float.ofBits b

/-- The order of numbers; a not-a-number is below nothing. -/
def lt (a b : UInt64) : Bool :=
  decide (Float.ofBits a < Float.ofBits b)

def le (a b : UInt64) : Bool :=
  decide (Float.ofBits a ≤ Float.ofBits b)

end ExprBackend.Binary64
