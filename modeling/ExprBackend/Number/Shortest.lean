import ExprBackend.Number.Binary64

/-!
# Shortest decimals

The fewest decimal digits that read back as a given word. On each grid of one, two, ... 17
digits the two decimals around the value are tested against the interval of numbers that round
to the word; the first grid with a hit wins, of two hits the nearer one, and of two equally near
ones the even one.
-/

namespace ExprBackend.Binary64

/-- A decimal `digits * 10 ^ exponent`. -/
structure Decimal where
  digits : Nat
  exponent : Int
deriving DecidableEq, Repr

/-- Four times a value and the ends of the interval that rounds to it, over a common
denominator. The ends belong to the interval when the mantissa is even. -/
structure Interval where
  low : Nat
  value : Nat
  high : Nat
  den : Nat
  closed : Bool

/-- The interval of a positive finite word. Below a power of two the words stand twice as
dense, so the lower end is half as far away there. -/
def interval (f : Finite) : Interval :=
  let scaled (n : Nat) : Nat := n <<< f.exponent
  let narrow := f.mantissa = hiddenBit ∧ f.exponent > 0
  { low := scaled (4 * f.mantissa - if narrow then 1 else 2)
    value := scaled (4 * f.mantissa)
    high := scaled (4 * f.mantissa + 2)
    den := 4 <<< 1074
    closed := f.mantissa % 2 = 0 }

/-- Whether `num / den` lies in the interval, its denominator being `i.den * scale`. -/
def Interval.holds (i : Interval) (num scale : Nat) : Bool :=
  if i.closed then i.low * scale ≤ num ∧ num ≤ i.high * scale
  else i.low * scale < num ∧ num < i.high * scale

/-- The best decimal of the interval on the grid `10 ^ exponent`, if it holds one. -/
def Interval.onGrid (i : Interval) (exponent : Int) : Option Decimal :=
  -- a grid point `n` is compared as `n * up / (den * down)` with the interval's numbers
  let up := i.den * Nat.pow 10 exponent.toNat
  let down := Nat.pow 10 (-exponent).toNat
  let below := i.value * down / up
  let above := below + 1
  let lowHit := below > 0 && i.holds (below * up) down
  let highHit := i.holds (above * up) down
  let target := i.value * down
  let toLow := target - below * up
  let toHigh := above * up - target
  let pick :=
    if lowHit && highHit then
      if toLow < toHigh then some below
      else if toHigh < toLow then some above
      else if below % 2 = 0 then some below else some above
    else if lowHit then some below
    else if highHit then some above
    else none
  pick.map (⟨·, exponent⟩)

/-- The decimal order of magnitude: the largest power of ten at or below `num / den`, at most
`fuel` steps up or down from the starting exponent. -/
def decimalOrder (num den : Nat) : Nat → Int → Int
  | 0, e => e
  | fuel + 1, e =>
    let atLeast (k : Int) : Bool := den * Nat.pow 10 k.toNat ≤ num * Nat.pow 10 (-k).toNat
    if ¬ atLeast e then decimalOrder num den fuel (e - 1)
    else if atLeast (e + 1) then decimalOrder num den fuel (e + 1)
    else e

/-- Removes the zeros at the end of the digits. -/
def Decimal.trim : Nat → Decimal → Decimal
  | 0, d => d
  | fuel + 1, d =>
    if d.digits ≠ 0 ∧ d.digits % 10 = 0 then trim fuel ⟨d.digits / 10, d.exponent + 1⟩ else d

/-- The shortest decimal of a positive finite word. Seventeen digits always suffice. -/
def shortest (f : Finite) : Decimal :=
  let i := interval f
  -- three decimal digits for ten binary ones bring the start within a step or two
  let start : Int := binaryOrder i.value i.den * 30103 / 100000
  let order := decimalOrder i.value i.den 8 start
  let grids := (List.range 17).map fun n : Nat => order - (n : Int)
  match grids.findSome? i.onGrid with
  | some d => d.trim 400
  | none => ⟨0, 0⟩

end ExprBackend.Binary64
