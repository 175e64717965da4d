import ExprBackend.Number.Shortest

/-!
# Text of floating-point words

A word is written by its shortest decimal, positionally or with an exponent.
-/

namespace ExprBackend.Binary64

/-- How decimals are laid out. -/
structure Layout where
  /-- Exponents of the first digit from which on the exponent is written. -/
  smallest : Int
  largest : Int
  /-- The least number of exponent digits. -/
  exponentDigits : Nat

/-- Positional from `0.0001` up to below a million; exponents have a sign and two digits. -/
def Layout.general : Layout := ⟨-4, 6, 2⟩

/-- The exponent with its sign, filled up to the least number of digits. -/
def Layout.exponentText (l : Layout) (e : Int) : String :=
  let digits := Nat.toDigits 10 e.natAbs
  (if e < 0 then "e-" else "e+") ++
    String.ofList (List.replicate (l.exponentDigits - digits.length) '0' ++ digits)

/-- The digits of a decimal with the point after the first `whole` of them; zeros fill the
places that the digits do not reach. -/
def positional (digits : List Char) (whole : Int) : String :=
  if whole ≤ 0 then "0." ++ String.ofList (List.replicate (-whole).toNat '0' ++ digits)
  else
    let n := whole.toNat
    let front := digits.take n ++ List.replicate (n - digits.length) '0'
    let back := digits.drop n
    String.ofList front ++ if back.isEmpty then "" else "." ++ String.ofList back

/-- One digit, a point and the others, then the exponent. -/
def Layout.scientific (l : Layout) (digits : List Char) (order : Int) : String :=
  String.ofList (digits.take 1) ++
    (if digits.length > 1 then "." ++ String.ofList (digits.drop 1) else "") ++
    l.exponentText order

/-- A decimal in a layout. -/
def Layout.render (l : Layout) (d : Decimal) : String :=
  let digits := Nat.toDigits 10 d.digits
  let order := d.exponent + digits.length - 1
  if order < l.smallest ∨ order ≥ l.largest then l.scientific digits order
  else positional digits (order + 1)

/-- The text of a word. Infinities carry their sign, so does a negative zero. -/
def text (w : UInt64) : String :=
  if isNaN w then "NaN"
  else
    let m := magnitude w
    if m = infinity then (if isNegative w then "-Inf" else "+Inf")
    else
      (if isNegative w then "-" else "") ++
        if m = 0 then "0" else Layout.general.render (shortest (finite w))

end ExprBackend.Binary64
