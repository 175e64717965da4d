import ExprBackend.Number.Binary64
import ExprBackend.Text.Quoted

/-!
# Number and truth-value literals

Readers for the texts of integers, floating-point numbers and truth values. Integers may have a
base mark; digits may be grouped by single underscores, also after the mark.
-/

namespace ExprBackend.Literal

/-- What a text was read as. -/
inductive Kind where
  | integer
  | float
  | truth
deriving DecidableEq, Repr

/-- Why a text was refused. -/
inductive Cause where
  | malformed
  | outOfRange
deriving DecidableEq, Repr

/-- A refused text. -/
structure Refusal where
  kind : Kind
  text : String
  cause : Cause
deriving DecidableEq, Repr

def Kind.reader : Kind → String
  | .integer => "strconv.ParseInt"
  | .float => "strconv.ParseFloat"
  | .truth => "strconv.ParseBool"

def Cause.message : Cause → String
  | .malformed => "invalid syntax"
  | .outOfRange => "value out of range"

def Refusal.message (r : Refusal) : String :=
  r.kind.reader ++ ": parsing " ++ Text.quoted r.text ++ ": " ++ r.cause.message

/-- The value of a digit; letters of either case stand for ten and above. -/
def digitValue? (c : Char) : Option Nat :=
  if '0' ≤ c ∧ c ≤ '9' then some (c.toNat - '0'.toNat)
  else if 'a' ≤ c ∧ c ≤ 'z' then some (c.toNat - 'a'.toNat + 10)
  else if 'A' ≤ c ∧ c ≤ 'Z' then some (c.toNat - 'A'.toNat + 10)
  else none

def isHexDigit (c : Char) : Bool :=
  match digitValue? c with
  | some d => d < 16
  | none => false

/-- The base that a letter after a leading zero stands for. -/
def baseOfMark? (c : Char) : Option Nat :=
  match c.toLower with
  | 'b' => some 2
  | 'o' => some 8
  | 'x' => some 16
  | _ => none

/-- What stood last while the placing of underscores is checked. -/
inductive Last where
  | start
  | digit
  | underscore
  | other
deriving DecidableEq

/-- Underscores stand between digits only. -/
def groupedFrom (hex : Bool) : Last → List Char → Bool
  | last, [] => last ≠ .underscore
  | last, c :: cs =>
    if c.isDigit || (hex && isHexDigit c) then groupedFrom hex .digit cs
    else if c = '_' then last = .digit && groupedFrom hex .underscore cs
    else last ≠ .underscore && groupedFrom hex .other cs

/-- Underscores stand between digits, or between a base mark and a digit. -/
def grouped : List Char → Bool
  | '0' :: m :: cs =>
    match baseOfMark? m with
    | some base => groupedFrom (base = 16) .digit cs
    | none => groupedFrom false .start ('0' :: m :: cs)
  | cs => groupedFrom false .start cs

/-- A leading sign and the rest; the flag tells a minus. -/
def splitSign : List Char → Bool × List Char
  | '+' :: cs => (false, cs)
  | '-' :: cs => (true, cs)
  | cs => (false, cs)

/-- The base and the digits of a number with an optional mark. A leading zero alone marks
octal, a mark needs at least one character after it. -/
def splitBase : List Char → Nat × List Char
  | '0' :: m :: d :: cs =>
    match baseOfMark? m with
    | some base => (base, d :: cs)
    | none => (8, m :: d :: cs)
  | '0' :: cs => (8, cs)
  | cs => (10, cs)

/-- Digits, the most significant first, on top of the value `n`. The first fault counts: a
character that is no digit of the base, or a value of more than 64 bits. -/
def readDigits (base : Nat) (underscores : Bool) : Nat → List Char → Except Cause Nat
  | n, [] => .ok n
  | n, c :: cs =>
    if underscores && c = '_' then readDigits base underscores n cs
    else match digitValue? c with
      | none => .error .malformed
      | some d =>
        if d ≥ base then .error .malformed
        else if n * base + d ≥ 2 ^ 64 then .error .outOfRange
        else readDigits base underscores (n * base + d) cs

/-- An unsigned number of at most 64 bits, with a base mark and underscores. -/
def readMarked (cs : List Char) : Except Cause Nat :=
  if cs.isEmpty then .error .malformed
  else
    let (base, digits) := splitBase cs
    match readDigits base true 0 digits with
    | .error e => .error e
    | .ok n => if digits.contains '_' && !grouped cs then .error .malformed else .ok n

/-- An unsigned number of at most 64 bits in a given base. -/
def readPlain (base : Nat) (cs : List Char) : Except Cause Nat :=
  if cs.isEmpty then .error .malformed else readDigits base false 0 cs

/-- A signed number of 64 bits from the reader of its magnitude. -/
def readSigned (magnitude : List Char → Except Cause Nat) (cs : List Char) :
    Except Cause Int64 :=
  let (negative, digits) := splitSign cs
  match magnitude digits with
  | .error e => .error e
  | .ok n =>
    if negative then
      if n > 0x8000000000000000 then .error .outOfRange else .ok (Int64.ofInt (-(n : Int)))
    else if n ≥ 0x8000000000000000 then .error .outOfRange
    else .ok (Int64.ofInt n)

/-- A reader of characters as a reader of texts. -/
def refusing (kind : Kind) (read : List Char → Except Cause α) (s : String) :
    Except Refusal α :=
  (read s.toList).mapError (⟨kind, s, ·⟩)

/-- An integer with an optional base mark. -/
def integer (s : String) : Except Refusal Int64 :=
  refusing .integer (readSigned readMarked) s

/-- An integer in decimal digits. -/
def decimalInteger (s : String) : Except Refusal Int64 :=
  refusing .integer (readSigned (readPlain 10)) s

/-- The six words for each truth value. -/
def truth (s : String) : Except Refusal Bool :=
  if s ∈ ["1", "t", "T", "TRUE", "true", "True"] then .ok true
  else if s ∈ ["0", "f", "F", "FALSE", "false", "False"] then .ok false
  else .error ⟨.truth, s, .malformed⟩

/-- The scanned parts of a floating-point number: the digits as one integer, the number of them
after the point, and the written exponent. -/
structure Scanned where
  digits : Nat
  places : Nat
  exponent : Int
  rest : List Char

/-- Digits with at most one point. The counters are the value, the places after the point and
whether a digit was seen. -/
def scanMantissa (base : Nat) : Bool → Nat → Nat → Bool → List Char →
    Nat × Nat × Bool × List Char
  | _, n, places, seen, [] => (n, places, seen, [])
  | point, n, places, seen, c :: cs =>
    if c = '_' then scanMantissa base point n places seen cs
    else if c = '.' then
      if point then (n, places, seen, c :: cs) else scanMantissa base true n places seen cs
    else match digitValue? c with
      | some d =>
        if d < base then
          scanMantissa base point (n * base + d) (if point then places + 1 else places) true cs
        else (n, places, seen, c :: cs)
      | none => (n, places, seen, c :: cs)

/-- The digits of an exponent. From five digits on the value grows no more. -/
def scanExponent : Nat → List Char → Nat × List Char
  | n, [] => (n, [])
  | n, c :: cs =>
    if c = '_' then scanExponent n cs
    else if c.isDigit then
      scanExponent (if n < 10000 then n * 10 + (c.toNat - '0'.toNat) else n) cs
    else (n, c :: cs)

/-- An exponent after its letter: an optional sign, then a digit and what belongs to it. -/
def scanSignedExponent (cs : List Char) : Option (Int × List Char) :=
  let (negative, digits) := splitSign cs
  match digits with
  | d :: _ =>
    if d.isDigit then
      let (n, rest) := scanExponent 0 digits
      some (if negative then -(n : Int) else n, rest)
    else none
  | [] => none

/-- The mantissa and exponent of an unsigned number. Hexadecimal ones must have an exponent. -/
def scanNumber (base : Nat) (cs : List Char) : Option Scanned :=
  let mark := if base = 16 then 'p' else 'e'
  let (digits, places, seen, rest) := scanMantissa base false 0 0 false cs
  if !seen then none
  else match rest with
    | c :: after =>
      if c.toLower = mark then
        (scanSignedExponent after).map fun (e, rest) => ⟨digits, places, e, rest⟩
      else if base = 16 then none
      else some ⟨digits, places, 0, c :: after⟩
    | [] => if base = 16 then none else some ⟨digits, places, 0, []⟩

/-- The nearest word to a scanned number. A hexadecimal place counts four binary ones. -/
def Scanned.word (base : Nat) (s : Scanned) : UInt64 :=
  let radix := if base = 16 then 2 else 10
  let shift : Int := s.exponent - (if base = 16 then 4 * s.places else s.places : Nat)
  if shift ≥ 0 then Binary64.ofFraction (s.digits * Nat.pow radix shift.toNat) 1
  else Binary64.ofFraction s.digits (Nat.pow radix (-shift).toNat)

/-- The names of the numbers that have no digits, letters of either case. -/
def named? (signed : Bool) (cs : List Char) : Option UInt64 :=
  match String.ofList (cs.map Char.toLower) with
  | "inf" => some Binary64.infinity
  | "infinity" => some Binary64.infinity
  | "nan" => if signed then none else some Binary64.readNaN
  | _ => none

/-- The magnitude of a floating-point number, in which underscores must be well placed. -/
def readMagnitude (cs : List Char) : Except Cause UInt64 :=
  let (base, digits) := match cs with
    | '0' :: m :: d :: rest => if m.toLower = 'x' then (16, d :: rest) else (10, cs)
    | _ => (10, cs)
  match scanNumber base digits with
  | none => .error .malformed
  | some s =>
    if !s.rest.isEmpty then .error .malformed
    else if cs.contains '_' && !grouped cs then .error .malformed
    else
      let w := s.word base
      if w = Binary64.infinity then .error .outOfRange else .ok w

/-- A floating-point word: a named number, a decimal or a hexadecimal one. -/
def readFloat (cs : List Char) : Except Cause UInt64 :=
  let (negative, digits) := splitSign cs
  let signed := digits.length < cs.length
  let sign := if negative then Binary64.signBit else 0
  match named? signed digits with
  | some w => .ok (w ||| sign)
  | none => (readMagnitude digits).map (· ||| sign)

/-- A floating-point number. -/
def float (s : String) : Except Refusal UInt64 :=
  refusing .float readFloat s

end ExprBackend.Literal
