/-!
# Bytes

Two forms of bytes. In base 64 they are written by letters of six bits each, in groups of four, the
last group filled up with equals signs; line breaks between letters do not count. In the compact
form an item starts with a byte whose high three bits give its kind and whose low five bits give
its size, or the number of bytes the size takes.
-/

namespace ExprBackend

namespace Text

/-- The six bits of a letter. -/
def base64Value? (c : Char) : Option Nat :=
  if c.isUpper then some (c.toNat - 'A'.toNat)
  else if c.isLower then some (c.toNat - 'a'.toNat + 26)
  else if c.isDigit then some (c.toNat - '0'.toNat + 52)
  else if c = '+' then some 62
  else if c = '/' then some 63
  else none

/-- The bytes of groups of letters. -/
def base64Groups : List Char → Option (List UInt8)
  | [] => some []
  | [a, b, '=', '='] => do
    let x ← base64Value? a
    let y ← base64Value? b
    return [(4 * x + y / 16).toUInt8]
  | [a, b, c, '='] => do
    let x ← base64Value? a
    let y ← base64Value? b
    let z ← base64Value? c
    return [(4 * x + y / 16).toUInt8, (16 * y + z / 4).toUInt8]
  | a :: b :: c :: d :: rest => do
    let x ← base64Value? a
    let y ← base64Value? b
    let z ← base64Value? c
    let w ← base64Value? d
    return (4 * x + y / 16).toUInt8 :: (16 * y + z / 4).toUInt8 :: (64 * z + w).toUInt8 ::
      (← base64Groups rest)
  | _ => none

/-- The text whose bytes are written in base 64; bytes that are no text are given by a
replacement character. -/
def ofBase64? (s : String) : Option String := do
  let bytes ← base64Groups (s.toList.filter fun c => c ≠ '\n' && c ≠ '\r')
  return (String.fromUTF8? (ByteArray.mk bytes.toArray)).getD (String.singleton (Char.ofNat 0xfffd))

end Text

namespace Wire

/-- The lowest `width` bytes of a number, the highest of them first. -/
def bigEndian : Nat → Nat → List UInt8
  | 0, _ => []
  | width + 1, n => (n / 256 ^ width).toUInt8 :: bigEndian width n

/-- The start of an item: its kind and its size in the fewest bytes. -/
def head (kind : UInt8) (n : Nat) : List UInt8 :=
  if n < 24 then [kind ||| n.toUInt8]
  else if n < 0x100 then (kind ||| 24) :: bigEndian 1 n
  else if n < 0x10000 then (kind ||| 25) :: bigEndian 2 n
  else if n < 0x100000000 then (kind ||| 26) :: bigEndian 4 n
  else (kind ||| 27) :: bigEndian 8 n

def number (n : Nat) : List UInt8 := head 0x00 n

def text (s : String) : List UInt8 := head 0x60 s.utf8ByteSize ++ s.toUTF8.toList

/-- A list whose length is not given in front. -/
def openList (items : List (List UInt8)) : List UInt8 := 0x9f :: (items.flatten ++ [0xff])

/-- The item that stands for no value. -/
def none : List UInt8 := [0xf6]

end Wire

end ExprBackend
