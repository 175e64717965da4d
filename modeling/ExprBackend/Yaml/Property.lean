import ExprBackend.Number.Literal
import ExprBackend.Yaml.Token

/-!
# Anchors, tags and directives
-/

namespace ExprBackend.Yaml

/-- The name of an anchor or alias behind its sign. -/
def scanAnchorName (c : Cursor) : Except Malformed (String × Cursor) :=
  let name := c.rest.takeWhile isWordChar
  let after := c.skip name.length
  let ends := Cursor.endsWord after.rest || after.sees fun x => "?:,]\x7d%@`".toList.contains x
  if name.isEmpty || !ends then c.fail else .ok (String.ofList name, after)

/-- Characters of a tag, the sign of an escape included. -/
def isTagChar (c : Char) : Bool := isWordChar c || ";/?:@&=+$,.!~*'()[]%".toList.contains c

/-- A byte written as a percent sign and two hexadecimal digits. -/
def escapedByte? : List Char → Option Nat
  | '%' :: a :: b :: _ =>
    match Literal.digitValue? a, Literal.digitValue? b with
    | some x, some y => if x < 16 && y < 16 then some (16 * x + y) else none
    | _, _ => none
  | _ => none

/-- The number of bytes of a character whose encoding starts with a byte. -/
def encodedLength? (byte : Nat) : Option Nat :=
  if byte < 0x80 then some 1
  else if byte / 0x20 = 0x6 then some 2
  else if byte / 0x10 = 0xe then some 3
  else if byte / 0x08 = 0x1e then some 4
  else none

/-- The further bytes of an encoded character, added to its value. -/
def continuation : Nat → Nat → Cursor → Except Malformed (Nat × Cursor)
  | 0, value, c => .ok (value, c)
  | n + 1, value, c =>
    match escapedByte? c.rest with
    | some b =>
      if b / 0x40 = 2 then continuation n (0x40 * value + b % 0x40) (c.skip 3) else c.fail
    | none => c.fail

/-- A character written by its escaped bytes. -/
def escapedChar (c : Cursor) : Except Malformed (Char × Cursor) :=
  match escapedByte? c.rest with
  | none => c.fail
  | some b =>
    match encodedLength? b with
    | none => c.fail
    | some n => do
      let lead := if n = 1 then b else b % (1 <<< (7 - n))
      let (value, c) ← continuation (n - 1) lead (c.skip 3)
      return (if value.isValidChar then Char.ofNat value else Char.ofNat 0xfffd, c)

/-- Tag characters from `c` on, behind a text. -/
def tagTextFrom : Nat → List Char → Cursor → Except Malformed (List Char × Cursor)
  | 0, text, c => .ok (text, c)
  | fuel + 1, text, c =>
    match c.rest with
    | [] => .ok (text, c)
    | x :: _ =>
      if x = '%' then do
        let (y, c) ← escapedChar c
        tagTextFrom fuel (text ++ [y]) c
      else if isTagChar x then tagTextFrom fuel (text ++ [x]) c.next
      else .ok (text, c)

def tagText (c : Cursor) : Except Malformed (List Char × Cursor) :=
  tagTextFrom (c.rest.length + 1) [] c

/-- A tag text that is not empty. -/
def tagTextSome (c : Cursor) : Except Malformed (List Char × Cursor) := do
  let (text, after) ← tagText c
  if after.index = c.index then c.fail else return (text, after)

/-- An exclamation mark, a word and maybe another mark. Gives the word and whether it has the
second mark. -/
def handle (c : Cursor) : Except Malformed (List Char × Bool × Cursor) :=
  if c.sees (· = '!') then
    let word := c.next.rest.takeWhile isWordChar
    let after := c.next.skip word.length
    if after.sees (· = '!') then .ok (word, true, after.next) else .ok (word, false, after)
  else c.fail

def handleText (word : List Char) (closed : Bool) : String :=
  String.ofList ('!' :: word ++ if closed then ['!'] else [])

/-- A tag: its text between angle brackets, a handle and a suffix, a suffix alone, or a single
mark, which has no handle. -/
def scanTag (c : Cursor) : Except Malformed (TokenKind × Cursor) := do
  let (kind, after) ←
    if c.next.sees (· = '<') then
      let (text, after) ← tagTextSome (c.skip 2)
      if after.sees (· = '>') then pure (TokenKind.tag "" (String.ofList text), after.next)
      else after.fail
    else
      let (word, closed, after) ← handle c
      if closed then
        let (text, after) ← tagTextSome after
        pure (TokenKind.tag (handleText word true) (String.ofList text), after)
      else
        let (text, after) ← tagText after
        match word ++ text with
        | [] => pure (TokenKind.tag "" "!", after)
        | suffix => pure (TokenKind.tag "!" (String.ofList suffix), after)
  if Cursor.endsWord after.rest then return (kind, after) else after.fail

/-- A number of one or two digits. -/
def versionNumber (c : Cursor) : Except Malformed (Nat × Cursor) :=
  let digits := c.rest.takeWhile Char.isDigit
  if digits.isEmpty || 2 < digits.length then c.fail
  else .ok (digits.foldl (fun n d => 10 * n + (d.toNat - '0'.toNat)) 0, c.skip digits.length)

def versionDirective (c : Cursor) : Except Malformed (TokenKind × Cursor) := do
  let (major, c) ← versionNumber c.skipBlanks
  if !c.sees (· = '.') then c.fail
  else
    let (minor, c) ← versionNumber c.next
    return (.versionDirective major minor, c)

def tagDirective (c : Cursor) : Except Malformed (TokenKind × Cursor) := do
  let (word, closed, c) ← handle c.skipBlanks
  if (!closed && !word.isEmpty) || !c.sees isBlank then c.fail
  else
    let (stem, c) ← tagTextSome c.skipBlanks
    if Cursor.endsWord c.rest then
      return (.tagDirective (handleText word closed) (String.ofList stem), c)
    else c.fail

/-- A directive, up to the end of its line; the cursor stands on the percent sign. -/
def scanDirective (c : Cursor) : Except Malformed (TokenKind × Cursor) := do
  let name := c.next.rest.takeWhile isWordChar
  let after := c.next.skip name.length
  if !Cursor.endsWord after.rest then after.fail
  else
    let (kind, after) ← match String.ofList name with
      | "YAML" => versionDirective after
      | "TAG" => tagDirective after
      | _ => after.fail
    return (kind, ← after.finishLine)

end ExprBackend.Yaml
