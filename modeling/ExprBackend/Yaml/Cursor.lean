/-!
# Text and places in it

Lines are ended by a line feed, a carriage return or both together, a next-line character, or a
line or paragraph separator. All but the separators are read as a line feed.
-/

namespace ExprBackend.Yaml

/-- A text that does not follow the rules, and the line, counted from 0, where that shows. -/
structure Malformed where
  line : Nat
deriving DecidableEq, Repr, Inhabited

def lineSeparator : Char := Char.ofNat 0x2028

def paragraphSeparator : Char := Char.ofNat 0x2029

def nextLine : Char := Char.ofNat 0x85

def byteOrderMark : Char := Char.ofNat 0xfeff

def isBreak (c : Char) : Bool := c = '\n' || c = lineSeparator || c = paragraphSeparator

def isBlank (c : Char) : Bool := c = ' ' || c = '\t'

def isSpace (c : Char) : Bool := isBlank c || isBreak c

/-- Letters, digits, underscore and hyphen of the first 128 characters. -/
def isWordChar (c : Char) : Bool := c.isAlphanum || c = '_' || c = '-'

/-- Characters that may stand in a text at all. -/
def isAllowed (c : Char) : Bool :=
  let n := c.toNat
  c = '\t' || c = '\n' || c = '\r' || (0x20 ≤ n && n ≤ 0x7e) || n = 0x85 ||
    (0xa0 ≤ n && n ≤ 0xd7ff) || (0xe000 ≤ n && n ≤ 0xfffd) || 0x10000 ≤ n

/-- Line breaks in their one form. -/
def normalizeBreaks : List Char → List Char
  | '\r' :: '\n' :: cs => '\n' :: normalizeBreaks cs
  | c :: cs => (if c = '\r' || c = nextLine then '\n' else c) :: normalizeBreaks cs
  | [] => []

/-- The rest of a text, with the number of characters before it, its line and its column. -/
structure Cursor where
  rest : List Char
  index : Nat := 0
  line : Nat := 0
  column : Nat := 0
deriving DecidableEq, Repr, Inhabited

namespace Cursor

/-- The start of a text. A byte order mark in front is not part of it. -/
def ofText (s : String) : Except Malformed Cursor :=
  let cs := match s.toList with
    | c :: cs => if c = byteOrderMark then cs else c :: cs
    | [] => []
  if cs.all isAllowed then .ok { rest := normalizeBreaks cs } else .error ⟨0⟩

def atEnd (c : Cursor) : Bool := c.rest.isEmpty

/-- Whether the next character is of a class. -/
def sees (c : Cursor) (p : Char → Bool) : Bool := c.rest.head?.any p

/-- Whether a blank, a break or the end comes next. -/
def endsWord : List Char → Bool
  | [] => true
  | c :: _ => isSpace c

def next (c : Cursor) : Cursor :=
  match c.rest with
  | [] => c
  | x :: xs =>
    if isBreak x then ⟨xs, c.index + 1, c.line + 1, 0⟩
    else ⟨xs, c.index + 1, c.line, c.column + 1⟩

def skip (c : Cursor) : Nat → Cursor
  | 0 => c
  | n + 1 => c.next.skip n

def skipWhile (c : Cursor) (p : Char → Bool) : Cursor := c.skip (c.rest.takeWhile p).length

def skipBlanks (c : Cursor) : Cursor := c.skipWhile isBlank

/-- To the end of the line. -/
def skipLine (c : Cursor) : Cursor := c.skipWhile fun x => !isBreak x

/-- Over a line break, if there is one. -/
def skipBreak (c : Cursor) : Cursor := if c.sees isBreak then c.next else c

def fail {α : Type} (c : Cursor) : Except Malformed α := .error ⟨c.line⟩

/-- A line that starts with one of the marks between documents. -/
def atDocumentMark (c : Cursor) : Bool :=
  c.column = 0 && match c.rest with
    | '-' :: '-' :: '-' :: cs => endsWord cs
    | '.' :: '.' :: '.' :: cs => endsWord cs
    | _ => false

/-- Over blanks and a comment behind them, as long as they are on this line. -/
def skipLineComment (c : Cursor) : Cursor :=
  if c.skipBlanks.sees (· = '#') then c.skipBlanks.skipLine else c

/-- Over what is left of a line that may hold nothing but blanks and a comment, its break
included. -/
def finishLine (c : Cursor) : Except Malformed Cursor :=
  let c := c.skipLineComment.skipBlanks
  if c.atEnd || c.sees isBreak then .ok c.skipBreak else c.fail

end Cursor

end ExprBackend.Yaml
