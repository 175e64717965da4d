import ExprBackend.Number.Literal
import ExprBackend.Yaml.Cursor

/-!
# Scalar texts

Plain, quoted and block texts. Lines of plain and quoted texts are folded: a single break becomes
a space, of several breaks the first is dropped.
-/

namespace ExprBackend.Yaml

/-- A text that was read, where it ends, and whether that is behind a line break. -/
structure Scanned where
  text : List Char
  cursor : Cursor
  afterBreak : Bool := false

/-- What may stand between two words of a text. -/
inductive Gap where
  | none
  | blanks (cs : List Char)
  /-- The first break and the breaks of the empty lines behind it. -/
  | lines (first : Char) (more : List Char)
deriving DecidableEq, Repr

namespace Gap

/-- The gap that a run of blanks and breaks makes. -/
def ofChars (cs : List Char) : Gap :=
  match cs.dropWhile isBlank with
  | [] => if cs.isEmpty then .none else .blanks cs
  | b :: more => .lines b (more.filter isBreak)

/-- What a gap becomes in the text. -/
def text : Gap → List Char
  | .none => []
  | .blanks cs => cs
  | .lines first more =>
    if first = '\n' then (if more.isEmpty then [' '] else more) else first :: more

def isLines : Gap → Bool
  | .lines .. => true
  | _ => false

end Gap

/-- A tab among the blanks in front of a line, left of a column. -/
def tabInIndent (indent : Int) : Nat → List Char → Bool
  | _, [] => false
  | column, c :: cs =>
    if isBreak c then tabInIndent indent 0 cs
    else (c = '\t' && column < indent) || tabInIndent indent (column + 1) cs

namespace Plain

/-- The next word of a plain text. A colon in front of a blank ends it, in a flow collection also
a comma, a question mark or a bracket. -/
def word (inFlow : Bool) : List Char → List Char
  | [] => []
  | c :: cs =>
    if isSpace c then []
    else if c = ':' && Cursor.endsWord cs then []
    else if inFlow && ",?[]\x7b\x7d".toList.contains c then []
    else c :: word inFlow cs

/-- Reads words from `c` on, behind a text and a gap. -/
def scanFrom (inFlow : Bool) (indent : Int) : Nat → List Char → Gap → Cursor →
    Except Malformed Scanned
  | 0, text, gap, c => .ok ⟨text, c, gap.isLines⟩
  | fuel + 1, text, gap, c =>
    if c.atDocumentMark || c.sees (· = '#') then .ok ⟨text, c, gap.isLines⟩
    else
      let w := word inFlow c.rest
      if w.isEmpty then .ok ⟨text, c, gap.isLines⟩
      else
        let text := text ++ gap.text ++ w
        let c := c.skip w.length
        let run := c.rest.takeWhile isSpace
        let after := c.skip run.length
        let gap := Gap.ofChars run
        if tabInIndent indent 0 ((run.dropWhile isBlank).drop 1) then after.fail
        else if run.isEmpty || (!inFlow && after.column < indent) then
          .ok ⟨text, after, gap.isLines⟩
        else scanFrom inFlow indent fuel text gap after

end Plain

/-- A plain text. In a block its further lines stand at the column `indent` at least. -/
def scanPlain (inFlow : Bool) (indent : Int) (c : Cursor) : Except Malformed Scanned :=
  Plain.scanFrom inFlow indent (c.rest.length + 1) [] .none c

namespace Quoted

/-- The character that an escape of one letter stands for. -/
def shortEscape? : Char → Option Char
  | '0' => some (Char.ofNat 0)
  | 'a' => some (Char.ofNat 0x07)
  | 'b' => some (Char.ofNat 0x08)
  | 't' => some '\t'
  | '\t' => some '\t'
  | 'n' => some '\n'
  | 'v' => some (Char.ofNat 0x0b)
  | 'f' => some (Char.ofNat 0x0c)
  | 'r' => some '\r'
  | 'e' => some (Char.ofNat 0x1b)
  | ' ' => some ' '
  | '"' => some '"'
  | '\'' => some '\''
  | '\\' => some '\\'
  | 'N' => some nextLine
  | '_' => some (Char.ofNat 0xa0)
  | 'L' => some lineSeparator
  | 'P' => some paragraphSeparator
  | _ => none

/-- The number of hexadecimal digits behind an escape letter. -/
def codeLength? : Char → Option Nat
  | 'x' => some 2
  | 'u' => some 4
  | 'U' => some 8
  | _ => none

/-- The character with a code of exactly `n` hexadecimal digits. -/
def codeChar? (n : Nat) (cs : List Char) : Option Char :=
  let digits := cs.take n
  if digits.length = n && digits.all Literal.isHexDigit then
    let code := digits.foldl (fun v d => 16 * v + (Literal.digitValue? d).getD 0) 0
    if (0xd800 ≤ code && code ≤ 0xdfff) || 0x10ffff < code then none else some (Char.ofNat code)
  else none

/-- What ends a word of a quoted text. -/
inductive Stop where
  | quote
  | space
  /-- A break behind a backslash. -/
  | escapedBreak

/-- The next word of a quoted text, what it adds to the text and how it ends. -/
def word (single : Bool) : Nat → List Char → Cursor → Except Malformed (List Char × Cursor × Stop)
  | 0, text, c => .ok (text, c, .space)
  | fuel + 1, text, c =>
    match c.rest with
    | [] => .ok (text, c, .space)
    | x :: rest =>
      if isSpace x then .ok (text, c, .space)
      else if single then
        if x = '\'' then
          if rest.head? = some '\'' then word single fuel (text ++ ['\'']) (c.skip 2)
          else .ok (text, c, .quote)
        else word single fuel (text ++ [x]) c.next
      else if x = '"' then .ok (text, c, .quote)
      else if x = '\\' then
        match rest with
        | [] => c.fail
        | e :: digits =>
          if isBreak e then .ok (text, c.skip 2, .escapedBreak)
          else match shortEscape? e with
            | some y => word single fuel (text ++ [y]) (c.skip 2)
            | none =>
              match codeLength? e with
              | none => c.fail
              | some n =>
                match codeChar? n digits with
                | some y => word single fuel (text ++ [y]) (c.skip (2 + n))
                | none => c.fail
      else word single fuel (text ++ [x]) c.next

/-- Reads words up to the closing quote. -/
def scanFrom (single : Bool) : Nat → List Char → Cursor → Except Malformed Scanned
  | 0, _, c => c.fail
  | fuel + 1, text, c =>
    if c.atDocumentMark || c.atEnd then c.fail
    else match word single (c.rest.length + 1) [] c with
      | .error e => .error e
      | .ok (w, c, stop) =>
        let text := text ++ w
        let run := c.rest.takeWhile isSpace
        let after := c.skip run.length
        match stop with
        | .quote => .ok ⟨text, c.next, false⟩
        | .space => scanFrom single fuel (text ++ (Gap.ofChars run).text) after
        | .escapedBreak =>
          if c.sees (· = '"') then .ok ⟨text, c.next, false⟩
          else scanFrom single fuel (text ++ run.filter isBreak) after

end Quoted

/-- A text between quotes; the cursor stands on the first of them. -/
def scanQuoted (single : Bool) (c : Cursor) : Except Malformed Scanned :=
  Quoted.scanFrom single (c.rest.length + 1) [] c.next

namespace BlockText

/-- What becomes of the line breaks at the end of a block text. -/
inductive Chomping where
  | strip
  | clip
  | keep
deriving DecidableEq, Repr

/-- The line that starts a block text. -/
structure Header where
  chomping : Chomping := .clip
  /-- A given indentation, or 0. -/
  increment : Nat := 0

def chomping? (c : Cursor) : Option Chomping :=
  match c.rest with
  | '+' :: _ => some .keep
  | '-' :: _ => some .strip
  | _ => none

/-- An indentation digit, which is not 0. -/
def increment? (c : Cursor) : Except Malformed (Option Nat) :=
  match c.rest with
  | d :: _ =>
    if d = '0' then c.fail
    else if d.isDigit then .ok (some (d.toNat - '0'.toNat))
    else .ok none
  | [] => .ok none

/-- The two indicators in either order, each at most once. -/
def indicators (c : Cursor) : Except Malformed (Header × Cursor) := do
  match chomping? c with
  | some chomping =>
    match ← increment? c.next with
    | some n => return (⟨chomping, n⟩, c.skip 2)
    | none => return (⟨chomping, 0⟩, c.next)
  | none =>
    match ← increment? c with
    | some n =>
      match chomping? c.next with
      | some chomping => return (⟨chomping, n⟩, c.skip 2)
      | none => return (⟨.clip, n⟩, c.next)
    | none => return ({}, c)

/-- Over indentation and empty lines. Without a given indentation (0) that of the widest line is
found on the way. Gives the breaks and the width. -/
def breaksFrom (indent : Nat) : Nat → Nat → List Char → Cursor →
    Except Malformed (List Char × Nat × Cursor)
  | 0, width, breaks, c => .ok (breaks, width, c)
  | fuel + 1, width, breaks, c =>
    let spaces := (c.rest.takeWhile (· = ' ')).length
    let c := c.skip (if indent = 0 then spaces else min spaces (indent - c.column))
    let width := max width c.column
    if (indent = 0 || c.column < indent) && c.sees (· = '\t') then c.fail
    else match c.rest with
      | b :: _ =>
        if isBreak b then breaksFrom indent fuel width (breaks ++ [b]) c.next
        else .ok (breaks, width, c)
      | [] => .ok (breaks, width, c)

def breaks (indent : Nat) (c : Cursor) : Except Malformed (List Char × Nat × Cursor) :=
  breaksFrom indent (c.rest.length + 1) 0 [] c

/-- What is known between two lines of a block text. -/
structure State where
  text : List Char := []
  /-- The break of the line before. -/
  leading : List Char := []
  /-- The breaks of the empty lines behind it. -/
  trailing : List Char := []
  /-- Whether the line before starts with a blank. -/
  wasBlank : Bool := false

/-- Reads lines that stand at the indentation. -/
def linesFrom (literal : Bool) (indent : Nat) : Nat → State → Cursor →
    Except Malformed (State × Cursor)
  | 0, s, c => .ok (s, c)
  | fuel + 1, s, c =>
    if c.column ≠ indent || c.atEnd then .ok (s, c)
    else do
      let blank := c.sees isBlank
      let folds := !literal && !s.wasBlank && !blank && s.leading.head? = some '\n'
      let join := if folds then (if s.trailing.isEmpty then [' '] else []) else s.leading
      let line := c.rest.takeWhile fun x => !isBreak x
      let text := s.text ++ join ++ s.trailing ++ line
      let c := c.skip line.length
      let leading := (c.rest.take 1).filter isBreak
      let (trailing, _, c) ← breaks indent c.skipBreak
      linesFrom literal indent fuel ⟨text, leading, trailing, blank⟩ c

end BlockText

open BlockText in
/-- A block text; the cursor stands on its indicator. Its lines are indented more than the
collection it is in, whose indentation is `parent`. -/
def scanBlock (literal : Bool) (parent : Int) (c : Cursor) : Except Malformed Scanned := do
  let (header, c) ← indicators c.next
  let c ← c.finishLine
  let given := if header.increment = 0 then 0 else (max parent 0).toNat + header.increment
  let (first, width, c) ← breaks given c
  let indent := if given = 0 then max width (max (parent + 1) 1).toNat else given
  let (s, c) ← linesFrom literal indent (c.rest.length + 1) { trailing := first } c
  let tail := match header.chomping with
    | .strip => []
    | .clip => s.leading
    | .keep => s.leading ++ s.trailing
  return ⟨s.text ++ tail, c, true⟩

end ExprBackend.Yaml
