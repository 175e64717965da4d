import ExprBackend.Yaml.Property
import ExprBackend.Yaml.Scalar

/-!
# From text to tokens

A text that turns out to be a mapping key only when its colon is met gets its key token, and maybe
the start of a mapping, inserted before it. Such a key stands on one line and its colon is at most
1024 characters away.
-/

namespace ExprBackend.Yaml

/-- A token that may turn out to start a key. -/
structure PossibleKey where
  /-- The number of the token. -/
  number : Nat
  /-- Whether nothing but a key may stand here. -/
  required : Bool
  index : Nat
  line : Nat
  column : Nat
deriving DecidableEq, Repr, Inhabited

structure Scanner where
  cursor : Cursor
  tokens : Array Token := #[]
  /-- The column of the innermost block collection, -1 outside of all. -/
  indent : Int := -1
  /-- The columns of the collections around it. -/
  outer : List Int := []
  keyAllowed : Bool := true
  /-- The possible key of this flow level. -/
  key : Option PossibleKey := none
  /-- The possible keys of the flow levels around. -/
  outerKeys : List (Option PossibleKey) := []
  /-- Whether a line break was met since the last sign or text. -/
  afterBreak : Bool := false

namespace Scanner

def inFlow (s : Scanner) : Bool := !s.outerKeys.isEmpty

def fail {α : Type} (s : Scanner) : Except Malformed α := s.cursor.fail

def push (s : Scanner) (kind : TokenKind) (line : Nat) : Scanner :=
  { s with tokens := s.tokens.push ⟨kind, line⟩ }

/-! ## Blanks and comments -/

/-- Over comments, and over the blanks and empty lines between comments. -/
def skipComments : Nat → Cursor → Cursor
  | 0, c => c
  | fuel + 1, c =>
    if c.sees (· = '#') then
      let c := c.skipLine
      let run := (c.rest.takeWhile isSpace).length
      if run < 512 && (c.skip run).sees (· = '#') then skipComments fuel (c.skip run) else c
    else c

/-- To the next token. Tabs do not count as blanks where a key could start. -/
def toNextToken : Nat → Scanner → Scanner
  | 0, s => s
  | fuel + 1, s =>
    let c := s.cursor
    let c := if c.column = 0 && c.sees (· = byteOrderMark) then c.next else c
    let tabs := s.inFlow || !s.keyAllowed
    let c := c.skipWhile fun x => x = ' ' || (tabs && x = '\t')
    let c := skipComments (c.rest.length + 1) c
    if c.sees isBreak then
      toNextToken fuel { s with cursor := c.next, keyAllowed := s.keyAllowed || !s.inFlow }
    else { s with cursor := c }

/-! ## Indentation -/

/-- The columns that are left at a column, with an end for each collection that is closed. -/
def unrollTo (column : Int) (line : Nat) (indent : Int) :
    List Int → Array Token → Int × List Int × Array Token
  | [], tokens => (indent, [], tokens)
  | i :: is, tokens =>
    if column < indent then unrollTo column line i is (tokens.push ⟨.blockEnd, line⟩)
    else (indent, i :: is, tokens)

/-- Closes the block collections that stand right of a column. -/
def unroll (s : Scanner) (column : Int) (line : Nat) : Scanner :=
  if s.inFlow then s
  else
    let (indent, outer, tokens) := unrollTo column line s.indent s.outer s.tokens
    { s with indent, outer, tokens }

/-- Opens a block collection if the column is right of the one around it. The token that starts it
is inserted at a number. -/
def roll (s : Scanner) (column : Nat) (number : Nat) (kind : TokenKind) (line : Nat) : Scanner :=
  if s.inFlow || (column : Int) ≤ s.indent then s
  else { s with
    indent := column
    outer := s.indent :: s.outer
    tokens := s.tokens.insertIdxIfInBounds number ⟨kind, line⟩ }

/-! ## Possible keys -/

/-- Whether a key is too far back to be one. -/
def stale (s : Scanner) (k : PossibleKey) : Bool :=
  k.line < s.cursor.line || k.index + 1024 < s.cursor.index

/-- Gives a possible key up. -/
def dropKey (s : Scanner) : Except Malformed Scanner :=
  match s.key with
  | some k => if k.required then s.fail else .ok { s with key := none }
  | none => .ok s

/-- Notes that the next token may start a key. -/
def saveKey (s : Scanner) : Except Malformed Scanner := do
  if s.keyAllowed then
    let s ← s.dropKey
    let c := s.cursor
    return { s with key := some {
      number := s.tokens.size
      required := !s.inFlow && s.indent = c.column
      index := c.index
      line := c.line
      column := c.column } }
  else return s

/-- The possible key that a colon belongs to. -/
def currentKey (s : Scanner) : Except Malformed (Option PossibleKey) :=
  match s.key with
  | none => .ok none
  | some k => if s.stale k then (if k.required then s.fail else .ok none) else .ok (some k)

/-! ## Tokens -/

/-- A token of so many characters. -/
def sign (s : Scanner) (kind : TokenKind) (width : Nat) : Scanner :=
  { s.push kind s.cursor.line with cursor := s.cursor.skip width, afterBreak := false }

/-- A token that was read up to a place. -/
def put (s : Scanner) (kind : TokenKind) (c : Cursor) (afterBreak : Bool) : Scanner :=
  { s.push kind s.cursor.line with cursor := c, afterBreak }

def streamEnd (s : Scanner) : Except Malformed Scanner := do
  let line := if s.cursor.column = 0 then s.cursor.line else s.cursor.line + 1
  let s ← (s.unroll (-1) line).dropKey
  return { s with keyAllowed := false }.push .streamEnd line

def directive (s : Scanner) (line : Nat) : Except Malformed Scanner := do
  let s ← (s.unroll (-1) line).dropKey
  let (kind, c) ← scanDirective s.cursor
  return { s with keyAllowed := false }.put kind c true

def documentMark (s : Scanner) (kind : TokenKind) (line : Nat) : Except Malformed Scanner := do
  let s ← (s.unroll (-1) line).dropKey
  return { s with keyAllowed := false }.sign kind 3

def flowStart (s : Scanner) (kind : TokenKind) : Except Malformed Scanner := do
  let s ← s.saveKey
  return { s with outerKeys := s.key :: s.outerKeys, key := none, keyAllowed := true }.sign kind 1

def flowEnd (s : Scanner) (kind : TokenKind) : Except Malformed Scanner := do
  let s ← s.dropKey
  let s := match s.outerKeys with
    | k :: ks => { s with key := k, outerKeys := ks }
    | [] => s
  return { s with keyAllowed := false }.sign kind 1

def flowEntry (s : Scanner) : Except Malformed Scanner := do
  let s ← s.dropKey
  return { s with keyAllowed := true }.sign .flowEntry 1

/-- Opens a block collection at the cursor, which only a place where a key may start allows. -/
def openBlock (s : Scanner) (kind : TokenKind) : Except Malformed Scanner :=
  if s.inFlow then .ok s
  else if s.keyAllowed then
    .ok (s.roll s.cursor.column s.tokens.size kind s.cursor.line)
  else s.fail

def blockEntry (s : Scanner) : Except Malformed Scanner := do
  let s ← (← s.openBlock .blockSequenceStart).dropKey
  return { s with keyAllowed := true }.sign .blockEntry 1

def explicitKey (s : Scanner) : Except Malformed Scanner := do
  let s ← (← s.openBlock .blockMappingStart).dropKey
  return { s with keyAllowed := !s.inFlow }.sign .key 1

def value (s : Scanner) : Except Malformed Scanner := do
  match ← s.currentKey with
  | some k =>
    let s := { s with tokens := s.tokens.insertIdxIfInBounds k.number ⟨.key, k.line⟩ }
    let s := s.roll k.column k.number .blockMappingStart k.line
    return { s with key := none, keyAllowed := false }.sign .value 1
  | none =>
    let s ← { s with key := none }.openBlock .blockMappingStart
    return { s with keyAllowed := !s.inFlow }.sign .value 1

def anchor (s : Scanner) (kind : String → TokenKind) : Except Malformed Scanner := do
  let s ← s.saveKey
  let (name, c) ← scanAnchorName s.cursor.next
  return { s with keyAllowed := false }.put (kind name) c false

def tag (s : Scanner) : Except Malformed Scanner := do
  let s ← s.saveKey
  let (kind, c) ← scanTag s.cursor
  return { s with keyAllowed := false }.put kind c false

def blockScalar (s : Scanner) (literal : Bool) : Except Malformed Scanner := do
  let s ← s.dropKey
  let r ← scanBlock literal s.indent s.cursor
  return { s with keyAllowed := true }.put (.scalar false (String.ofList r.text)) r.cursor
    r.afterBreak

def quotedScalar (s : Scanner) (single : Bool) : Except Malformed Scanner := do
  let s ← s.saveKey
  let r ← scanQuoted single s.cursor
  return { s with keyAllowed := false }.put (.scalar false (String.ofList r.text)) r.cursor false

def plainScalar (s : Scanner) : Except Malformed Scanner := do
  let s ← s.saveKey
  let r ← scanPlain s.inFlow (s.indent + 1) s.cursor
  return { s with keyAllowed := r.afterBreak }.put (.scalar true (String.ofList r.text)) r.cursor
    r.afterBreak

/-- Whether a plain text may start with a character, given those behind it. -/
def startsPlain (inFlow : Bool) (x : Char) (rest : List Char) : Bool :=
  if x = '-' then !rest.head?.any isBlank
  else if x = '?' || x = ':' then !inFlow && !Cursor.endsWord rest
  else !",[]\x7b\x7d#&*!|>'\"%@`".toList.contains x && !isSpace x

/-- The token at the cursor. -/
def token (s : Scanner) (x : Char) (rest : List Char) : Except Malformed Scanner :=
  let ends := Cursor.endsWord rest
  match x with
  | '[' => s.flowStart .flowSequenceStart
  | '\x7b' => s.flowStart .flowMappingStart
  | ']' => s.flowEnd .flowSequenceEnd
  | '\x7d' => s.flowEnd .flowMappingEnd
  | ',' => s.flowEntry
  | '*' => s.anchor .alias
  | '&' => s.anchor .anchor
  | '!' => s.tag
  | '\'' => s.quotedScalar true
  | '"' => s.quotedScalar false
  | _ =>
    if x = '-' && ends then s.blockEntry
    else if x = '?' && (s.inFlow || ends) then s.explicitKey
    else if x = ':' && (s.inFlow || ends) then s.value
    else if x = '|' && !s.inFlow then s.blockScalar true
    else if x = '>' && !s.inFlow then s.blockScalar false
    else if startsPlain s.inFlow x rest then s.plainScalar
    else s.fail

/-- Over a comment behind a token. One behind the sign of an entry belongs to what follows. -/
def skipLineComment (s : Scanner) : Scanner :=
  if s.afterBreak || s.tokens.back?.any (·.kind = .blockEntry) then s
  else { s with cursor := s.cursor.skipLineComment }

/-- Reads on by one token at least; the flag tells the end of the text. -/
def fetch (s : Scanner) : Except Malformed (Scanner × Bool) := do
  let line := s.cursor.line
  let s := toNextToken (s.cursor.rest.length + 1) s
  let s := s.unroll s.cursor.column line
  match s.cursor.rest with
  | [] => return (← s.streamEnd, true)
  | x :: rest =>
    if s.cursor.column = 0 && x = '%' then return (← s.directive s.cursor.line, false)
    else if s.cursor.atDocumentMark then
      let kind := if x = '-' then .documentStart else .documentEnd
      return (← s.documentMark kind s.cursor.line, false)
    else return ((← s.token x rest).skipLineComment, false)

/-- How many of the tokens can be relied on where no further one can be read: the last two are
not handed out yet, and neither is one that may still turn out to start a key. -/
def settled (s : Scanner) : Nat :=
  let waiting := (s.key :: s.outerKeys).filterMap fun
    | some k => if s.stale k && !k.required then none else some k.number
    | none => none
  waiting.foldl min (s.tokens.size - 2)

/-- All tokens of a text, up to where it becomes unreadable. -/
def scanAll : Nat → Scanner → List Token
  | 0, s => s.tokens.toList
  | fuel + 1, s =>
    match s.fetch with
    | .ok (s, true) => s.tokens.toList
    | .ok (s, false) => scanAll fuel s
    | .error e => s.tokens.toList.take s.settled ++ [⟨.unreadable, e.line⟩]

end Scanner

/-- The tokens of a text. -/
def tokensOf (s : String) : List Token :=
  match Cursor.ofText s with
  | .error e => [⟨.unreadable, e.line⟩]
  | .ok c => Scanner.scanAll (c.rest.length + 1) { cursor := c }

end ExprBackend.Yaml
