import ExprBackend.Number.Literal
import ExprBackend.Yaml.Timestamp

/-!
# Tags

A tag says what a node is. A plain text without a tag has the one that its form stands for.
-/

namespace ExprBackend.Yaml

inductive Tag where
  | null
  | bool
  | int
  | float
  | str
  | timestamp
  | binary
  | merge
  | seq
  | map
  | other (text : String)
deriving DecidableEq, Repr, Inhabited

namespace Tag

def text : Tag → String
  | .null => "!!null"
  | .bool => "!!bool"
  | .int => "!!int"
  | .float => "!!float"
  | .str => "!!str"
  | .timestamp => "!!timestamp"
  | .binary => "!!binary"
  | .merge => "!!merge"
  | .seq => "!!seq"
  | .map => "!!map"
  | .other s => s

def ofText : String → Tag
  | "!!null" => .null
  | "!!bool" => .bool
  | "!!int" => .int
  | "!!float" => .float
  | "!!str" => .str
  | "!!timestamp" => .timestamp
  | "!!binary" => .binary
  | "!!merge" => .merge
  | "!!seq" => .seq
  | "!!map" => .map
  | s => .other s

/-- The name space that two exclamation marks stand for. -/
def standardSpace : String := "tag:yaml.org,2002:"

/-- The tag with a full name. -/
def ofName (s : String) : Tag :=
  if s.startsWith standardSpace then
    ofText ("!!" ++ String.ofList (s.toList.drop standardSpace.length))
  else ofText s

end Tag

/-- What the form of a plain text stands for. Integers beyond the signed ones are told apart. -/
inductive PlainForm where
  | tag (t : Tag)
  | bigInt
deriving DecidableEq, Repr

namespace PlainForm

/-- Words with a meaning of their own. -/
def ofWord? (s : String) : Option Tag :=
  if ["", "~", "null", "Null", "NULL"].contains s then some .null
  else if ["true", "True", "TRUE", "false", "False", "FALSE"].contains s then some .bool
  else if [".nan", ".NaN", ".NAN", ".inf", ".Inf", ".INF", "+.inf", "+.Inf", "+.INF", "-.inf",
      "-.Inf", "-.INF"].contains s then some .float
  else none

/-- Digits, or digits and a point with more of them on at least one side. -/
def isMantissa (cs : List Char) : Bool :=
  let whole := cs.takeWhile Char.isDigit
  match cs.drop whole.length with
  | [] => !whole.isEmpty
  | '.' :: places => places.all Char.isDigit && !(whole.isEmpty && places.isEmpty)
  | _ => false

/-- A decimal number with an optional sign and exponent. -/
def isDecimal (cs : List Char) : Bool :=
  let digits := (Literal.splitSign cs).2
  let mantissa := digits.takeWhile fun c => c ≠ 'e' && c ≠ 'E'
  isMantissa mantissa && match digits.drop mantissa.length with
    | [] => true
    | _ :: exponent =>
      let ds := (Literal.splitSign exponent).2
      !ds.isEmpty && ds.all Char.isDigit

def isOk {ε α : Type} : Except ε α → Bool
  | .ok _ => true
  | .error _ => false

/-- A number in a base behind its mark, where the sign may also stand behind the mark. -/
def ofMarked? (base : Nat) (cs : List Char) : Option PlainForm :=
  if isOk (Literal.readSigned (Literal.readPlain base) cs) then some (.tag .int)
  else if isOk (Literal.readPlain base cs) then some .bigInt
  else none

/-- A number with a mark that is not read as an integer otherwise. -/
def ofBased? : List Char → Option PlainForm
  | '0' :: 'b' :: cs => ofMarked? 2 cs
  | '0' :: 'o' :: cs => ofMarked? 8 cs
  | '-' :: '0' :: 'b' :: cs => ofNegative 2 cs
  | '-' :: '0' :: 'o' :: cs => ofNegative 8 cs
  | _ => none
where
  /-- The digits behind a minus and a mark. -/
  ofNegative (base : Nat) (cs : List Char) : Option PlainForm :=
    if isOk (Literal.readSigned (Literal.readPlain base) ('-' :: cs)) then some (.tag .int)
    else none

/-- What starts with a digit or a sign, once its underscores are left out. -/
def ofNumber (cs : List Char) : PlainForm :=
  if isOk (Literal.readSigned Literal.readMarked cs) then .tag .int
  else if isOk (Literal.readMarked cs) then .bigInt
  else if isDecimal cs && isOk (Literal.readFloat cs) then .tag .float
  else (ofBased? cs).getD (.tag .str)

/-- The form of a plain text. `dates` tells whether it may be a date. -/
def ofText (dates : Bool) (s : String) : PlainForm :=
  match ofWord? s with
  | some t => .tag t
  | none =>
    match s.toList with
    | [] => .tag .null
    | c :: cs =>
      if c = '.' then if isOk (Literal.readFloat (c :: cs)) then .tag .float else .tag .str
      else if c.isDigit || c = '+' || c = '-' then
        if dates && Timestamp.isTimestamp (c :: cs) then .tag .timestamp
        else ofNumber ((c :: cs).filter (· ≠ '_'))
      else .tag .str

end PlainForm

/-- The tag of a form. -/
def PlainForm.toTag : PlainForm → Tag
  | .tag t => t
  | .bigInt => .int

/-- The tag of a plain text that has none. -/
def Tag.ofPlain (s : String) : Tag := (PlainForm.ofText true s).toTag

/-- Whether a text can be what a tag says. Only the tags of the basic types are checked; an
integer within the signed ones also passes for a float. -/
def Tag.fits (t : Tag) (s : String) : Bool :=
  match t with
  | .null | .bool | .int => (PlainForm.ofText false s).toTag = t
  | .float =>
    PlainForm.ofText false s = .tag .float || PlainForm.ofText false s = .tag .int
  | .timestamp => PlainForm.ofText true s = .tag .timestamp
  | _ => true

end ExprBackend.Yaml
