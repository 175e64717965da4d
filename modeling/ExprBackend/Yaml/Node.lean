import ExprBackend.Yaml.Scanner
import ExprBackend.Yaml.Tag

/-!
# Documents

The tree of nodes of the first document of a text. Nodes with an anchor are kept in a table, an
alias refers to an entry of it, so that a node may contain an alias of itself.
-/

namespace ExprBackend.Yaml

/-- A node with its line, counted from 0. -/
inductive Node where
  | scalar (line : Nat) (tag : Tag) (text : String)
  | sequence (line : Nat) (tag : Tag) (items : List Node)
  | mapping (line : Nat) (tag : Tag) (entries : List (Node × Node))
  /-- A reference by name to an entry of the table. Each alias has a number. -/
  | alias (line : Nat) (name : String) (target : Nat) (number : Nat)
deriving Repr, Inhabited

structure Document where
  root : Node
  /-- The nodes with an anchor, by number. -/
  anchored : List (Nat × Node)

namespace Parse

structure State where
  tokens : List Token
  /-- The numbers that names of anchors stand for at present. -/
  anchors : List (String × Nat) := []
  anchorCount : Nat := 0
  anchored : List (Nat × Node) := []
  aliasCount : Nat := 0
  /-- What tag handles stand for. -/
  handles : List (String × String) := []

abbrev Parser := StateT State (Except Malformed)

def fail {α : Type} (t : Token) : Parser α := throw ⟨t.line⟩

/-- The next token, which has to be readable. -/
def peek : Parser Token := do
  match (← get).tokens with
  | [] => return ⟨.streamEnd, 0⟩
  | t :: _ => if t.kind = .unreadable then fail t else return t

def skip : Parser Unit := modify fun s => { s with tokens := s.tokens.tail }

/-- Anchor and tag of a node. -/
structure Properties where
  anchor : Option String := none
  tag : Option (String × String) := none
  /-- The line of the first of them. -/
  line : Option Nat := none

/-- At most one anchor and one tag, in either order. -/
def properties : Parser Properties := do
  let first ← peek
  match first.kind with
  | .anchor name =>
    skip
    match (← peek).kind with
    | .tag handle suffix =>
      skip
      return ⟨some name, some (handle, suffix), some first.line⟩
    | _ => return ⟨some name, none, some first.line⟩
  | .tag handle suffix =>
    skip
    match (← peek).kind with
    | .anchor name =>
      skip
      return ⟨some name, some (handle, suffix), some first.line⟩
    | _ => return ⟨none, some (handle, suffix), some first.line⟩
  | _ => return {}

/-- The full name of a tag; empty if there is none. -/
def tagName (p : Properties) : Parser String := do
  match p.tag with
  | none => return ""
  | some ("", suffix) => return suffix
  | some (handle, suffix) =>
    match (← get).handles.lookup handle with
    | some stem => if (stem ++ suffix).isEmpty then throw ⟨0⟩ else return stem ++ suffix
    | none => throw ⟨0⟩

/-- The tag of a node, given the one it has without a name. A single mark is no name. -/
def tagOf (name : String) (usual : Tag) : Tag :=
  if name = "" || name = "!" then usual else Tag.ofName name

/-- The usual tag of a scalar. -/
def usualTag (isPlain : Bool) (text : String) : Tag :=
  if !isPlain then .str else if text = "<<" then .merge else Tag.ofPlain text

/-- A number for the anchor of a node that is about to be read. -/
def openAnchor (name : Option String) : Parser (Option Nat) := do
  match name with
  | none => return none
  | some name =>
    let n := (← get).anchorCount
    modify fun s => { s with anchors := (name, n) :: s.anchors, anchorCount := n + 1 }
    return some n

/-- Puts a node that was read into the table. -/
def closeAnchor (number : Option Nat) (node : Node) : Parser Node := do
  match number with
  | none => return node
  | some n =>
    modify fun s => { s with anchored := (n, node) :: s.anchored }
    return node

/-- The node of a place where nothing stands. -/
def emptyNode (line : Nat) : Node := .scalar line .null ""

/-- Where a node may stand: in a flow collection, in a block, or as the value of a block mapping,
where the entries of a sequence need no indentation. -/
inductive Place where
  | flow
  | block
  | blockValue
deriving DecidableEq, Repr

mutual

/-- The node at the next token. -/
def node : Nat → Place → Parser Node
  | 0, _ => do fail (← peek)
  | fuel + 1, place => do
    let t ← peek
    match t.kind with
    | .alias name =>
      skip
      let s ← get
      match s.anchors.lookup name with
      | some target =>
        set { s with aliasCount := s.aliasCount + 1 }
        return .alias t.line name target s.aliasCount
      | none => fail t
    | _ =>
      let p ← properties
      let t ← peek
      let line := p.line.getD t.line
      let name ← tagName p
      let inBlock := place ≠ .flow
      match t.kind with
      | .scalar isPlain text =>
        let anchor ← openAnchor p.anchor
        skip
        closeAnchor anchor (.scalar line (tagOf name (usualTag isPlain text)) text)
      | .flowSequenceStart =>
        let anchor ← openAnchor p.anchor
        skip
        closeAnchor anchor (.sequence line (tagOf name .seq) (← flowItems fuel true))
      | .flowMappingStart =>
        let anchor ← openAnchor p.anchor
        skip
        closeAnchor anchor (.mapping line (tagOf name .map) (← flowEntries fuel true))
      | .blockEntry =>
        if place = .blockValue then
          let anchor ← openAnchor p.anchor
          closeAnchor anchor (.sequence line (tagOf name .seq) (← looseItems fuel))
        else bare p name line t
      | .blockSequenceStart =>
        if inBlock then
          let anchor ← openAnchor p.anchor
          skip
          closeAnchor anchor (.sequence line (tagOf name .seq) (← blockItems fuel))
        else bare p name line t
      | .blockMappingStart =>
        if inBlock then
          let anchor ← openAnchor p.anchor
          skip
          closeAnchor anchor (.mapping line (tagOf name .map) (← blockEntries fuel))
        else bare p name line t
      | _ => bare p name line t

/-- A node that consists of an anchor or a tag alone. -/
def bare (p : Properties) (name : String) (line : Nat) (t : Token) : Parser Node := do
  if p.anchor.isSome || name ≠ "" then
    let anchor ← openAnchor p.anchor
    closeAnchor anchor (.scalar line (tagOf name .null) "")
  else fail t

/-- Entries of a block sequence up to its end. -/
def blockItems : Nat → Parser (List Node)
  | 0 => do fail (← peek)
  | fuel + 1 => do
    let t ← peek
    match t.kind with
    | .blockEntry =>
      skip
      let item ← match (← peek).kind with
        | .blockEntry | .blockEnd => pure (emptyNode t.line)
        | _ => node fuel .block
      return item :: (← blockItems fuel)
    | .blockEnd =>
      skip
      return []
    | _ => fail t

/-- Entries of a sequence that is not indented. -/
def looseItems : Nat → Parser (List Node)
  | 0 => do fail (← peek)
  | fuel + 1 => do
    let t ← peek
    match t.kind with
    | .blockEntry =>
      skip
      let item ← match (← peek).kind with
        | .blockEntry | .key | .value | .blockEnd => pure (emptyNode t.line)
        | _ => node fuel .block
      return item :: (← looseItems fuel)
    | _ => return []

/-- Entries of a block mapping up to its end. -/
def blockEntries : Nat → Parser (List (Node × Node))
  | 0 => do fail (← peek)
  | fuel + 1 => do
    let t ← peek
    match t.kind with
    | .key =>
      skip
      let key ← match (← peek).kind with
        | .key | .value | .blockEnd => pure (emptyNode t.line)
        | _ => node fuel .blockValue
      let v ← peek
      let value ←
        if v.kind = .value then do
          skip
          match (← peek).kind with
          | .key | .value | .blockEnd => pure (emptyNode v.line)
          | _ => node fuel .blockValue
        else pure (emptyNode v.line)
      return (key, value) :: (← blockEntries fuel)
    | .blockEnd =>
      skip
      return []
    | _ => fail t

/-- Items of a flow sequence behind its start or behind an item. -/
def flowItems : Nat → Bool → Parser (List Node)
  | 0, _ => do fail (← peek)
  | fuel + 1, first => do
    if (← peek).kind = .flowSequenceEnd then
      skip
      return []
    else
      if !first then
        let t ← peek
        if t.kind = .flowEntry then skip else fail t
      let t ← peek
      match t.kind with
      | .flowSequenceEnd =>
        skip
        return []
      | .key =>
        skip
        let item ← flowPair fuel t.line
        return item :: (← flowItems fuel false)
      | _ =>
        let item ← node fuel .flow
        return item :: (← flowItems fuel false)

/-- A mapping of a single entry that stands in a flow sequence without brackets. Where the key is
empty, the token in its place is passed over. -/
def flowPair : Nat → Nat → Parser Node
  | 0, _ => do fail (← peek)
  | fuel + 1, line => do
    let t ← peek
    let key ← match t.kind with
      | .value | .flowEntry | .flowSequenceEnd => do
        skip
        pure (emptyNode t.line)
      | _ => node fuel .flow
    let v ← peek
    let value ←
      if v.kind = .value then do
        skip
        match (← peek).kind with
        | .flowEntry | .flowSequenceEnd => pure (emptyNode v.line)
        | _ => node fuel .flow
      else pure (emptyNode v.line)
    return .mapping line .map [(key, value)]

/-- Entries of a flow mapping behind its start or behind an entry. -/
def flowEntries : Nat → Bool → Parser (List (Node × Node))
  | 0, _ => do fail (← peek)
  | fuel + 1, first => do
    if (← peek).kind = .flowMappingEnd then
      skip
      return []
    else
      if !first then
        let t ← peek
        if t.kind = .flowEntry then skip else fail t
      let t ← peek
      match t.kind with
      | .flowMappingEnd =>
        skip
        return []
      | .key =>
        skip
        let k ← peek
        let key ← match k.kind with
          | .value | .flowEntry | .flowMappingEnd => pure (emptyNode k.line)
          | _ => node fuel .flow
        let v ← peek
        let value ←
          if v.kind = .value then do
            skip
            let t ← peek
            match t.kind with
            | .flowEntry | .flowMappingEnd => pure (emptyNode t.line)
            | _ => node fuel .flow
          else pure (emptyNode v.line)
        return (key, value) :: (← flowEntries fuel false)
      | _ =>
        let key ← node fuel .flow
        let value := emptyNode (← peek).line
        return (key, value) :: (← flowEntries fuel false)

end

/-- The directives in front of a document. -/
def directives : Nat → Bool → List (String × String) → Parser (List (String × String))
  | 0, _, _ => do fail (← peek)
  | fuel + 1, versioned, handles => do
    let t ← peek
    match t.kind with
    | .versionDirective major minor =>
      if versioned || major ≠ 1 || minor ≠ 1 then fail t
      else
        skip
        directives fuel true handles
    | .tagDirective handle stem =>
      if (handles.lookup handle).isSome then fail t
      else
        skip
        directives fuel versioned (handles ++ [(handle, stem)])
    | _ => return handles

/-- The handles that need no directive. -/
def usualHandles : List (String × String) := [("!", "!"), ("!!", Tag.standardSpace)]

/-- The content of the first document; none if there is no document. -/
def document (fuel : Nat) : Parser (Option Node) := do
  let t ← peek
  if t.kind = .streamEnd then return none
  else
    let handles ← directives fuel false []
    modify fun s => { s with handles := handles ++ usualHandles }
    let root ← match t.kind with
      | .versionDirective .. | .tagDirective .. | .documentStart =>
        let start ← peek
        if start.kind ≠ .documentStart then fail start
        skip
        let t ← peek
        match t.kind with
        | .versionDirective .. | .tagDirective .. | .documentStart | .documentEnd | .streamEnd =>
          pure (emptyNode t.line)
        | _ => node fuel .block
      | _ => node fuel .block
    discard peek
    return some root

end Parse

/-- The first document of a text, if there is one. -/
def Document.ofText? (s : String) : Except Malformed (Option Document) := do
  let tokens := tokensOf s
  let (root, state) ← (Parse.document (2 * tokens.length + 4)).run { tokens }
  return root.map (⟨·, state.anchored⟩)

end ExprBackend.Yaml
