import ExprBackend.Failure
import ExprBackend.Loader.Source
import ExprBackend.Text.Bytes
import ExprBackend.Yaml.Node

/-!
# Reading source files

Nodes of a document are fitted to the records of a source file. All misfits are collected. Fields
that a record does not have are a misfit except in statements.
-/

namespace ExprBackend.Source

open Yaml (Node Document Tag Malformed)

/-- What a node is fitted to. -/
inductive Shape where
  | text
  | program
  | funcs
  | func
  | params
  | param
  | statements
  | statement
  | statementFields
  | operands
deriving DecidableEq, Repr

/-- The word for a shape in messages. -/
def Shape.name : Shape → String
  | .text => "string"
  | .program => "ir.yProgram"
  | .funcs => "[]ir.yFunc"
  | .func => "ir.yFunc"
  | .params => "[]ir.yParam"
  | .param => "ir.yParam"
  | .statements => "[]ir.yStmt"
  | .statement => "ir.yStmt"
  | .statementFields => "ir.plain"
  | .operands => "[]yaml.Node"

/-- A node that does not fit, with its line counted from 1. -/
inductive Misfit where
  | wrongKind (line : Nat) (tag : Tag) (text : String) (shape : Shape)
  | keyTwice (line : Nat) (key : String) (first : Nat)
  | fieldTwice (line : Nat) (field : String) (shape : Shape)
  | unknownField (line : Nat) (field : String) (shape : Shape)
deriving DecidableEq, Repr

def Misfit.message : Misfit → String
  | .wrongKind line tag text shape =>
    let shown := if tag = .seq || tag = .map then "" else " `" ++ Text.excerpt text ++ "`"
    s!"line {line}: cannot unmarshal " ++ tag.text ++ shown ++ " into " ++ shape.name
  | .keyTwice line key first =>
    s!"line {line}: mapping key " ++ Text.quoted key ++ s!" already defined at line {first}"
  | .fieldTwice line field shape =>
    s!"line {line}: field " ++ field ++ " already set in type " ++ shape.name
  | .unknownField line field shape =>
    s!"line {line}: field " ++ field ++ " not found in type " ++ shape.name

/-- What can not be read any further. -/
inductive Stop where
  | malformed (why : Malformed)
  | fault (f : Fault)
deriving DecidableEq, Repr

/-- Reading that collects misfits. -/
abbrev Decode := StateT (List Misfit) (Except Stop)

def refuse {α : Type} (line : Nat) : Decode α := throw (.malformed ⟨line⟩)

def note (m : Misfit) : Decode Unit := modify (· ++ [m])

/-- The aliases that are being followed. -/
abbrev Path := List Nat

/-- The line of a node counted from 1. -/
def lineOf : Node → Nat
  | .scalar line .. | .sequence line .. | .mapping line .. | .alias line .. => line + 1

def tagOf : Node → Option Tag
  | .scalar _ tag _ | .sequence _ tag _ | .mapping _ tag _ => some tag
  | .alias .. => none

/-- The node that an alias stands for. An alias can not be part of what it stands for. -/
def follow (doc : Document) (path : Path) (n : Node) : Decode (Node × Path) :=
  match n with
  | .alias line _ target number =>
    if path.contains number then refuse line
    else match doc.anchored.lookup target with
      | some n => return (n, number :: path)
      | none => refuse line
  | n => return (n, path)

/-- The text of a scalar, none for null. A text that is not what its tag says is refused. -/
def scalarText (line : Nat) (tag : Tag) (text : String) : Decode (Option String) :=
  if !tag.fits text then refuse line
  else match tag with
    | .null => return none
    | .binary =>
      match Text.ofBase64? text with
      | some s => return some s
      | none => refuse line
    | _ => return some text

/-- Two keys are the same if they are of one kind and have one text. -/
def keyText : Node → Nat × String
  | .scalar _ _ text => (0, text)
  | .sequence .. => (1, "")
  | .mapping .. => (2, "")
  | .alias _ name _ _ => (3, name)

/-- A misfit for every pair of keys that are the same. -/
def repeatedKeys : List (Node × Node) → List Misfit
  | [] => []
  | (k, _) :: entries =>
    (entries.filterMap fun (l, _) =>
      if keyText l = keyText k then some (.keyTwice (lineOf l) (keyText l).2 (lineOf k))
      else none) ++ repeatedKeys entries

/-- Notes repeated keys and tells whether there are any. -/
def noteRepeated (entries : List (Node × Node)) : Decode Bool := do
  let repeated := repeatedKeys entries
  modify (· ++ repeated)
  return !repeated.isEmpty

/-- Notes that a node is not of a shape; null fits every shape as nothing. -/
def misfit {α : Type} (shape : Shape) (n : Node) : Decode (Option α) := do
  match n with
  | .scalar line tag text =>
    if (← scalarText line tag text).isSome then note (.wrongKind (line + 1) tag text shape)
  | .sequence line tag _ => note (.wrongKind (line + 1) tag "" shape)
  | .mapping line tag entries =>
    if !(← noteRepeated entries) then note (.wrongKind (line + 1) tag "" shape)
  | .alias line .. => refuse line
  return none

def text (doc : Document) (path : Path) (n : Node) : Decode (Option String) := do
  match ← follow doc path n with
  | (.scalar line tag s, _) => scalarText line tag s
  | (n, _) => misfit .text n

/-- The items of a list that fit. A null list is none. -/
def items {α : Type} (doc : Document) (shape : Shape) (item : Path → Node → Decode (Option α))
    (path : Path) (n : Node) : Decode (Option (Option (List α))) := do
  match ← follow doc path n with
  | (.sequence _ _ ns, path) => return some (some ((← ns.mapM (item path)).filterMap id))
  | (.scalar line tag s, _) =>
    match ← scalarText line tag s with
    | none => return some none
    | some _ => misfit shape (.scalar line tag s)
  | (n, _) => misfit shape n

/-! ## Records -/

/-- How a record is filled: for each field the function that sets it. -/
structure Layout (ρ : Type) where
  shape : Shape
  /-- Whether fields without a setter are a misfit. -/
  strict : Bool
  set? : String → Option (ρ → Path → Node → Decode ρ)

/-- A plain double less-than sign as a key stands for the fields of another mapping. -/
def isMerge : Node → Bool
  | .scalar _ .merge "<<" => true
  | _ => false

/-- What a mapping takes further fields from. -/
def mergeSource? (entries : List (Node × Node)) : Option Node :=
  (entries.reverse.find? (isMerge ·.1)).map (·.2)

/-- Fills in the fields of a mapping itself. `merged` holds the fields that were set before, of a
mapping that is merged into another one. -/
def ownFields {ρ : Type} (doc : Document) (layout : Layout ρ) (path : Path) :
    List (Node × Node) → List String → Option (List String) → ρ →
    Decode (ρ × Option (List String))
  | [], _, merged, r => return (r, merged)
  | (k, v) :: entries, done, merged, r => do
    if isMerge k then ownFields doc layout path entries done merged r
    else
      match ← text doc path k with
      | none => ownFields doc layout path entries done merged r
      | some field =>
        if merged.any (·.contains field) then ownFields doc layout path entries done merged r
        else
          let merged := merged.map (· ++ [field])
          match layout.set? field with
          | some set =>
            if done.contains field then
              note (.fieldTwice (lineOf k) field layout.shape)
              ownFields doc layout path entries done merged r
            else
              let r ← set r path v
              ownFields doc layout path entries (field :: done) merged r
          | none =>
            if layout.strict then note (.unknownField (lineOf k) field layout.shape)
            ownFields doc layout path entries done merged r

/-- The kind of a mapping in messages: whether all its keys are texts. -/
def mappingKind (entries : List (Node × Node)) : String :=
  if entries.all fun (k, _) => tagOf k = some .str || tagOf k = some .merge then
    "map[string]interface \x7b\x7d"
  else "map[interface \x7b\x7d]interface \x7b\x7d"

/-- The fields that a mapping has itself, whatever their values. Only texts name fields, and a
collection is a fault. -/
def fieldNames (doc : Document) (path : Path) : List (Node × Node) → Decode (List String)
  | [] => return []
  | (k, _) :: entries => do
    match ← follow doc path k with
    | (.scalar line tag s, _) =>
      let name ← scalarText line tag s
      let rest ← fieldNames doc path entries
      match tag with
      | .null | .bool | .int | .float | .timestamp => return rest
      | _ => return name.toList ++ rest
    | (.sequence .., _) => throw (.fault (.collectionKey "[]interface \x7b\x7d"))
    | (.mapping _ _ inner, _) =>
      if ← noteRepeated inner then fieldNames doc path entries
      else throw (.fault (.collectionKey (mappingKind inner)))
    | (.alias line .., _) => refuse line

/-- The mappings that a merge takes fields from, one or a list. -/
def mergeParts (doc : Document) (n : Node) : Decode (List Node) :=
  let isMapping : Node → Bool
    | .mapping .. => true
    | .alias _ _ target _ =>
      match doc.anchored.lookup target with
      | some (.mapping ..) => true
      | _ => false
    | _ => false
  match n with
  | .sequence line _ ns => if ns.all isMapping then return ns else refuse line
  | n => if isMapping n then return [n] else refuse (lineOf n)

/-- Fills in all fields of a mapping: its own, then those that it merges. -/
def fill {ρ : Type} (doc : Document) (layout : Layout ρ) : Nat → Path → Option (List String) →
    List (Node × Node) → ρ → Decode (ρ × Option (List String))
  | 0, _, _, _, _ => refuse 0
  | fuel + 1, path, merged, entries, r => do
    if ← noteRepeated entries then return (r, merged)
    else
      let (r, merged) ← ownFields doc layout path entries [] merged r
      match mergeSource? entries with
      | none => return (r, merged)
      | some source =>
        let names ← match merged with
          | some names => pure names
          | none => fieldNames doc path entries
        let mut r := r
        let mut names := names
        for part in ← mergeParts doc source do
          match ← follow doc path part with
          | (.mapping _ _ inner, path) =>
            let (next, all) ← fill doc layout fuel path (some names) inner r
            r := next
            names := all.getD []
          | (n, _) => refuse (lineOf n)
        return (r, merged.map fun _ => names)

/-- A record from a mapping; null gives none. -/
def record {ρ : Type} (doc : Document) (layout : Layout ρ) (fuel : Nat) (zero : ρ) (path : Path)
    (n : Node) : Decode (Option ρ) := do
  match ← follow doc path n with
  | (.mapping _ _ entries, path) =>
    if (repeatedKeys entries).isEmpty then
      return some (← fill doc layout fuel path none entries zero).1
    else
      discard (noteRepeated entries)
      return none
  | (n, _) => misfit layout.shape n

/-- Sets a field of text, which null leaves as it is. -/
def setText {ρ : Type} (doc : Document) (set : ρ → String → ρ) (r : ρ) (path : Path) (n : Node) :
    Decode ρ := do
  match ← text doc path n with
  | some s => return set r s
  | none => return r

/-- An operand is taken as it is. -/
def operand : Node → Operand
  | .scalar line tag s => .scalar (line + 1) tag s
  | n => .other (lineOf n)

/-- Sets a field that holds a list. -/
def setItems {ρ α : Type} (doc : Document) (shape : Shape)
    (item : Path → Node → Decode (Option α)) (set : ρ → Option (List α) → ρ) (r : ρ) (path : Path)
    (n : Node) : Decode ρ := do
  match ← items doc shape item path n with
  | some xs => return set r xs
  | none => return r

/-- The fields of a statement, given the reader of the statements in it. -/
def statementField? (doc : Document) (inner : Path → Node → Decode (Option Statement)) :
    String → Option (Statement → Path → Node → Decode Statement)
  | "let" => some (setText doc fun r s => { r with name := s })
  | "type" => some (setText doc fun r s => { r with ty := s })
  | "value" => some fun r _ n => return { r with value := some (operand n) }
  | "op" => some (setText doc fun r s => { r with op := s })
  | "args" =>
    some (setItems doc .operands (fun _ n => return some (operand n))
      fun r xs => { r with args := xs.getD [] })
  | "if" => some fun r _ n => return { r with cond := some (operand n) }
  | "then" =>
    some (setItems doc .statements inner fun r xs => { r with onTrue := xs.getD [] })
  | "else" => some (setItems doc .statements inner fun r xs => { r with onFalse := xs })
  | _ => none

/-- A statement, left out if it is null or has a misfit. It is read on its own: unknown fields do
not matter, and aliases that lead to it may come again in it. -/
def statement (doc : Document) : Nat → Bool → Path → Node → Decode (Option Statement)
  | 0, _, _, n => refuse (lineOf n)
  | fuel + 1, strict, path, n => do
    let (n, path) ← follow doc path n
    if tagOf n = some .null then
      let fields := statementField? doc (statement doc fuel strict)
      record doc ⟨.statement, strict, fields⟩ fuel {} path n
    else
      let before := (← get).length
      let fields := statementField? doc (statement doc fuel false)
      let r ← record doc ⟨.statementFields, false, fields⟩ fuel {} [] n
      if (← get).length = before then return r.map fun r => { r with line := lineOf n }
      else return none

def paramField? (doc : Document) :
    String → Option (Param → Path → Node → Decode Param)
  | "name" => some (setText doc fun r s => { r with name := s })
  | "type" => some (setText doc fun r s => { r with ty := s })
  | _ => none

def funcField? (doc : Document) (fuel : Nat) : String → Option (Func → Path → Node → Decode Func)
  | "name" => some (setText doc fun r s => { r with name := s })
  | "params" =>
    some (setItems doc .params (record doc ⟨.param, true, paramField? doc⟩ fuel {})
      fun r xs => { r with params := xs.getD [] })
  | "body" =>
    some (setItems doc .statements (statement doc fuel true)
      fun r xs => { r with body := xs.getD [] })
  | _ => none

def programField? (doc : Document) (fuel : Nat) :
    String → Option (List Func → Path → Node → Decode (List Func))
  | "funcs" =>
    some (setItems doc .funcs (record doc ⟨.func, true, funcField? doc fuel⟩ fuel {})
      fun _ xs => xs.getD [])
  | _ => none

/-- The functions of a document. The depth bounds how far its nodes are followed. -/
def funcsOf (doc : Document) (depth : Nat) : Decode (List Func) := do
  let layout : Layout (List Func) := ⟨.program, true, programField? doc depth⟩
  return (← record doc layout depth [] [] doc.root).getD []

end ExprBackend.Source
