import ExprBackend.Expr.Basic
import ExprBackend.Expr.Temporary
import ExprBackend.Loader.Source

/-!
# From source to expressions

Names are resolved to what binds them and types are checked. A name is bound once in a function
and is in scope behind its binding, to the end of the block. Operations take no float literals, so
these are bound to temporaries in front of the statement.
-/

namespace ExprBackend

/-- The part of a function in which something is wrong. -/
inductive BuildPlace where
  | func (name : String)
  | param
  | body
  | line (n : Nat)
  | arg (i : Nat)
  | cond
  | onTrue
  | onFalse
deriving DecidableEq, Repr

inductive BuildCause where
  | noName
  | badParamType (name ty : String)
  | reserved (name : String)
  | redeclared (name : String)
  | badType (ty : String)
  | declared (ty got : Ty)
  | notOneForm
  | notScalar (line : Nat)
  | literal (line : Nat) (why : Literal.Refusal)
  | undefined (line : Nat) (name : String)
  | unsupportedLiteral (line : Nat) (tag : Yaml.Tag)
  | unsupportedBinary (op : String)
  | typesDiffer (l : Ty) (op : BinOp) (r : Ty)
  | wrongArgs (op : String) (n : Nat)
deriving DecidableEq, Repr

/-- What is wrong and where, the outermost part first. -/
structure BuildError where
  places : List BuildPlace := []
  cause : BuildCause
deriving DecidableEq, Repr

def BuildPlace.message : BuildPlace → String
  | .func name => "func " ++ name
  | .param => "param"
  | .body => "body"
  | .line n => "line " ++ toString n
  | .arg i => "arg " ++ toString i
  | .cond => "cond"
  | .onTrue => "then"
  | .onFalse => "else"

def BuildCause.message : BuildCause → String
  | .noName => "no name"
  | .badParamType name ty => "param " ++ name ++ ": bad type " ++ Text.quoted ty
  | .reserved name => name ++ ": reserved name"
  | .redeclared name => name ++ " redeclared"
  | .badType ty => "bad type " ++ Text.quoted ty
  | .declared ty got => "declared " ++ ty.name ++ ", got " ++ got.name
  | .notOneForm => "need exactly one of value, op, if"
  | .notScalar line => s!"line {line}: operand must be a literal or a name"
  | .literal line why => s!"line {line}: " ++ why.message
  | .undefined line name => s!"line {line}: undefined: " ++ name
  | .unsupportedLiteral line tag => s!"line {line}: unsupported literal " ++ tag.text
  | .unsupportedBinary op => "unsupported binary op " ++ Text.quoted op
  | .typesDiffer l op r => "operand types differ: " ++ l.name ++ " " ++ op.symbol ++ " " ++ r.name
  | .wrongArgs op n => "op " ++ Text.quoted op ++ s!" with {n} args"

def BuildError.message (e : BuildError) : String :=
  ": ".intercalate (e.places.map BuildPlace.message ++ [e.cause.message])

namespace Build

/-- The names in scope with their types, the latest first. -/
abbrev Scope := List (String × Ty)

/-- What is known of a function as a whole. -/
structure State where
  /-- All names that are bound so far. -/
  bound : List String := []
  temporaries : Temporaries := {}

abbrev Builder := StateT State (Except BuildError)

def refuse {α : Type} (cause : BuildCause) : Builder α := throw { cause }

/-- Notes the part that an error comes from. -/
def within {α : Type} (place : BuildPlace) (x : Builder α) : Builder α := fun s =>
  match x s with
  | .error e => .error { e with places := place :: e.places }
  | r => r

/-- Binds a name that is not bound yet. -/
def bindName (name : String) : Builder Unit := do
  if isTemporary name then refuse (.reserved name)
  else if (← get).bound.contains name then refuse (.redeclared name)
  else modify fun s => { s with bound := name :: s.bound }

/-- A literal that was read on a line. -/
def literal (line : Nat) (make : α → Atom) (r : Except Literal.Refusal α) : Builder Atom :=
  match r with
  | .ok v => return make v
  | .error why => refuse (.literal line why)

/-- The atom that an operand stands for: a literal by its tag, or a name in scope. -/
def atom (scope : Scope) : Source.Operand → Builder Atom
  | .other line => refuse (.notScalar line)
  | .scalar line tag text =>
    match tag with
    | .int => literal line .int (Literal.integer text)
    | .float => literal line .float (Literal.float text)
    | .bool => literal line .bool (Literal.truth text)
    | .str =>
      match List.lookup text scope with
      | some ty => return .var text ty
      | none => refuse (.undefined line text)
    | tag => refuse (.unsupportedLiteral line tag)

/-- Statements to go in front, and the scope with what they bind. -/
structure Hoisted where
  code : List Expr := []
  scope : Scope

/-- An operand of an operation. A float literal is bound to the next temporary. -/
def hoist (h : Hoisted) (x : Atom) : Builder (Atom × Hoisted) := do
  if x.ty = .float && !x.isVar then
    let (name, temporaries) := (← get).temporaries.next
    modify fun s => { s with bound := name :: s.bound, temporaries }
    return (.var name x.ty, ⟨h.code ++ [.bind name (.atom x)], (name, x.ty) :: h.scope⟩)
  else return (x, h)

/-- The operands of an operation from the `i`-th one on. -/
def operands : Nat → List Source.Operand → Hoisted → Builder (List Atom × Hoisted)
  | _, [], h => return ([], h)
  | i, x :: xs, h => do
    let (x, h) ← hoist h (← within (.arg i) (atom h.scope x))
    let (xs, h) ← operands (i + 1) xs h
    return (x :: xs, h)

/-- An operation on one or two operands of one type. -/
def operation (op : String) (args : List Atom) : Builder Expr :=
  match args with
  | [x] =>
    match UnOp.ofSymbol op with
    | .other _ => refuse (.wrongArgs op 1)
    | u => return .unary u x x.ty
  | [l, r] =>
    match BinOp.ofSymbol op with
    | .other _ => refuse (.unsupportedBinary op)
    | b => if l.ty = r.ty then return .binary b l r l.ty else refuse (.typesDiffer l.ty b r.ty)
  | args => refuse (.wrongArgs op args.length)

/-- Checks the type that a statement declares, if it does. -/
def checkTy (declared : String) (ty : Ty) : Builder Unit :=
  if declared = "" then return ()
  else match Ty.ofName? declared with
    | none => refuse (.badType declared)
    | some d => if d = ty then return () else refuse (.declared d ty)

/-- The type of an expression that has been built. -/
def tyOf (x : Expr) : Ty := x.ty?.getD .int

mutual

/-- The expression of a statement, without what it binds. A statement has one of three forms: a
value, an operation or a condition. -/
def expr (scope : Scope) : Source.Statement → Builder (Expr × Hoisted)
  | ⟨_, _, value, op, args, cond, onTrue, onFalse, _⟩ => do
    match value, cond with
    | some x, none =>
      if op ≠ "" then refuse .notOneForm
      else return (.atom (← atom scope x), { scope })
    | none, some c =>
      if op ≠ "" then refuse .notOneForm
      else
        let cond ← within .cond (atom scope c)
        let first ← within .onTrue (block scope onTrue)
        match onFalse with
        | none => return (.branch cond first none, { scope })
        | some ys =>
          let second ← within .onFalse (block scope ys)
          return (.branch cond first (some second), { scope })
    | none, none =>
      if op = "" then refuse .notOneForm
      else
        let (args, h) ← operands 0 args { scope }
        return (← operation op args, h)
    | some _, some _ => refuse .notOneForm

/-- The statements of a block in order, hoisted ones in front of those that they are for. -/
def block (scope : Scope) : List Source.Statement → Builder (List Expr)
  | [] => return []
  | y :: ys => do
    let (x, h) ← within (.line y.line) do
      let (x, h) ← expr scope y
      checkTy y.ty (tyOf x)
      if y.name = "" then return (x, h)
      else
        bindName y.name
        return (.bind y.name x, { h with scope := (y.name, tyOf x) :: h.scope })
    return h.code ++ x :: (← block h.scope ys)

end

/-- The parameters, and the scope that they make. -/
def params : List Source.Param → Scope → Builder (List Param × Scope)
  | [], scope => return ([], scope)
  | p :: ps, scope => do
    match Ty.ofName? p.ty with
    | none => refuse (.badParamType p.name p.ty)
    | some ty =>
      within .param (bindName p.name)
      let (ps, scope) ← params ps ((p.name, ty) :: scope)
      return (⟨p.name, ty⟩ :: ps, scope)

def func (f : Source.Func) : Builder Func := do
  if f.name = "" then refuse .noName
  else
    let (ps, scope) ← params f.params []
    let body ← within .body (block scope f.body)
    return ⟨f.name, ps, body⟩

end Build

/-- The function that a source function stands for. -/
def Source.Func.build (f : Source.Func) : Except BuildError ExprBackend.Func :=
  (Build.within (.func f.name) (Build.func f)).run' {}

end ExprBackend
