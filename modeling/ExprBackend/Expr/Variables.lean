import ExprBackend.Failure

/-!
# Numbered variables

The variables of a function are numbered in the order of their first occurrence: parameters,
then statements from left to right, what a binding contains before the name it binds. A name has
one type throughout.
-/

namespace ExprBackend

theorem lookup_empty (name : String) : ([] : List (String × Nat)).lookup name =
    (#[] : Array String).findIdx? fun n => decide (n = name) := by simp

/-- Names and types by number, and the numbers by name. A name has the number of its first place. -/
structure Variables where
  names : Array String := #[]
  types : Array Ty := #[]
  ids : List (String × Nat) := []
  types_size : types.size = names.size := by rfl
  lookup_ids : ∀ name, ids.lookup name = names.findIdx? fun n => decide (n = name) := by
    exact lookup_empty
deriving DecidableEq, Repr

namespace Variables

def empty : Variables := {}

instance : Inhabited Variables := ⟨empty⟩

def size (vars : Variables) : Nat := vars.names.size

def find? (vars : Variables) (name : String) : Option Nat := vars.ids.lookup name

def name (vars : Variables) (v : Nat) : String := vars.names[v]?.getD default

def ty (vars : Variables) (v : Nat) : Ty := vars.types[v]?.getD default

/-- Names with their types, in the order of their numbers. -/
def entries (vars : Variables) : Array (String × Ty) := vars.names.zip vars.types

def isFloat (vars : Variables) (v : Nat) : Bool := vars.ty v = .float

/-- The number of a name that has one. -/
def number (vars : Variables) (name : String) : Except Failure Nat :=
  match vars.find? name with
  | some v => .ok v
  | none => .error (.violation (.unknownVariable name))

/-- The entry at a number that may be out of range. -/
def entry (vars : Variables) (v : Int) : Except Fault (String × Ty) :=
  if v < 0 then .error (.index v vars.size)
  else match vars.entries[v.toNat]? with
    | some e => .ok e
    | none => .error (.index v vars.size)

/-- One more name. -/
def push (vars : Variables) (name : String) (ty : Ty) : Variables where
  names := vars.names.push name
  types := vars.types.push ty
  ids := vars.ids ++ [(name, vars.size)]
  types_size := by rw [Array.size_push, Array.size_push, vars.types_size]
  lookup_ids other := by
    rw [List.lookup_append, vars.lookup_ids, Array.findIdx?_push, List.lookup_cons, List.lookup_nil]
    by_cases h : other = name
    · simp [h, size]
    · simp [beq_eq_false_iff_ne.2 h, Ne.symm h]

/-- The number of a name, a new one if the name has none yet. -/
def add (name : String) (ty : Ty) : EStateM Failure Variables Nat := do
  let vars ← get
  match vars.find? name with
  | some v =>
    if vars.ty v = ty then return v
    else throw (.violation (.boundTwice name (vars.ty v) ty))
  | none =>
    set (vars.push name ty)
    return vars.size

def addAtom (x : Atom) : EStateM Failure Variables Unit := do
  if x.isVar then discard (add x.name x.ty) else return ()

mutual

def addExpr : Expr → EStateM Failure Variables Unit
  | .atom x => addAtom x
  | .bind name init => do
    addExpr init
    match init.ty? with
    | some ty => discard (add name ty)
    | none => throw (.fault .missingExpr)
  | .unary _ x _ => addAtom x
  | .binary _ l r _ => do
    addAtom l
    addAtom r
  | .branch cond onTrue onFalse => do
    addAtom cond
    addBlock onTrue
    match onFalse with
    | some b => addBlock b
    | none => return ()
  | .missing => throw (.violation .unnumberedExpr)

def addBlock : List Expr → EStateM Failure Variables Unit
  | [] => return ()
  | x :: xs => do
    addExpr x
    addBlock xs

end

def addParams : List Param → EStateM Failure Variables Unit
  | [] => return ()
  | p :: ps => do
    discard (add p.name p.ty)
    addParams ps

/-- What a run of additions on the empty table gives. -/
def collect (x : EStateM Failure Variables Unit) : Except Failure Variables :=
  match x empty with
  | .ok _ vars => .ok vars
  | .error e _ => .error e

/-- The variables of a function. -/
def ofFunc (f : Func) : Except Failure Variables :=
  collect do
    addParams f.params
    addBlock f.body

end Variables

end ExprBackend
