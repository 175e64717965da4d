import ExprBackend.Number.FloatText

/-!
# Expressions in flat form

Every operand of an operator is an atom, that is a literal or a variable, and every intermediate
value has a name. A function body is a block: a list of statements of which the last one gives
the value. A statement that is missing has a constructor of its own, because programs that are
put together by hand may lack one.
-/

namespace ExprBackend

/-- The types of values. `other` is a type code that the language does not have. -/
inductive Ty where
  | int
  | bool
  | float
  | other (code : Int)
deriving DecidableEq, Repr, Inhabited

def Ty.ofCode : Int → Ty
  | 0 => .int
  | 1 => .bool
  | 2 => .float
  | n => .other n

def Ty.name : Ty → String
  | .int => "int"
  | .bool => "bool"
  | .float => "float"
  | .other n => "type(" ++ toString n ++ ")"

/-- The type written by a name in a program. -/
def Ty.ofName? : String → Option Ty
  | "int" => some .int
  | "bool" => some .bool
  | "float" => some .float
  | _ => none

/-- Operators of one operand. `other` is a symbol without a meaning. -/
inductive UnOp where
  | not
  | neg
  | other (symbol : String)
deriving DecidableEq, Repr, Inhabited

def UnOp.ofSymbol : String → UnOp
  | "!" => .not
  | "-" => .neg
  | s => .other s

def UnOp.symbol : UnOp → String
  | .not => "!"
  | .neg => "-"
  | .other s => s

/-- Operators of two operands. `other` is a symbol without a meaning. -/
inductive BinOp where
  | plus
  | minus
  | times
  | div
  | mod
  | less
  | lessEq
  | greater
  | greaterEq
  | eq
  | notEq
  | other (symbol : String)
deriving DecidableEq, Repr, Inhabited

def BinOp.ofSymbol : String → BinOp
  | "+" => .plus
  | "-" => .minus
  | "*" => .times
  | "/" => .div
  | "%" => .mod
  | "<" => .less
  | "<=" => .lessEq
  | ">" => .greater
  | ">=" => .greaterEq
  | "==" => .eq
  | "!=" => .notEq
  | s => .other s

def BinOp.symbol : BinOp → String
  | .plus => "+"
  | .minus => "-"
  | .times => "*"
  | .div => "/"
  | .mod => "%"
  | .less => "<"
  | .lessEq => "<="
  | .greater => ">"
  | .greaterEq => ">="
  | .eq => "=="
  | .notEq => "!="
  | .other s => s

/-- A relation gives a truth value whatever the type of its operands. -/
def BinOp.isRelation : BinOp → Bool
  | .less | .lessEq | .greater | .greaterEq | .eq | .notEq => true
  | _ => false

/-- An operand. One with a name reads that variable, one without a name is the literal `word`:
the bits of a float, a two's complement integer otherwise, with 0 and 1 for the truth values. -/
structure Atom where
  name : String
  word : UInt64
  ty : Ty
deriving DecidableEq, Repr, Inhabited

namespace Atom

def var (name : String) (ty : Ty) : Atom := ⟨name, 0, ty⟩

def int (v : Int64) : Atom := ⟨"", v.toUInt64, .int⟩

def bool (b : Bool) : Atom := ⟨"", if b then 1 else 0, .bool⟩

def float (bits : UInt64) : Atom := ⟨"", bits, .float⟩

def isVar (x : Atom) : Bool := x.name ≠ ""

/-- A variable is written by its name, a literal by its value. -/
def text (x : Atom) : String :=
  if x.isVar then x.name
  else match x.ty with
    | .bool => if x.word = 0 then "false" else "true"
    | .float => Binary64.text x.word
    | _ => toString x.word.toInt64.toInt

end Atom

/-- Statements, and the values that statements bind. -/
inductive Expr where
  | atom (x : Atom)
  | bind (name : String) (init : Expr)
  | unary (op : UnOp) (x : Atom) (ty : Ty)
  | binary (op : BinOp) (l r : Atom) (ty : Ty)
  | branch (cond : Atom) (onTrue : List Expr) (onFalse : Option (List Expr))
  | missing
deriving Repr, Inhabited

abbrev Block := List Expr

mutual

/-- The type of an expression; none if it comes down to a missing one. -/
def Expr.ty? : Expr → Option Ty
  | .atom x => some x.ty
  | .bind _ init => init.ty?
  | .unary _ _ ty => some ty
  | .binary op _ _ ty => some (if op.isRelation then .bool else ty)
  | .branch _ onTrue _ => blockTy? onTrue
  | .missing => none

/-- The type of a block is that of its last statement, an empty one has type `int`. -/
def blockTy? : List Expr → Option Ty
  | [] => some .int
  | [x] => x.ty?
  | _ :: y :: xs => blockTy? (y :: xs)

end

structure Param where
  name : String
  ty : Ty
deriving DecidableEq, Repr, Inhabited

structure Func where
  name : String
  params : List Param
  body : Block
deriving Repr, Inhabited

/-- The type of the value that a function returns. -/
def Func.result? (f : Func) : Option Ty := blockTy? f.body

structure Program where
  funcs : List Func
deriving Repr, Inhabited

end ExprBackend
