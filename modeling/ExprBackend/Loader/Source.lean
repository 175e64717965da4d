import ExprBackend.Yaml.Tag

/-!
# Functions as they are written

What a source file says of each function, before names are looked up and types are checked.
Lines are counted from 1.
-/

namespace ExprBackend.Source

/-- An operand: a scalar with its tag, or something else that does not belong there. -/
inductive Operand where
  | scalar (line : Nat) (tag : Yaml.Tag) (text : String)
  | other (line : Nat)
deriving DecidableEq, Repr, Inhabited

/-- A statement with all its fields. Texts that are not given are empty. -/
structure Statement where
  name : String := ""
  ty : String := ""
  value : Option Operand := none
  op : String := ""
  args : List Operand := []
  cond : Option Operand := none
  onTrue : List Statement := []
  onFalse : Option (List Statement) := none
  line : Nat := 0
deriving Repr, Inhabited

structure Param where
  name : String := ""
  ty : String := ""
deriving DecidableEq, Repr, Inhabited

structure Func where
  name : String := ""
  params : List Param := []
  body : List Statement := []
deriving Repr, Inhabited

end ExprBackend.Source
