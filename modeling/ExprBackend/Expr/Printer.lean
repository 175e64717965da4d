import ExprBackend.Failure

/-!
# Program text

Programs as text with one statement on a line, indented by a tab for each enclosing block. There
are tabs for fifteen levels.
-/

namespace ExprBackend

/-- What has no text. -/
inductive Unprintable where
  | boundValue (name : String)
  | unsupportedExpr
  | unsupportedValue
deriving DecidableEq, Repr

/-- A part of a program that is being printed. -/
inductive Place where
  | func (name : String)
  | body
  | onTrue
  | onFalse
deriving DecidableEq, Repr

inductive PrintError where
  /-- Outermost place first. -/
  | refused (places : List Place) (cause : Unprintable)
  | fault (f : Fault)
deriving DecidableEq, Repr

def Unprintable.message : Unprintable → String
  | .boundValue name => "let " ++ name ++ " used as a value"
  | .unsupportedExpr => "unsupported expr: <nil>"
  | .unsupportedValue => "unsupported type: int"

def Place.message : Place → String
  | .func name => "func " ++ name
  | .body => "body"
  | .onTrue => "then block"
  | .onFalse => "else block"

/-- The places from the outside in, then the cause. -/
def PrintError.message : PrintError → String
  | .refused places cause => ": ".intercalate (places.map Place.message ++ [cause.message])
  | .fault f => f.message

namespace Printer

def maxDepth : Nat := 15

def indent (depth : Nat) : Except PrintError String :=
  if depth ≤ maxDepth then .ok (String.ofList (List.replicate depth '\t'))
  else .error (.fault (.indentation depth maxDepth))

/-- Notes the place that a refusal comes from. -/
def within {α : Type} (place : Place) : Except PrintError α → Except PrintError α
  | .error (.refused places cause) => .error (.refused (place :: places) cause)
  | r => r

/-- The type that a binding shows. -/
def shownTy (ty : Option Ty) : Except PrintError String :=
  match ty with
  | some ty => .ok ty.name
  | none => .error (.fault .missingExpr)

mutual

/-- An expression at a depth, without the indentation in front of it. -/
def exprText (depth : Nat) : Expr → Except PrintError String
  | .atom x => .ok x.text
  | .unary op x _ => .ok (op.symbol ++ x.text)
  | .binary op l r _ => .ok (l.text ++ " " ++ op.symbol ++ " " ++ r.text)
  | .bind name _ => .error (.refused [] (.boundValue name))
  | .branch cond onTrue onFalse => do
    let first ← within .onTrue (blockText (depth + 1) onTrue)
    let tabs ← indent depth
    let start := "if " ++ cond.text ++ " \x7b\n" ++ first ++ tabs ++ "\x7d"
    match onFalse with
    | none => return start
    | some b =>
      let second ← within .onFalse (blockText (depth + 1) b)
      return start ++ " else \x7b\n" ++ second ++ tabs ++ "\x7d"
  | .missing => .error (.refused [] .unsupportedExpr)

/-- The lines of a block. A binding shows its name and type in front of its value. -/
def blockText (depth : Nat) : List Expr → Except PrintError String
  | [] => .ok ""
  | .bind name init :: xs => do
    let tabs ← indent depth
    let ty ← shownTy init.ty?
    let value ← exprText depth init
    return tabs ++ "let " ++ name ++ ": " ++ ty ++ " = " ++ value ++ "\n" ++
      (← blockText depth xs)
  | x :: xs => do
    let tabs ← indent depth
    let line ← exprText depth x
    return tabs ++ line ++ "\n" ++ (← blockText depth xs)

end

end Printer

open Printer

/-- A statement on a line of its own. -/
def Expr.render (x : Expr) : Except PrintError String := do
  return (← exprText 0 x) ++ "\n"

def Block.render (b : List Expr) : Except PrintError String := blockText 0 b

def Param.text (p : Param) : String := p.name ++ " " ++ p.ty.name

def Func.render (f : Func) : Except PrintError String := do
  let ty ← shownTy f.result?
  let body ← within .body (blockText 1 f.body)
  return "func " ++ f.name ++ "(" ++ ", ".intercalate (f.params.map Param.text) ++ ") " ++ ty ++
    " \x7b\n" ++ body ++ "\x7d\n"

/-- Functions with an empty line between them. -/
def Program.render (p : Program) : Except PrintError String := do
  return "\n".intercalate (← p.funcs.mapM fun f => within (.func f.name) f.render)

end ExprBackend
