import ExprBackend.Asm.Instr
import ExprBackend.Expr.Basic
import ExprBackend.Text.Quoted

/-!
# Failures

Two things stop a pass of the compiler: a broken rule of its own, which is reported with the
function it happened in, and a fault, which ends the whole run.
-/

namespace ExprBackend

/-- A rule of the compiler that does not hold. -/
inductive Violation where
  | addedAfterRemoval (node : Nat)
  | removedAbsent (node : Nat)
  | neverRemoved (node : Nat)
  | boundTwice (name : String) (first second : Ty)
  | unknownVariable (name : String)
  | unnumberedExpr
  | unwalkedExpr
  | uncompiledExpr
  | noRegisterLeft (node neighbors pool : Nat)
  | noLocation (name : String)
  | usedBeforeDefinition (name : String)
  | mixedTypes (op : BinOp) (l r : Ty)
  | unsupportedBinary (op : BinOp) (ty : Ty)
  | unsupportedUnary (op : UnOp) (ty : Ty)
  | misplacedImmediate (value : Int64) (dst : Operand)
  | misplacedFloat (which : String) (operand : Operand)
deriving DecidableEq, Repr

def Violation.text : Violation → String
  | .addedAfterRemoval v => s!"node {v} added after removal"
  | .removedAbsent v => s!"remove of absent node {v}"
  | .neverRemoved v => s!"neighbours of node {v} requested but it was never removed"
  | .boundTwice x s t =>
    "variable " ++ Text.quoted x ++ " bound as " ++ s.name ++ " and " ++ t.name
  | .unknownVariable x => "unknown variable " ++ Text.quoted x
  | .unnumberedExpr => "unexpected expression <nil>"
  | .unwalkedExpr => "liveness: unexpected expression <nil>"
  | .uncompiledExpr => "codegen: unexpected expression <nil>"
  | .noRegisterLeft v n k =>
    s!"no register left for colorable node {v}: {n} neighbours colored, pool of {k}"
  | .noLocation x => "no location assigned to " ++ Text.quoted x
  | .usedBeforeDefinition x => "variable " ++ Text.quoted x ++ " used before its definition"
  | .mixedTypes op l r => "mixed operand types: " ++ l.name ++ " " ++ op.symbol ++ " " ++ r.name
  | .unsupportedBinary op ty =>
    "unsupported binary operator " ++ Text.quoted op.symbol ++ " on " ++ ty.name
  | .unsupportedUnary op ty =>
    "unsupported unary operator " ++ Text.quoted op.symbol ++ " on " ++ ty.name
  | .misplacedImmediate v dst =>
    "immediate " ++ toString v.toInt ++ " moved to " ++ dst.kind
  | .misplacedFloat which x =>
    which ++ " float operand must be in an xmm register or memory, got " ++ x.kind

def Violation.message (v : Violation) : String :=
  "invariant violated: " ++ v.text

/-- What a run cannot go on from. -/
inductive Fault where
  /-- An index that is negative or not below the size. -/
  | index (i : Int) (size : Nat)
  /-- More levels of indentation than there are. -/
  | indentation (depth size : Nat)
  | missingExpr
  /-- An operand or instruction that is not there was to be printed. -/
  | missingPart
  | negativeKey (key : Int)
  /-- A float literal as a factor of an integer product. -/
  | floatFactor
  /-- A location of a kind that does not exist. -/
  | unknownLocation
  /-- An operand, as it is shown, that has no lowest byte. -/
  | byteless (shown : String)
  /-- A collection of some kind as a key where only scalars may be. -/
  | collectionKey (kind : String)
deriving DecidableEq, Repr

def Fault.message : Fault → String
  | .index i size =>
    if i < 0 then s!"runtime error: index out of range [{i}]"
    else s!"runtime error: index out of range [{i}] with length {size}"
  | .indentation depth size =>
    s!"runtime error: slice bounds out of range [:{depth}] with length {size}"
  | .missingExpr => "runtime error: invalid memory address or nil pointer dereference"
  | .missingPart => "runtime error: panic called with nil argument"
  | .negativeKey k => toString k
  | .floatFactor => "interface conversion: asm.Operand is asm.FImm, not asm.Imm"
  | .unknownLocation => "kind?"
  | .byteless shown => shown
  | .collectionKey kind => "runtime error: hash of unhashable type " ++ kind

inductive Failure where
  | violation (v : Violation)
  | fault (f : Fault)
deriving DecidableEq, Repr

/-- The type of an expression whose parts are all there. -/
def Expr.ty (x : Expr) : Except Fault Ty :=
  match x.ty? with
  | some ty => .ok ty
  | none => .error .missingExpr

/-- The type that a function returns, if its last statement is there. -/
def Func.result (f : Func) : Except Fault Ty :=
  match f.result? with
  | some ty => .ok ty
  | none => .error .missingExpr

end ExprBackend
