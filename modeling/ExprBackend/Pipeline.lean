import ExprBackend.Allocation.Assign
import ExprBackend.Asm.Printer
import ExprBackend.Codegen.Function
import ExprBackend.Expr.Printer

/-!
# From programs to assembly

Every function is compiled on its own: numbering of variables, conflicts, locations, code. A
program is compiled by workers that each take a range of its functions. Failures are collected
from all functions; a fault ends the whole run, otherwise the first failure counts.
-/

namespace ExprBackend

structure Options where
  pools : Pools := .all
  workers : Int := 1
  /-- Whether each function is also printed, so that it has to be printable. -/
  dumpExprs : Bool := false

/-- A compiled function. -/
structure CompiledUnit where
  func : Func
  assignment : Assignment
  code : List Instr
deriving Repr

/-- Why a function has no code. -/
inductive CompileError where
  | pools (why : PoolRefusal)
  | unprintable (places : List Place) (cause : Unprintable)
  | violation (func : String) (v : Violation)
  | unnamed
  | fault (f : Fault)
deriving DecidableEq, Repr

namespace CompileError

def ofFailure (func : String) : Failure → CompileError
  | .violation v => .violation func v
  | .fault f => .fault f

def ofPrintError : PrintError → CompileError
  | .refused places cause => .unprintable places cause
  | .fault f => .fault f

def message : CompileError → String
  | .pools why => "register pools: " ++ why.message
  | .unprintable places cause => "format: " ++ (PrintError.refused places cause).message
  | .violation func v => "func " ++ func ++ ": " ++ v.message
  | .unnamed => "codegen: function without a name"
  | .fault f => f.message

def isFault : CompileError → Bool
  | .fault _ => true
  | _ => false

end CompileError

/-- Locations for the variables of a function. Its parameters are live to its end. -/
def Func.assignment (f : Func) (pools : Pools) : Except Failure Assignment := do
  let vars ← Variables.ofFunc f
  let params ← f.params.mapM fun p => vars.number p.name
  let conflicts ← Conflicts.ofBlock vars f.body params
  conflicts.assign vars pools

def Func.compile (opts : Options) (f : Func) : Except CompileError CompiledUnit := do
  opts.pools.check.mapError .pools
  if opts.dumpExprs then discard (f.render.mapError .ofPrintError)
  let assignment ← (f.assignment opts.pools).mapError (.ofFailure f.name)
  match f.code assignment with
  | .ok code => return ⟨f, assignment, code⟩
  | .error .unnamed => throw .unnamed
  | .error (.failure e) => throw (.ofFailure f.name e)

/-- Consecutive ranges, as start and end, for so many workers. Each has `n` functions and the
first `rest` of them one more. -/
def workerRanges (n : Nat) : (rest workers start : Nat) → List (Nat × Nat)
  | _, 0, _ => []
  | 0, t + 1, start => (start, start + n) :: workerRanges n 0 t (start + n)
  | rest + 1, t + 1, start => (start, start + n + 1) :: workerRanges n rest t (start + n + 1)

/-- The ranges of a list of functions. There are no more workers than functions. -/
def rangesOf (workers : Int) (size : Nat) : List (Nat × Nat) :=
  let t := min workers.toNat size
  if t ≤ 1 then [(0, size)] else workerRanges (size / t) (size % t) t 0

/-- The outcomes of a range of functions. -/
def compileRange (opts : Options) (funcs : List Func) (range : Nat × Nat) :
    List (Except CompileError CompiledUnit) :=
  ((funcs.take range.2).drop range.1).map (Func.compile opts)

/-- The first fault, else the first failure, else all units. -/
def gather (outcomes : List (Except CompileError CompiledUnit)) :
    Except CompileError (List CompiledUnit) :=
  let isFault : Except CompileError CompiledUnit → Bool
    | .error e => e.isFault
    | .ok _ => false
  match outcomes.find? isFault with
  | some (.error e) => .error e
  | _ => outcomes.mapM id

def Program.compile (opts : Options) (p : Program) : Except CompileError (List CompiledUnit) :=
  gather ((rangesOf opts.workers p.funcs.length).flatMap (compileRange opts p.funcs))

/-- Assembly source of a program. -/
def assemble (units : List CompiledUnit) : Except Fault String := do
  let texts ← units.mapM fun u => Instr.renderAll u.code
  return ".intel_syntax noprefix\n" ++ String.join (texts.map ("\n" ++ ·))

/-- Whether a selection of trace topics asks for the dump of every function. -/
def selectsDump (verbosity : String) : Bool :=
  (verbosity.splitOn ",").any fun t => t = "dump_ir" || t = "*"

end ExprBackend
