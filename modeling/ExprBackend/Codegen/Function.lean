import ExprBackend.Allocation.Location
import ExprBackend.Codegen.Lowering

/-!
# Code of a function

The value of the last statement of a block goes to the destination of the block, other statements
only matter for the names they bind. Variables without a register have a word of the frame, handed
out downward from the frame pointer.
-/

namespace ExprBackend

/-- The slots that are in use. -/
structure Slots where
  used : Nat := 0
deriving DecidableEq, Repr

namespace Slots

/-- The offset of the slot in use that is furthest down. -/
def offset (s : Slots) : Int := -(8 * s.used)

/-- One more slot. -/
def next (s : Slots) : Slots := ⟨s.used + 1⟩

/-- The size of a frame with all the slots, a multiple of 16. -/
def frameSize (s : Slots) : Nat := (8 * s.used + 15) / 16 * 16

end Slots

/-- The word in which the caller passes an argument. -/
def argumentSlot (i : Nat) : Mem := .slot (16 + 8 * i)

namespace Codegen

/-- Where the names in scope are held, the latest binding first. -/
abbrev Scope := List (String × Operand)

def Scope.find (scope : Scope) (name : String) : Gen Operand :=
  match List.lookup name scope with
  | some x => return x
  | none => violate (.usedBeforeDefinition name)

/-- A variable where it is held, a literal as an immediate. -/
def Scope.operand (scope : Scope) (x : Atom) : Gen Operand :=
  if x.isVar then scope.find x.name
  else if x.ty = .float then return .fimm x.word
  else return .imm x.word.toInt64

/-- What is handed out in the course of a function. -/
structure Supply where
  slots : Slots := {}
  /-- The number of conditions so far. -/
  branches : Nat := 0
deriving DecidableEq, Repr

abbrev Emit := StateT Supply Gen

/-- Storage for a new binding; none if the name is never read. -/
def location (asg : Assignment) (name : String) : Emit (Option Operand) := do
  match asg.find? name with
  | none => throw (.violation (.noLocation name))
  | some .none => return none
  | some (.reg r) => return some (.reg r)
  | some (.xreg r) => return some (.xreg r)
  | some .spill =>
    modify fun s => { s with slots := s.slots.next }
    return some (.mem (.slot (← get).slots.offset))
  | some (.other _) => throw (.fault .unknownLocation)

def elseLabel (func : String) (n : Nat) : String := ".L" ++ func ++ "_else" ++ toString n

def endLabel (func : String) (n : Nat) : String := ".L" ++ func ++ "_end" ++ toString n

/-- The number of the next condition. -/
def nextBranch : Emit Nat := do
  let n := (← get).branches
  modify fun s => { s with branches := n + 1 }
  return n

def binary (scope : Scope) (op : BinOp) (l r : Atom) (ty : Ty) (dst : Operand) :
    Gen (List Instr) := do
  if l.ty ≠ r.ty then violate (.mixedTypes op l.ty r.ty)
  else if ty = .float then
    let first ← floatOperand "first" (← scope.operand l)
    let second ← floatOperand "second" (← scope.operand r)
    floatBinary op l.ty first second dst
  else
    let first ← scope.operand l
    let second ← scope.operand r
    intBinary op l.ty first second dst

mutual

/-- The code of a statement and the scope after it. An operation whose value is not wanted has no
code. -/
def statement (func : String) (asg : Assignment) :
    Expr → Scope → Option Operand → Emit (List Instr × Scope)
  | .atom x, scope, dst => do
    let src ← scope.operand x
    return (← deliver dst src, scope)
  | .bind name init, scope, dst => do
    match ← location asg name with
    | none => statement func asg init scope dst
    | some place =>
      let (code, scope) ← statement func asg init scope (some place)
      return (code ++ (← deliver dst place), (name, place) :: scope)
  | .unary op x ty, scope, dst => do
    match dst with
    | none => return ([], scope)
    | some dst => return (← unary op ty (← scope.operand x) dst, scope)
  | .binary op l r ty, scope, dst => do
    match dst with
    | none => return ([], scope)
    | some dst => return (← binary scope op l r ty dst, scope)
  | .branch cond onTrue onFalse, scope, dst => do
    match dst with
    | none => return ([], scope)
    | some dst =>
      let n ← nextBranch
      let (before, c) := unimm (← scope.operand cond)
      let first ← block func asg onTrue scope (some dst)
      let second ← match onFalse with
        | some b => block func asg b scope (some dst)
        | none => pure []
      return (before ++ .cmp c (.imm 0) :: .jcc .e (elseLabel func n) :: first ++
        .jmp (endLabel func n) :: .label (elseLabel func n) :: second ++
        [.label (endLabel func n)], scope)
  | .missing, _, _ => throw (.violation .uncompiledExpr)

/-- The code of a block. What it binds is not in scope behind it. -/
def block (func : String) (asg : Assignment) :
    List Expr → Scope → Option Operand → Emit (List Instr)
  | [], _, _ => return []
  | [x], scope, dst => do return (← statement func asg x scope dst).1
  | x :: y :: xs, scope, dst => do
    let (code, scope) ← statement func asg x scope none
    return code ++ (← block func asg (y :: xs) scope dst)

end

/-- Where a parameter is held. One without a register stays where the caller put it. -/
def paramPlace (asg : Assignment) (i : Nat) (name : String) : Gen Operand :=
  match asg.find? name with
  | some (.reg r) => return .reg r
  | some (.xreg r) => return .xreg r
  | some (.other _) => .error (.fault .unknownLocation)
  | _ => return .mem (argumentSlot i)

/-- Loads the parameters from the `i`-th one on and puts them into scope. -/
def loadParams (asg : Assignment) : Nat → List Param → Scope → Gen (List Instr × Scope)
  | _, [], scope => return ([], scope)
  | i, p :: ps, scope => do
    let place ← paramPlace asg i p.name
    let first ← move place (.mem (argumentSlot i))
    let (code, scope) ← loadParams asg (i + 1) ps ((p.name, place) :: scope)
    return (first ++ code, scope)

/-- Where a function leaves a value of a type. -/
def resultPlace (ty : Ty) : Operand := if ty = .float then .xreg .xmm0 else .reg .rax

/-- The registers in use that have to be handed back unchanged. -/
def savedRegs (asg : Assignment) : List Reg :=
  Reg.calleeSaved.filter fun r => asg.any (·.2 = .reg r)

def prologue (name : String) (frame : Nat) (saved : List Reg) : List Instr :=
  [.text, .global name, .label name, .push .rbp, .mov (.reg .rbp) (.reg .rsp)] ++
    (if frame = 0 then [] else [.sub (.reg .rsp) (.imm (Int64.ofNat frame))]) ++ saved.map .push

def epilogue (saved : List Reg) : List Instr :=
  saved.reverse.map .pop ++ [.mov (.reg .rsp) (.reg .rbp), .pop .rbp, .ret]

end Codegen

inductive CodegenError where
  | unnamed
  | failure (f : Failure)
deriving DecidableEq, Repr

open Codegen in
/-- Parameters and body, and what they took from the supply. -/
def Func.bodyCode (f : Func) (asg : Assignment) : Except Failure (List Instr × Supply) := do
  let (load, scope) ← loadParams asg 0 f.params []
  match f.result with
  | .error e => throw (.fault e)
  | .ok ty =>
    let (code, supply) ← (block f.name asg f.body scope (some (resultPlace ty))).run {}
    return (load ++ code, supply)

open Codegen in
/-- The code of a function whose variables have the given locations. -/
def Func.code (f : Func) (asg : Assignment) : Except CodegenError (List Instr) :=
  if f.name = "" then .error .unnamed
  else match f.bodyCode asg with
    | .error e => .error (.failure e)
    | .ok (body, supply) =>
      let saved := savedRegs asg
      .ok (prologue f.name supply.slots.frameSize saved ++ body ++ epilogue saved)

end ExprBackend
