import ExprBackend.Allocation.Pools
import ExprBackend.Failure

/-!
# Lowering operations

Instructions for moves and for operations on operands in any storage. The destination may be one
of the operands: results are built in scratch registers where that matters.
-/

namespace ExprBackend.Codegen

abbrev Gen := Except Failure

def violate {α : Type} (v : Violation) : Gen α := .error (.violation v)

def backup : Operand := .reg .backup

def scratch : Operand := .reg .scratch

/-- A move between registers and memory. -/
def transfer (dst src : Operand) : List Instr :=
  if dst.isMem && src.isMem then [.mov backup src, .mov dst backup]
  else if dst.isXReg && src.isXReg || dst.isXReg && src.isMem || src.isXReg && dst.isMem then
    [.movsd dst src]
  else if dst.isXReg || src.isXReg then [.movq dst src]
  else [.mov dst src]

/-- Copies the source to the destination. What one instruction can not do goes through the backup
register. -/
def move (dst src : Operand) : Gen (List Instr) :=
  if dst = src then return []
  else match src with
    | .fimm bits =>
      return .mov backup (.imm bits.toInt64) :: (if dst = backup then [] else transfer dst backup)
    | .imm v =>
      match dst with
      | .reg _ => return [.mov dst src]
      | .mem _ =>
        if fitsImm32 v then return [.mov dst src]
        else return [.mov backup src, .mov dst backup]
      | _ => violate (.misplacedImmediate v dst)
    | _ => return transfer dst src

/-- A move to a destination that may not be wanted. -/
def deliver (dst : Option Operand) (src : Operand) : Gen (List Instr) :=
  match dst with
  | none => return []
  | some dst => move dst src

/-- A source for an instruction that takes immediates of 32 bits, and what has to come before. -/
def narrow (x : Operand) : List Instr × Operand :=
  match x with
  | .imm v => if fitsImm32 v then ([], x) else ([.mov backup x], backup)
  | _ => ([], x)

/-- An immediate is put into the scratch register. -/
def unimm (x : Operand) : List Instr × Operand :=
  if x.isImm then ([.mov scratch x], scratch) else ([], x)

/-- The flags as 0 or 1. A move leaves the flags alone, so that the destination may be one of the
operands that were compared. -/
def setCond (c : Cond) (dst : Operand) : List Instr :=
  [.mov dst (.imm 0), .set c dst]

/-- An operation in the scratch register. -/
def viaScratch (op : Operand → Operand → Instr) (l r dst : Operand) : Gen (List Instr) := do
  let (before, r) := narrow r
  return .mov scratch l :: before ++ op scratch r :: (← move dst scratch)

def multiply (l r dst : Operand) : Gen (List Instr) :=
  let (l, r) := if l.isImm && !r.isImm then (r, l) else (l, r)
  let general := viaScratch (fun _ src => .imul .scratch src) l r dst
  match dst with
  | .reg d =>
    if l.isImm then general
    else match r with
      | .imm v => if fitsImm32 v then return [.imul3 d l v] else general
      | .fimm _ => .error (.fault .floatFactor)
      | _ => general
  | _ => general

/-- A quotient or remainder, which the machine leaves in `result`. -/
def divide (result : Reg) (l r dst : Operand) : Gen (List Instr) := do
  let (before, r) := unimm r
  return .mov (.reg .rax) l :: .cqo :: before ++ .idiv r :: (← move dst (.reg result))

/-- A comparison of integers. The first operand is no immediate, and not both are memory. -/
def compare (c : Cond) (l r dst : Operand) : Gen (List Instr) :=
  let (first, l) :=
    if l.isImm || l.isMem && r.isMem then ([.mov scratch l], scratch) else ([], l)
  let (before, r) := narrow r
  return first ++ before ++ .cmp l r :: setCond c dst

/-- Equality of operands of which either may be an immediate. -/
def compareEq (c : Cond) (l r dst : Operand) : Gen (List Instr) :=
  if l.isImm && !r.isImm then compare c r l dst else compare c l r dst

def intBinary (op : BinOp) (ty : Ty) (l r dst : Operand) : Gen (List Instr) :=
  match op with
  | .plus => viaScratch .add l r dst
  | .minus => viaScratch .sub l r dst
  | .times => multiply l r dst
  | .div => divide .rax l r dst
  | .mod => divide .rdx l r dst
  | .less => compare .l l r dst
  | .lessEq => compare .le l r dst
  | .greater => compare .l r l dst
  | .greaterEq => compare .le r l dst
  | .eq => compareEq .e l r dst
  | .notEq => compareEq .ne l r dst
  | .other _ => violate (.unsupportedBinary op ty)

/-- Float instructions take registers and memory only. -/
def floatOperand (which : String) (x : Operand) : Gen Operand :=
  match x with
  | .xreg _ | .mem _ => return x
  | _ => violate (.misplacedFloat which x)

def floatOp? : BinOp → Option FloatOp
  | .plus => some .add
  | .minus => some .sub
  | .times => some .mul
  | .div => some .div
  | _ => none

/-- Greater is the negation of less or equal, and so on. -/
def predicate? : BinOp → Option Predicate
  | .eq => some .eq
  | .less => some .lt
  | .lessEq => some .le
  | .notEq => some .neq
  | .greaterEq => some .notLt
  | .greater => some .notLe
  | _ => none

def floatCompare (pred : Predicate) (l r dst : Operand) : Gen (List Instr) := do
  let first := .xreg .compareScratch
  let (before, r) :=
    if r.isMem then ([.movsd (.xreg .scratch) r], .xreg .scratch) else ([], r)
  return .movsd first l :: before ++ .cmpsd .compareScratch r pred :: (← move dst first) ++
    [.and dst (.imm 1)]

def floatBinary (op : BinOp) (ty : Ty) (l r dst : Operand) : Gen (List Instr) := do
  match floatOp? op with
  | some fop =>
    return .movsd (.xreg .scratch) l :: .farith fop .scratch r :: (← move dst (.xreg .scratch))
  | none =>
    match predicate? op with
    | some pred => floatCompare pred l r dst
    | none => violate (.unsupportedBinary op ty)

/-- The bits of minus one. -/
def minusOne : UInt64 := 0xbff0000000000000

def unary (op : UnOp) (ty : Ty) (x dst : Operand) : Gen (List Instr) := do
  match op with
  | .not =>
    if ty = .float then violate (.unsupportedUnary op ty)
    else
      let (before, x) := unimm x
      return before ++ .cmp x (.imm 0) :: setCond .e dst
  | .neg =>
    if ty = .float then
      let x ← floatOperand "negated" x
      return (← move (.xreg .scratch) (.fimm minusOne)) ++ .farith .mul .scratch x ::
        (← move dst (.xreg .scratch))
    else return (← move dst x) ++ [.neg dst]
  | .other _ => violate (.unsupportedUnary op ty)

end ExprBackend.Codegen
