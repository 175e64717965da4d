import ExprBackend.Failure
import ExprBackend.Text.Quoted
import Std.Data.TreeMap

/-!
# The machine

Sixteen general registers, sixteen float registers of one float each, words of memory by address
and what the last comparison left. All words are 64 bits, a float being its bits.
-/

namespace ExprBackend

/-- What a comparison found of its operands as signed numbers. -/
structure Flags where
  eq : Bool
  lt : Bool
deriving DecidableEq, Repr, Inhabited

structure Machine where
  r : Vector UInt64 16 := Vector.replicate 16 0
  x : Vector UInt64 16 := Vector.replicate 16 0
  /-- Every word that was ever written. All others are 0. -/
  mem : Std.TreeMap Int64 UInt64 := {}
  /-- There are none before the first comparison. -/
  flags : Option Flags := none

/-- Why an instruction can not be encoded. -/
inductive Illegal where
  | destination (x : Operand)
  | source (x : Operand)
  | memoryToMemory
  | wideImmediate (v : Int64)
  | factorImmediate
  | divisorImmediate
  | comparedImmediate
  | noFloatRegister
  | notOneFloatRegister
  | floatSource (op : FloatOp) (x : Operand)
  | compareSource (x : Operand)
  | read (x : Operand)
  | write (x : Operand)
  | unsupported (x : Instr)
deriving DecidableEq, Repr

def Illegal.message : Illegal → String
  | .destination x => "destination " ++ x.kind
  | .source x => "source " ++ x.kind
  | .memoryToMemory => "memory to memory"
  | .wideImmediate v => "64-bit immediate " ++ toString v.toInt
  | .factorImmediate => "imul source is immediate"
  | .divisorImmediate => "idiv by immediate"
  | .comparedImmediate => "cmp with immediate first operand"
  | .noFloatRegister => "movsd without xmm operand"
  | .notOneFloatRegister => "movq needs exactly one xmm operand"
  | .floatSource op x => op.mnemonic ++ " source " ++ x.kind
  | .compareSource x => "cmpsd source " ++ x.kind
  | .read x => "read " ++ x.kind
  | .write x => "write " ++ x.kind
  | .unsupported x => "unsupported " ++ x.kind

/-- Why an instruction does not complete. -/
inductive Trap where
  | illegal (why : Illegal)
  | divisionByZero
  | wideDividend
  | noFlags
  | unknownCond (c : Cond)
  | unknownFloatOp (op : FloatOp)
  | unknownPredicate (p : Predicate)
  | unalignedRead (address : Int64)
  | unalignedWrite (address : Int64)
  | noLabel (name : String)
  | fault (f : Fault)
deriving DecidableEq, Repr

def Trap.message : Trap → String
  | .illegal why => why.message ++ ": illegal instruction"
  | .divisionByZero => "division by zero"
  | .wideDividend => "rdx is not the sign extension of rax"
  | .noFlags => "flags used before cmp"
  | .unknownCond c => "unknown condition " ++ Text.quoted c.suffix
  | .unknownFloatOp op => "unknown float op " ++ Text.quoted op.mnemonic
  | .unknownPredicate p => "unknown predicate " ++ toString p.code
  | .unalignedRead a => "unaligned read at " ++ Text.signedHex a.toInt
  | .unalignedWrite a => "unaligned write at " ++ Text.signedHex a.toInt
  | .noLabel name => "no label " ++ name
  | .fault f => f.message

namespace Machine

/-- Steps that may trap. What was done before a trap stays done. -/
abbrev Exec := EStateM Trap Machine

/-- A register number, which has to be one of the sixteen. -/
def registerIndex (number : Int) : Exec (Fin 16) :=
  match registerIndex? number with
  | some i => return i
  | none => throw (.fault (.index number 16))

def getReg (r : Reg) : Exec UInt64 := do
  let i ← registerIndex r.number
  return (← get).r.get i

def setReg (r : Reg) (w : UInt64) : Exec Unit := do
  let i ← registerIndex r.number
  modify fun m => { m with r := m.r.setIfInBounds i w }

def getXReg (r : XReg) : Exec UInt64 := do
  let i ← registerIndex r.number
  return (← get).x.get i

def setXReg (r : XReg) (w : UInt64) : Exec Unit := do
  let i ← registerIndex r.number
  modify fun m => { m with x := m.x.setIfInBounds i w }

def load (m : Machine) (address : Int64) : UInt64 := m.mem.getD address 0

def store (m : Machine) (address : Int64) (w : UInt64) : Machine :=
  { m with mem := m.mem.insert address w }

/-- The address that a memory operand stands for. -/
def address (x : Mem) : Exec Int64 := do
  return (← getReg x.base).toInt64 + x.offset.toInt64

/-- Words stand at multiples of eight. -/
def aligned (a : Int64) : Bool := a % 8 = 0

def read : Operand → Exec UInt64
  | .reg r => getReg r
  | .xreg r => getXReg r
  | .imm v => return v.toUInt64
  | .mem x => do
    let a ← address x
    if aligned a then return (← get).load a else throw (.unalignedRead a)
  | x => throw (.illegal (.read x))

def write (x : Operand) (w : UInt64) : Exec Unit :=
  match x with
  | .reg r => setReg r w
  | .xreg r => setXReg r w
  | .mem x => do
    let a ← address x
    if aligned a then modify (store · a w) else throw (.unalignedWrite a)
  | x => throw (.illegal (.write x))

/-- The word that the stack pointer is to be. -/
def push (w : UInt64) : Exec Unit := do
  let top := (← getReg .rsp) - 8
  setReg .rsp top
  modify (store · top.toInt64 w)

def pop : Exec UInt64 := do
  let top ← getReg .rsp
  setReg .rsp (top + 8)
  return (← get).load top.toInt64

end Machine

end ExprBackend
