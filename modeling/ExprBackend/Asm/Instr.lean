import ExprBackend.Asm.Register

/-!
# Instructions

Operands and instructions of the target machine, in the order destination, source. Where a
program put together by hand may lack a part, `absent` stands for it.
-/

namespace ExprBackend

/-- A word of memory at a register plus an offset. -/
structure Mem where
  base : Reg
  offset : Int32
deriving DecidableEq, Repr, Inhabited

/-- The word at an offset from the frame pointer. -/
def Mem.slot (offset : Int) : Mem := ⟨.rbp, Int32.ofInt offset⟩

inductive Operand where
  | reg (r : Reg)
  | xreg (r : XReg)
  | imm (value : Int64)
  | fimm (bits : UInt64)
  | mem (m : Mem)
  | absent
deriving DecidableEq, Repr, Inhabited

namespace Operand

def isMem : Operand → Bool
  | .mem _ => true
  | _ => false

def isXReg : Operand → Bool
  | .xreg _ => true
  | _ => false

/-- Integer and float immediates. -/
def isImm : Operand → Bool
  | .imm _ | .fimm _ => true
  | _ => false

/-- The word for the kind of an operand in messages. -/
def kind : Operand → String
  | .reg _ => "asm.Reg"
  | .xreg _ => "asm.XReg"
  | .imm _ => "asm.Imm"
  | .fimm _ => "asm.FImm"
  | .mem _ => "asm.Mem"
  | .absent => "<nil>"

end Operand

/-- Whether a value fits the 32 bits of a sign-extended immediate. -/
def fitsImm32 (v : Int64) : Bool :=
  -2147483648 ≤ v ∧ v ≤ 2147483647

/-- What a comparison left behind. `other` is a suffix without a meaning. -/
inductive Cond where
  | e
  | ne
  | l
  | le
  | g
  | ge
  | other (suffix : String)
deriving DecidableEq, Repr, Inhabited

namespace Cond

def ofSuffix : String → Cond
  | "e" => .e
  | "ne" => .ne
  | "l" => .l
  | "le" => .le
  | "g" => .g
  | "ge" => .ge
  | s => .other s

def suffix : Cond → String
  | .e => "e"
  | .ne => "ne"
  | .l => "l"
  | .le => "le"
  | .g => "g"
  | .ge => "ge"
  | .other s => s

/-- The condition that holds once the compared operands are exchanged. -/
def swap : Cond → Cond
  | .l => .g
  | .le => .ge
  | .g => .l
  | .ge => .le
  | c => c

end Cond

/-- Arithmetic on floats. `other` is a mnemonic without a meaning. -/
inductive FloatOp where
  | add
  | sub
  | mul
  | div
  | other (mnemonic : String)
deriving DecidableEq, Repr, Inhabited

namespace FloatOp

def ofMnemonic : String → FloatOp
  | "addsd" => .add
  | "subsd" => .sub
  | "mulsd" => .mul
  | "divsd" => .div
  | s => .other s

def mnemonic : FloatOp → String
  | .add => "addsd"
  | .sub => "subsd"
  | .mul => "mulsd"
  | .div => "divsd"
  | .other s => s

end FloatOp

/-- Predicates of a float comparison. The last two are the negations of `lt` and `le`, so they
hold of a not-a-number. `other` is a code without a meaning. -/
inductive Predicate where
  | eq
  | lt
  | le
  | neq
  | notLt
  | notLe
  | other (code : Int)
deriving DecidableEq, Repr, Inhabited

namespace Predicate

def ofCode : Int → Predicate
  | 0 => .eq
  | 1 => .lt
  | 2 => .le
  | 4 => .neq
  | 5 => .notLt
  | 6 => .notLe
  | n => .other n

def code : Predicate → Int
  | .eq => 0
  | .lt => 1
  | .le => 2
  | .neq => 4
  | .notLt => 5
  | .notLe => 6
  | .other n => n

end Predicate

inductive Instr where
  | text
  | global (name : String)
  | label (name : String)
  | mov (dst src : Operand)
  /-- A float between float registers and memory. -/
  | movsd (dst src : Operand)
  /-- A word between a float register and a general register or memory. -/
  | movq (dst src : Operand)
  | add (dst src : Operand)
  | sub (dst src : Operand)
  | and (dst src : Operand)
  | imul (dst : Reg) (src : Operand)
  | imul3 (dst : Reg) (src : Operand) (factor : Int64)
  /-- The sign of `rax` into every bit of `rdx`. -/
  | cqo
  /-- `rdx:rax` by the source: quotient in `rax`, remainder in `rdx`. -/
  | idiv (src : Operand)
  | neg (dst : Operand)
  | cmp (l r : Operand)
  /-- The lowest byte of the destination from the flags. -/
  | set (cond : Cond) (dst : Operand)
  | farith (op : FloatOp) (dst : XReg) (src : Operand)
  /-- All bits of the destination from a float comparison. -/
  | cmpsd (dst : XReg) (src : Operand) (pred : Predicate)
  | jmp (target : String)
  | jcc (cond : Cond) (target : String)
  | push (src : Reg)
  | pop (dst : Reg)
  | ret
  | absent
deriving DecidableEq, Repr, Inhabited

/-- The word for the kind of an instruction in messages. -/
def Instr.kind : Instr → String
  | .text => "asm.Text"
  | .global _ => "asm.Global"
  | .label _ => "asm.Label"
  | .mov _ _ => "asm.Mov"
  | .movsd _ _ => "asm.Movsd"
  | .movq _ _ => "asm.Movq"
  | .add _ _ => "asm.Add"
  | .sub _ _ => "asm.Sub"
  | .and _ _ => "asm.And"
  | .imul _ _ => "asm.IMul"
  | .imul3 _ _ _ => "asm.IMul3"
  | .cqo => "asm.Cqo"
  | .idiv _ => "asm.IDiv"
  | .neg _ => "asm.Neg"
  | .cmp _ _ => "asm.Cmp"
  | .set _ _ => "asm.Set"
  | .farith _ _ _ => "asm.FArith"
  | .cmpsd _ _ _ => "asm.Cmpsd"
  | .jmp _ => "asm.Jmp"
  | .jcc _ _ => "asm.Jcc"
  | .push _ => "asm.Push"
  | .pop _ => "asm.Pop"
  | .ret => "asm.Ret"
  | .absent => "<nil>"

end ExprBackend
