import ExprBackend.Asm.Register

/-!
# Register pools

The registers that variables may be given. Some are kept back for the generated code itself:
the result and dividend, the remainder, the frame and the scratch registers.
-/

namespace ExprBackend

structure Pools where
  general : List Reg
  float : List XReg
deriving DecidableEq, Repr, Inhabited

/-- Holds a value on the way from memory to memory. -/
def Reg.backup : Reg := .r10

/-- Holds the result of an operation. -/
def Reg.scratch : Reg := .r11

/-- Holds the first operand of a float comparison. -/
def XReg.compareScratch : XReg := .xmm14

/-- Holds the result of a float operation. -/
def XReg.scratch : XReg := .xmm15

def Reg.reserved : List Reg := [.rax, .rdx, .backup, .scratch, .rsp, .rbp]

def XReg.reserved : List XReg := [.xmm0, .compareScratch, .scratch]

/-- Why a pool can not be used. -/
inductive PoolRefusal where
  | bad (name : String)
  | reserved (name : String)
  | twice (name : String)
deriving DecidableEq, Repr

def PoolRefusal.message : PoolRefusal → String
  | .bad name => "bad register " ++ name
  | .reserved name => name ++ " is reserved"
  | .twice name => name ++ " listed twice"

namespace Pools

/-- All registers that are not reserved. Those that a function need not save come first. -/
def all : Pools where
  general := [.rcx, .rsi, .rdi, .r8, .r9, .rbx, .r12, .r13, .r14, .r15]
  float := (List.range 13).map fun (i : Nat) => ⟨i + 1⟩

def shorten {α : Type} (xs : List α) (n : Int) : List α :=
  if 0 ≤ n then xs.take n.toNat else xs

/-- At most so many registers of each class. A negative limit is none. -/
def limit (p : Pools) (general float : Int) : Pools :=
  ⟨shorten p.general general, shorten p.float float⟩

def checkRegs (seen : List Reg) : List Reg → Except PoolRefusal Unit
  | [] => .ok ()
  | r :: rs =>
    if r.number < 0 ∨ 15 < r.number then .error (.bad r.name)
    else if r ∈ Reg.reserved then .error (.reserved r.name)
    else if r ∈ seen then .error (.twice r.name)
    else checkRegs (r :: seen) rs

def checkXRegs (seen : List XReg) : List XReg → Except PoolRefusal Unit
  | [] => .ok ()
  | r :: rs =>
    if r.number < 0 ∨ 15 < r.number then .error (.bad r.name)
    else if r ∈ XReg.reserved then .error (.reserved r.name)
    else if r ∈ seen then .error (.twice r.name)
    else checkXRegs (r :: seen) rs

/-- Refuses registers that do not exist, are reserved or stand in a pool twice. -/
def check (p : Pools) : Except PoolRefusal Unit := do
  checkRegs [] p.general
  checkXRegs [] p.float

end Pools

end ExprBackend
