/-!
# Registers

General and float registers by number. Sixteen numbers of each kind have a register, a program
put together by hand may hold any other number.
-/

namespace ExprBackend

/-- A general register. -/
structure Reg where
  number : Int
deriving DecidableEq, Repr, Inhabited

/-- A float register. -/
structure XReg where
  number : Int
deriving DecidableEq, Repr, Inhabited

/-- The register that a number stands for. -/
def registerIndex? (number : Int) : Option (Fin 16) :=
  if h : 0 ≤ number ∧ number < 16 then some ⟨number.toNat, by omega⟩ else none

namespace Reg

def rax : Reg := ⟨0⟩
def rcx : Reg := ⟨1⟩
def rdx : Reg := ⟨2⟩
def rbx : Reg := ⟨3⟩
def rsp : Reg := ⟨4⟩
def rbp : Reg := ⟨5⟩
def rsi : Reg := ⟨6⟩
def rdi : Reg := ⟨7⟩
def r8 : Reg := ⟨8⟩
def r9 : Reg := ⟨9⟩
def r10 : Reg := ⟨10⟩
def r11 : Reg := ⟨11⟩
def r12 : Reg := ⟨12⟩
def r13 : Reg := ⟨13⟩
def r14 : Reg := ⟨14⟩
def r15 : Reg := ⟨15⟩

/-- Registers whose value a function hands back unchanged, in the order they are saved. -/
def calleeSaved : List Reg := [rbx, r12, r13, r14, r15]

def names : Vector String 16 :=
  #v["rax", "rcx", "rdx", "rbx", "rsp", "rbp", "rsi", "rdi",
    "r8", "r9", "r10", "r11", "r12", "r13", "r14", "r15"]

def byteNames : Vector String 16 :=
  #v["al", "cl", "dl", "bl", "spl", "bpl", "sil", "dil",
    "r8b", "r9b", "r10b", "r11b", "r12b", "r13b", "r14b", "r15b"]

def name (r : Reg) : String :=
  match registerIndex? r.number with
  | some i => names[i]
  | none => "reg(" ++ toString r.number ++ ")"

/-- The name of the lowest eight bits. -/
def byteName (r : Reg) : String :=
  match registerIndex? r.number with
  | some i => byteNames[i]
  | none => "reg8(" ++ toString r.number ++ ")"

end Reg

namespace XReg

def xmm0 : XReg := ⟨0⟩
def xmm14 : XReg := ⟨14⟩
def xmm15 : XReg := ⟨15⟩

def name (r : XReg) : String := "xmm" ++ toString r.number

end XReg

end ExprBackend
