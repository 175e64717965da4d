import ExprBackend.Machine.State

/-!
# One instruction

What each instruction does, apart from those that change the order of execution. Forms that the
hardware has no encoding for trap.
-/

namespace ExprBackend.Machine

/-- The rules of instructions with two operands: a register or memory as destination, at most one
memory operand, and immediates of 32 bits unless one is moved to a register. -/
def checkOperands (dst src : Operand) (isMove : Bool) : Exec Unit := do
  match dst with
  | .reg _ | .mem _ => pure ()
  | _ => throw (.illegal (.destination dst))
  if dst.isMem && src.isMem then throw (.illegal .memoryToMemory)
  match src with
  | .reg _ | .mem _ => return ()
  | .imm v =>
    if fitsImm32 v || (isMove && !dst.isMem) then return ()
    else throw (.illegal (.wideImmediate v))
  | _ => throw (.illegal (.source src))

/-- Combines the destination with the source. -/
def combine (f : UInt64 → UInt64 → UInt64) (dst src : Operand) : Exec Unit := do
  checkOperands dst src false
  let a ← read dst
  let b ← read src
  write dst (f a b)

/-- Moves a word as it is. -/
def transfer (dst src : Operand) : Exec Unit := do
  if dst.isMem && src.isMem then throw (.illegal .memoryToMemory)
  write dst (← read src)

def compare (l r : Operand) : Exec Unit := do
  if l.isImm then throw (.illegal .comparedImmediate)
  checkOperands l r false
  let a ← read l
  let b ← read r
  modify fun m => { m with flags := some ⟨a = b, a.toInt64 < b.toInt64⟩ }

/-- Whether a condition holds after the last comparison. -/
def holds (c : Cond) : Exec Bool := do
  match (← get).flags with
  | none => throw .noFlags
  | some f =>
    match c with
    | .e => return f.eq
    | .ne => return !f.eq
    | .l => return f.lt
    | .le => return f.lt || f.eq
    | .g => return !f.lt && !f.eq
    | .ge => return !f.lt
    | .other _ => throw (.unknownCond c)

/-- A float register or memory. -/
def isFloatSource : Operand → Bool
  | .xreg _ | .mem _ => true
  | _ => false

/-- The function of a float operation that there is. -/
def floatFunction? : FloatOp → Option (UInt64 → UInt64 → UInt64)
  | .add => some Binary64.add
  | .sub => some Binary64.sub
  | .mul => some Binary64.mul
  | .div => some Binary64.div
  | .other _ => none

def floatCombine (op : FloatOp) (dst : XReg) (src : Operand) : Exec Unit := do
  if !isFloatSource src then throw (.illegal (.floatSource op src))
  let b ← read src
  let a ← getXReg dst
  match floatFunction? op with
  | some f => setXReg dst (f a b)
  | none => throw (.unknownFloatOp op)

/-- The relation of a predicate that there is. -/
def relation? : Predicate → Option (UInt64 → UInt64 → Bool)
  | .eq => some Binary64.eq
  | .lt => some Binary64.lt
  | .le => some Binary64.le
  | .neq => some fun a b => !Binary64.eq a b
  | .notLt => some fun a b => !Binary64.lt a b
  | .notLe => some fun a b => !Binary64.le a b
  | .other _ => none

/-- A word of all ones for true. -/
def maskOf (b : Bool) : UInt64 := if b then 0xffffffffffffffff else 0

def floatCompare (dst : XReg) (src : Operand) (pred : Predicate) : Exec Unit := do
  if !isFloatSource src then throw (.illegal (.compareSource src))
  let b ← read src
  let a ← getXReg dst
  match relation? pred with
  | some holds => setXReg dst (maskOf (holds a b))
  | none => throw (.unknownPredicate pred)

/-- Every bit the sign bit of a word. -/
def signWord (w : UInt64) : UInt64 := if w.toInt64 < 0 then 0xffffffffffffffff else 0

/-- Divides `rax`, whose sign has to fill `rdx`. The quotient is cut toward zero. -/
def divide (src : Operand) : Exec Unit := do
  if src.isImm then throw (.illegal .divisorImmediate)
  let d := (← read src).toInt64
  if d = 0 then throw .divisionByZero
  let n ← getReg .rax
  if (← getReg .rdx) ≠ signWord n then throw .wideDividend
  setReg .rax (n.toInt64 / d).toUInt64
  setReg .rdx (n.toInt64 % d).toUInt64

def execute : Instr → Exec Unit
  | .text | .global _ | .label _ => return ()
  | .mov dst src => do
    checkOperands dst src true
    write dst (← read src)
  | .movsd dst src => do
    if !dst.isXReg && !src.isXReg then throw (.illegal .noFloatRegister)
    transfer dst src
  | .movq dst src => do
    if dst.isXReg = src.isXReg then throw (.illegal .notOneFloatRegister)
    transfer dst src
  | .add dst src => combine (· + ·) dst src
  | .sub dst src => combine (· - ·) dst src
  | .and dst src => combine (· &&& ·) dst src
  | .imul dst src => do
    checkOperands (.reg dst) src false
    let b ← read src
    setReg dst ((← getReg dst) * b)
  | .imul3 dst src factor => do
    if src.isImm then throw (.illegal .factorImmediate)
    if !fitsImm32 factor then throw (.illegal (.wideImmediate factor))
    setReg dst ((← read src) * factor.toUInt64)
  | .cqo => do setReg .rdx (signWord (← getReg .rax))
  | .idiv src => divide src
  | .neg dst => do write dst (-(← read dst))
  | .cmp l r => compare l r
  | .set cond dst => do
    let b ← holds cond
    let w ← read dst
    write dst ((w &&& ~~~ 0xff) ||| (if b then 1 else 0))
  | .farith op dst src => floatCombine op dst src
  | .cmpsd dst src pred => floatCompare dst src pred
  | .push src => do push (← getReg src)
  | .pop dst => do setReg dst (← pop)
  | x => throw (.illegal (.unsupported x))

end ExprBackend.Machine
