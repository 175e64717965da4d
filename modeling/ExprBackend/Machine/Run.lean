import ExprBackend.Machine.Execute

/-!
# Running code

Code runs from an instruction on until it falls off the end or returns to the caller outside,
whose address is the word of all ones.
-/

namespace ExprBackend

/-- Instructions with the places of their labels. -/
structure Code where
  instrs : Array Instr
  /-- Of labels with one name the last one counts. -/
  labels : Std.TreeMap String Nat

namespace Code

/-- The labels of a list of instructions of which the first has a given place. -/
def addLabels : Nat → List Instr → Std.TreeMap String Nat → Std.TreeMap String Nat
  | _, [], labels => labels
  | i, .label name :: xs, labels => addLabels (i + 1) xs (labels.insert name i)
  | i, _ :: xs, labels => addLabels (i + 1) xs labels

def ofList (xs : List Instr) : Code := ⟨xs.toArray, addLabels 0 xs {}⟩

end Code

/-- Why a run stops early. -/
inductive RunError where
  /-- An instruction at a place trapped. -/
  | trap (pc : Int) (x : Instr) (why : Trap)
  | stepLimit
  | fault (f : Fault)
deriving DecidableEq, Repr

def RunError.message : RunError → String
  | .trap pc x why => "pc " ++ toString pc ++ ": " ++ x.kind ++ ": " ++ why.message
  | .stepLimit => "step limit reached"
  | .fault f => f.message

/-- The error of an instruction; a fault has no place. -/
def RunError.ofTrap (pc : Int) (x : Instr) : Trap → RunError
  | .fault f => .fault f
  | why => .trap pc x why

inductive CallError where
  | noFunction (name : String)
  | failed (name : String) (why : RunError)
deriving DecidableEq, Repr

def CallError.message : CallError → String
  | .noFunction name => "no function " ++ name
  | .failed name why =>
    match why with
    | .fault f => f.message
    | why => "call " ++ name ++ ": " ++ why.message

/-- What a function leaves for its caller: an integer or the bits of a float. -/
structure CallResult where
  int : Int64
  float : UInt64
deriving DecidableEq, Repr

namespace Machine

/-- Where execution goes on. -/
inductive Next where
  | at (pc : Int)
  | done
deriving DecidableEq, Repr

/-- The place of a label. One that does not exist is reported at place `-1`. -/
def jump (code : Code) (x : Instr) (target : String) : EStateM RunError Machine Next :=
  match code.labels[target]? with
  | some i => return .at i
  | none => throw (.trap (-1) x (.noLabel target))

/-- Runs a step at a place. -/
def attempt {α : Type} (pc : Int) (x : Instr) (step : Exec α) : EStateM RunError Machine α :=
  fun m => match step m with
    | .ok a m => .ok a m
    | .error why m => .error (RunError.ofTrap pc x why) m

/-- One instruction, those that change the order of execution included. -/
def advance (code : Code) (pc : Int) (x : Instr) : EStateM RunError Machine Next := do
  match x with
  | .ret =>
    let w ← attempt pc x pop
    if w = 0xffffffffffffffff then return .done else return .at w.toInt64.toInt
  | .jmp target => jump code x target
  | .jcc cond target =>
    if ← attempt pc x (holds cond) then jump code x target else return .at (pc + 1)
  | x =>
    attempt pc x (execute x)
    return .at (pc + 1)

/-- Runs at most so many instructions. A place before the first instruction is a fault, one behind
the last is the end. -/
def run (code : Code) : Nat → Int → Machine → EStateM.Result RunError Machine Unit
  | steps, pc, m =>
    if pc < code.instrs.size then
      match steps with
      | 0 => .error .stepLimit m
      | steps + 1 =>
        if pc < 0 then .error (.fault (.index pc code.instrs.size)) m
        else match code.instrs[pc.toNat]? with
          | none => .ok () m
          | some x =>
            match advance code pc x m with
            | .error e m => .error e m
            | .ok .done m => .ok () m
            | .ok (.at next) m => run code steps next m
    else .ok () m

/-- The number of instructions that a limit allows: 0 stands for the usual limit, and a negative
one is as a word without sign. -/
def stepsOf (limit : Int64) : Nat :=
  if limit = 0 then 0x100000 else limit.toUInt64.toNat

/-- Where the stack of a call starts. -/
def stackTop : UInt64 := 0x100000

/-- Runs code from its start. -/
def runFromStart (code : Code) (limit : Int64) : EStateM RunError Machine Unit :=
  run code (stepsOf limit) 0

/-- Pushes words, the last one first. -/
def pushAll : List UInt64 → Exec Unit
  | [] => return ()
  | w :: ws => do
    pushAll ws
    push w

/-- Sets up the stack of a call: arguments, then the address of the caller outside. -/
def enter (args : List UInt64) : Exec Unit := do
  setReg .rsp stackTop
  pushAll args
  push 0xffffffffffffffff

/-- Calls a function by the name of its label. -/
def call (code : Code) (limit : Int64) (name : String) (args : List UInt64) :
    EStateM CallError Machine CallResult := fun m =>
  match code.labels[name]? with
  | none => .error (.noFunction name) m
  | some pc =>
    match enter args m with
    | .error why m => .error (.failed name (RunError.ofTrap pc .absent why)) m
    | .ok _ m =>
      match run code (stepsOf limit) pc m with
      | .error why m => .error (.failed name why) m
      | .ok _ m => .ok ⟨m.r[0].toInt64, m.x[0]⟩ m

end Machine

end ExprBackend
