import ExprBackend.Cli.Directory
import ExprBackend.Cli.Request
import ExprBackend.Loader.Load
import ExprBackend.Machine.Run
import ExprBackend.Pipeline

/-!
# Performing requests

What a request prints and writes, as a function of the directory it runs in.
-/

namespace ExprBackend.Cli

/-- Why a file is no program. -/
inductive FileError where
  | unreadable (name : String) (why : FileRefusal)
  | load (e : LoadError)
deriving DecidableEq, Repr

def FileError.message : FileError → String
  | .unreadable name why => "read file: " ++ why.readMessage name
  | .load e => e.message

/-- Why a request fails. -/
inductive CommandError where
  | load (file : String) (e : FileError)
  /-- A file that was to be compiled can not be loaded. -/
  | compileLoad (file : String) (e : FileError)
  | compile (file : Option String) (e : CompileError)
  | format (file : String) (places : List Place) (cause : Unprintable)
  | usage
  | noFunction (name : String)
  | argCount (name : String) (expected given : Nat)
  | badArg (param : String) (why : Literal.Refusal)
  | run (e : CallError)
  | write (name : String) (why : FileRefusal)
  /-- A fault, which has no message of its own. -/
  | fault (f : Fault)
deriving DecidableEq, Repr

def CommandError.message : CommandError → String
  | .load file e => "load " ++ file ++ ": " ++ e.message
  | .compileLoad file e => "compile " ++ file ++ ": load: " ++ e.message
  | .compile (some file) e => "compile " ++ file ++ ": " ++ e.message
  | .compile none e => "compile: " ++ e.message
  | .format file places cause =>
    "format " ++ file ++ ": " ++ (PrintError.refused places cause).message
  | .usage => "usage: run <file> <func> [args...]"
  | .noFunction name => "no function " ++ name
  | .argCount name expected given => name ++ s!" takes {expected} args, got {given}"
  | .badArg param why => "arg " ++ param ++ ": " ++ why.message
  | .run e => "run: " ++ e.message
  | .write name why => "write output: " ++ why.writeMessage name
  | .fault f => f.message

abbrev Perform := Except CommandError

/-- An error in the words of a command, unless it is a fault. -/
def orFault {α ε : Type} (fault? : ε → Option Fault) (words : ε → CommandError) :
    Except ε α → Perform α
  | .ok a => .ok a
  | .error e =>
    match fault? e with
    | some f => .error (.fault f)
    | none => .error (words e)

def FileError.fault? : FileError → Option Fault
  | .load (.fault f) => some f
  | _ => none

def compileFault? : CompileError → Option Fault
  | .fault f => some f
  | _ => none

def callFault? : CallError → Option Fault
  | .failed _ (.fault f) => some f
  | _ => none

def loadFile (dir : Directory) (name : String) : Except FileError Program := do
  let text ← (dir.read name).mapError (.unreadable name)
  (Program.parse text).mapError .load

def Settings.options (s : Settings) : Options where
  pools := Pools.all.limit s.generalRegs s.floatRegs
  workers := s.workers
  dumpExprs := selectsDump s.verbosity

/-- The assembly source of a file. -/
def compileFile (dir : Directory) (s : Settings) (name : String) : Perform String := do
  let p ← orFault FileError.fault? (.compileLoad name) (loadFile dir name)
  let units ← orFault compileFault? (.compile (some name)) (p.compile s.options)
  (assemble units).mapError .fault

/-- A text filled up with blanks to a number of characters. -/
def padRight (width : Nat) (s : String) : String :=
  s ++ String.ofList (List.replicate (width - s.length) ' ')

/-- A line for every variable of a compiled function: name, type and location. -/
def allocTable (u : CompiledUnit) : String :=
  let line (e : String × Ty) : String :=
    "\t" ++ padRight 12 e.1 ++ " " ++ padRight 6 e.2.name ++ " " ++
      ((u.assignment.find? e.1).getD .none).text ++ "\n"
  let entries := match Variables.ofFunc u.func with
    | .ok vars => vars.entries.toList
    | .error _ => []
  "func " ++ u.func.name ++ "\n" ++ String.join (entries.map line)

def allocFile (dir : Directory) (s : Settings) (name : String) : Perform String := do
  let p ← orFault FileError.fault? (.load name) (loadFile dir name)
  let units ← orFault compileFault? (.compile (some name)) (p.compile s.options)
  return String.join (units.map allocTable)

def formatFile (dir : Directory) (name : String) : Perform String := do
  let p ← orFault FileError.fault? (.load name) (loadFile dir name)
  match p.render with
  | .ok text => return text
  | .error (.refused places cause) => throw (.format name places cause)
  | .error (.fault f) => throw (.fault f)

/-- An argument as the word of its type. -/
def argWord (ty : Ty) (s : String) : Except Literal.Refusal UInt64 :=
  match ty with
  | .bool => (Literal.truth s).map fun b => if b then 1 else 0
  | .float => Literal.float s
  | _ => (Literal.integer s).map Int64.toUInt64

/-- Arguments as words, one for each parameter. -/
def argWords : List Param → List String → Perform (List UInt64)
  | p :: ps, s :: ss => do
    let w ← (argWord p.ty s).mapError (.badArg p.name)
    return w :: (← argWords ps ss)
  | _, _ => .ok []

/-- A result as text. -/
def resultText (ty : Ty) (r : CallResult) : String :=
  match ty with
  | .float => Binary64.text r.float
  | .bool => if r.int = 0 then "false" else "true"
  | _ => toString r.int.toInt

def runFile (dir : Directory) (s : Settings) : List String → Perform String
  | file :: name :: args => do
    let p ← orFault FileError.fault? (.load file) (loadFile dir file)
    let units ← orFault compileFault? (.compile none) (p.compile s.options)
    match (units.reverse.map (·.func)).find? (·.name = name) with
    | none => throw (.noFunction name)
    | some f =>
      if args.length ≠ f.params.length then
        throw (.argCount name f.params.length args.length)
      let words ← argWords f.params args
      match Machine.call (.ofList (units.flatMap (·.code))) 0 name words {} with
      | .error e _ => orFault callFault? .run (.error e)
      | .ok r _ =>
        match f.result with
        | .ok ty => return resultText ty r ++ "\n"
        | .error e => throw (.fault e)
  | _ => .error .usage

/-! ## Outcomes -/

inductive Status where
  | done
  | failed (message : String)
  | faulted (f : Fault)
deriving DecidableEq, Repr

/-- What a request prints, writes and reports. -/
structure Outcome where
  stdout : String := ""
  status : Status := .done
  /-- The file that is written, with its content. -/
  written : Option (String × String) := none
deriving DecidableEq, Repr

/-- The status of an error of a command. -/
def statusOf (command : Command) : CommandError → Status
  | .fault f => .faulted f
  | e => .failed (command.name ++ ": " ++ e.message)

/-- Prints file after file. What was printed before an error stays. -/
def printEach (command : Command) (text : String → Perform String) :
    List String → String → Outcome
  | [], out => { stdout := out }
  | file :: files, out =>
    match text file with
    | .ok t => printEach command text files (out ++ t)
    | .error e => { stdout := out, status := statusOf command e }

/-- Prints a text or nothing. -/
def printOne (command : Command) : Perform String → Outcome
  | .error e => { status := statusOf command e }
  | .ok text => { stdout := text }

/-- Writes a text to a file. -/
def writeOne (dir : Directory) (command : Command) (name : String) : Perform String → Outcome
  | .error e => { status := statusOf command e }
  | .ok text =>
    match dir.refusal? name with
    | some why => { status := statusOf command (.write name why) }
    | none => { written := some (name, text) }

def Request.perform (r : Request) (dir : Directory) : Outcome :=
  match r.command with
  | .compile =>
    let text := (r.args.mapM (compileFile dir r.settings)).map String.join
    if r.settings.output = "-" then printOne .compile text
    else writeOne dir .compile r.settings.output text
  | .alloc => printEach .alloc (allocFile dir r.settings) r.args ""
  | .format => printEach .format (formatFile dir) r.args ""
  | .run => printOne .run (runFile dir r.settings r.args)

/-- The outcome of a command line. -/
def perform (dir : Directory) (env : String → Option String) (args : List String) : Outcome :=
  match Request.parse env args with
  | .ok r => r.perform dir
  | .error .help => {}
  | .error e => { status := .failed e.message }

end ExprBackend.Cli
