import ExprBackend.Number.Literal

/-!
# Command lines

A command line is a command with files and other plain arguments, and flags anywhere. A flag has
one or two dashes, its value follows it or stands behind an equals sign. Two dashes alone end the
flags of a command.
-/

namespace ExprBackend.Cli

inductive Command where
  | compile
  | alloc
  | format
  | run
deriving DecidableEq, Repr

def Command.name : Command → String
  | .compile => "compile"
  | .alloc => "alloc"
  | .format => "fmt"
  | .run => "run"

def Command.ofName? : String → Option Command
  | "compile" => some .compile
  | "alloc" => some .alloc
  | "fmt" => some .format
  | "run" => some .run
  | _ => none

/-- What flags set. A negative number of registers is no limit. -/
structure Settings where
  generalRegs : Int := -1
  floatRegs : Int := -1
  workers : Int := 1
  verbosity : String := ""
  /-- The file for the result, a dash for the standard output. -/
  output : String := "-"
deriving DecidableEq, Repr

structure Request where
  command : Command
  args : List String
  settings : Settings
deriving DecidableEq, Repr

/-- Why a flag is refused. -/
inductive FlagRefusal where
  | unknown
  | valueRequired
  | badValue (why : Literal.Refusal)
deriving DecidableEq, Repr

def FlagRefusal.message : FlagRefusal → String
  | .unknown => "no such flag"
  | .valueRequired => "flag value is required"
  | .badValue why => why.message

/-- Why a command line is no request. -/
inductive UsageError where
  | unexpected (arg : String)
  | flag (arg : String) (why : FlagRefusal)
  /-- An error in the arguments of a command. -/
  | inCommand (command : Command) (arg : String) (why : FlagRefusal)
  /-- Help was asked for, or there is no command. -/
  | help
deriving DecidableEq, Repr

def UsageError.message : UsageError → String
  | .unexpected arg => "no args expected, got " ++ arg
  | .flag arg why => "parse flag: " ++ arg ++ ": " ++ why.message
  | .inCommand command arg why =>
    command.name ++ ": parse flag: " ++ arg ++ ": " ++ why.message
  | .help => "help"

/-- How a flag changes the settings. -/
inductive Setter where
  | number (set : Settings → Int → Settings)
  | text (set : Settings → String → Settings)

/-- The flag of a name. Only one command writes a file. -/
def setter? (command : Option Command) : String → Option Setter
  | "gp-regs" => some (.number fun s n => { s with generalRegs := n })
  | "fp-regs" => some (.number fun s n => { s with floatRegs := n })
  | "workers" | "j" => some (.number fun s n => { s with workers := n })
  | "verbosity" | "v" => some (.text fun s t => { s with verbosity := t })
  | "output" | "o" =>
    if command = some .compile then some (.text fun s t => { s with output := t }) else none
  | _ => none

def Setter.apply (setter : Setter) (s : Settings) (value : String) : Except FlagRefusal Settings :=
  match setter with
  | .text set => .ok (set s value)
  | .number set => ((Literal.decimalInteger value).mapError .badValue).map fun n => set s n.toInt

/-- An argument that is read as a flag. -/
def isFlag (arg : String) : Bool :=
  arg.toList.head? = some '-' && arg ≠ "-" && arg ≠ "--"

/-- The name of a flag without its dashes, and the value behind the equals sign. -/
def splitFlag (arg : String) : String × Option String :=
  let cs := match arg.toList with
    | '-' :: '-' :: cs => cs
    | '-' :: cs => cs
    | cs => cs
  let name := cs.takeWhile (· ≠ '=')
  match cs.drop name.length with
  | _ :: value => (String.ofList name, some (String.ofList value))
  | [] => (String.ofList name, none)

/-- The settings after a flag, and whether the argument behind it was taken as its value. -/
def applyFlag (command : Option Command) (arg : String) (next? : Option String) (s : Settings) :
    Except FlagRefusal (Settings × Bool) :=
  let (name, value?) := splitFlag arg
  match setter? command name, value?, next? with
  | none, _, _ => .error .unknown
  | some set, some value, _ => (set.apply s value).map (·, false)
  | some _, none, none => .error .valueRequired
  | some set, none, some value => (set.apply s value).map (·, true)

def asksHelp (arg : String) : Bool := ["h", "help"].contains (splitFlag arg).1

/-- The arguments of a command, after those already seen. -/
def parseArgs (command : Command) : List String → List String → Settings →
    Except UsageError Request
  | [], args, s => .ok ⟨command, args, s⟩
  | arg :: rest, args, s =>
    if arg = "--" then .ok ⟨command, args ++ rest, s⟩
    else if !isFlag arg then parseArgs command rest (args ++ [arg]) s
    else if asksHelp arg then .error .help
    else match applyFlag (some command) arg rest.head? s, rest with
      | .error why, _ => .error (.inCommand command arg why)
      | .ok (s, true), _ :: rest => parseArgs command rest args s
      | .ok (s, _), rest => parseArgs command rest args s

/-- Flags in front of the command, then the command and its arguments. -/
def parseFrom : List String → Settings → Except UsageError Request
  | [], _ => .error .help
  | arg :: rest, s =>
    if !isFlag arg then
      match Command.ofName? arg with
      | some command => parseArgs command rest [] s
      | none => .error (.unexpected arg)
    else if asksHelp arg then .error .help
    else match applyFlag none arg rest.head? s, rest with
      | .error why, _ => .error (.flag arg why)
      | .ok (s, true), _ :: rest => parseFrom rest s
      | .ok (s, _), rest => parseFrom rest s

/-- A number from the environment; one that can not be read does not count. -/
def envNumber (env : String → Option String) (name : String) (usual : Int) : Int :=
  match env name with
  | none => usual
  | some value =>
    match Literal.decimalInteger value with
    | .ok n => n.toInt
    | .error _ => usual

/-- The settings before any flag. -/
def envSettings (env : String → Option String) : Settings where
  generalRegs := envNumber env "EXPRC_GP_REGS" (-1)
  floatRegs := envNumber env "EXPRC_FP_REGS" (-1)
  workers := envNumber env "EXPRC_WORKERS" 1

/-- The names of the variables that count. -/
def envNames : List String := ["EXPRC_GP_REGS", "EXPRC_FP_REGS", "EXPRC_WORKERS"]

def Request.parse (env : String → Option String) (args : List String) :
    Except UsageError Request :=
  parseFrom args (envSettings env)

/-- The files that a request reads. -/
def Request.inputs (r : Request) : List String :=
  match r.command with
  | .run => r.args.take 1
  | _ => r.args

end ExprBackend.Cli
