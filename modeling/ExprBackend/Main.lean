import ExprBackend.Cli.Perform

/-!
# The program

Reads the files and the environment that a request is about, performs it, and prints and writes
what comes out.
-/

open ExprBackend ExprBackend.Cli

/-- The refusal that an error of the file system stands for. -/
def refusalOf : IO.Error → FileRefusal
  | .noFileOrDirectory .. => .missing
  | .inappropriateType .. => .isDirectory
  | .permissionDenied .. => .other "permission denied"
  | e => .other (toString e)

/-- A file's content, or why it can not be read. -/
def readInput (name : String) : IO (String × Except FileRefusal String) := do
  try
    return (name, .ok (← IO.FS.readFile name))
  catch e =>
    return (name, .error (refusalOf e))

/-- The exit code of a status: 1 for an error, 2 for a fault. -/
def report : Status → IO UInt32
  | .done => return 0
  | .failed message => do
    IO.eprintln ("error: " ++ message)
    return 1
  | .faulted f => do
    IO.eprintln ("panic: " ++ f.message)
    return 2

def main (args : List String) : IO UInt32 := do
  let env ← envNames.mapM fun name => do return (name, ← IO.getEnv name)
  let lookupEnv (name : String) : Option String := (env.lookup name).getD none
  let names := match Request.parse lookupEnv args with
    | .ok r => r.inputs
    | .error _ => []
  let contents ← names.mapM readInput
  let dir : Directory := { read := fun name => (contents.lookup name).getD (.error .missing) }
  let outcome := perform dir lookupEnv args
  IO.print outcome.stdout
  match outcome.written with
  | none => report outcome.status
  | some (name, text) =>
    try
      IO.FS.writeFile name text
      report outcome.status
    catch e =>
      report (statusOf .compile (.write name (refusalOf e)))
