import ExprBackend.Loader.Build
import ExprBackend.Loader.Decode

/-!
# Loading programs

The program that a source text stands for.
-/

namespace ExprBackend

/-- Why a text is no program. -/
inductive LoadError where
  | malformed (why : Yaml.Malformed)
  | noDocument
  | misfits (ms : List Source.Misfit)
  | fault (f : Fault)
  | build (e : BuildError)
deriving DecidableEq, Repr

def LoadError.message : LoadError → String
  | .malformed why => s!"decode yaml: yaml: line {why.line + 1}: malformed text"
  | .noDocument => "decode yaml: EOF"
  | .misfits ms =>
    "decode yaml: yaml: unmarshal errors:\n  " ++ "\n  ".intercalate (ms.map Source.Misfit.message)
  | .fault f => f.message
  | .build e => e.message

/-- The functions that a text describes. -/
def Source.ofText (s : String) : Except LoadError (List Source.Func) :=
  match Yaml.Document.ofText? s with
  | .error why => .error (.malformed why)
  | .ok none => .error .noDocument
  | .ok (some doc) =>
    match (Source.funcsOf doc (4 * s.length + 16)).run [] with
    | .error (.malformed why) => .error (.malformed why)
    | .error (.fault f) => .error (.fault f)
    | .ok (funcs, []) => .ok funcs
    | .ok (_, ms) => .error (.misfits ms)

/-- The program of described functions. -/
def Program.ofSource (funcs : List Source.Func) : Except BuildError Program := do
  return ⟨← funcs.mapM Source.Func.build⟩

def Program.parse (s : String) : Except LoadError Program := do
  let funcs ← Source.ofText s
  (Program.ofSource funcs).mapError .build

end ExprBackend
