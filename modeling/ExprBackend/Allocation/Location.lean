import ExprBackend.Asm.Register
import ExprBackend.Text.Bytes

/-!
# Where variables live
-/

namespace ExprBackend

/-- Storage of a variable. One that is never read has none. `other` is a kind that does not
exist. -/
inductive Location where
  | none
  | reg (r : Reg)
  | xreg (r : XReg)
  | spill
  | other (kind : Int)
deriving DecidableEq, Repr, Inhabited

namespace Location

/-- The location of a kind, with the first register where the kind has one. -/
def ofKind : Int → Location
  | 0 => .none
  | 1 => .reg ⟨0⟩
  | 2 => .xreg ⟨0⟩
  | 3 => .spill
  | n => .other n

def kindName : Location → String
  | .none => "none"
  | .reg _ => "reg"
  | .xreg _ => "xreg"
  | .spill => "spill"
  | .other _ => "kind?"

/-- A register by its name, anything else by its kind. -/
def text : Location → String
  | .reg r => r.name
  | .xreg r => r.name
  | l => l.kindName

def wire (l : Location) : List UInt8 := Wire.text l.text

end Location

/-- The location of every variable, each name once. -/
abbrev Assignment := List (String × Location)

namespace Assignment

def find? (asg : Assignment) (name : String) : Option Location :=
  List.lookup name asg

/-- A later location of a name replaces the earlier one. -/
def insert (asg : Assignment) (name : String) (l : Location) : Assignment :=
  if (asg.find? name).isSome then asg.map fun e => if e.1 = name then (name, l) else e
  else asg ++ [(name, l)]

def ofList (entries : List (String × Location)) : Assignment :=
  entries.foldl (fun asg e => insert asg e.1 e.2) []

def spilled (asg : Assignment) : Nat := asg.countP (·.2 = .spill)

/-- The entries in the order of their names. -/
def sorted (asg : Assignment) : Assignment := asg.mergeSort fun a b => a.1 ≤ b.1

end Assignment

end ExprBackend
