import ExprBackend.Expr.Liveness
import ExprBackend.Interference.Graph

/-!
# Conflicting variables

Two variables of one register class are in conflict if both are live before some statement.
Floats have registers of their own, so there is one graph for them and one for all others.
-/

namespace ExprBackend

structure Conflicts where
  general : Graph := {}
  float : Graph := {}
  freq : Frequency := {}

namespace Conflicts

abbrev Build := StateT Conflicts (Except Failure)

/-- Changes the graph of a register class. -/
def change (float : Bool) (x : EStateM Violation Graph Unit) : Build Unit := do
  let c ← get
  match x (if float then c.float else c.general) with
  | .ok _ g => set (if float then { c with float := g } else { c with general := g })
  | .error v _ => throw (.violation v)

def addVariable (vars : Variables) (v : Nat) : Build Unit :=
  change (vars.isFloat v) (Graph.addNode v)

/-- An edge between variables of one class. -/
def addPair (vars : Variables) (v u : Nat) : Build Unit :=
  if vars.isFloat u = vars.isFloat v then change (vars.isFloat v) (Graph.addEdge v u)
  else return ()

/-- All variables of a list are in conflict with each other. -/
def addClique (vars : Variables) : List Nat → Build Unit
  | [] => return ()
  | v :: vs => do
    addVariable vars v
    vs.forM (addPair vars v)
    addClique vars vs

/-- The conflicts at a statement. What it binds is a node even where nothing is live. -/
def addPoint (vars : Variables) (p : Point) : Build Unit := do
  match p.statement with
  | .bind name _ => addVariable vars (← vars.number name)
  | _ => pure ()
  addClique vars p.live.keys

/-- The conflicts within a block. The variables in `seed` are live at its end. -/
def ofBlock (vars : Variables) (b : Block) (seed : List Nat) : Except Failure Conflicts := do
  let walk ← Liveness.ofBlock vars (BitSet.ofList seed) b
  let build : Build Unit := do
    walk.points.forM (addPoint vars)
    seed.forM (addVariable vars)
  let (_, c) ← build.run {}
  return { c with freq := seed.foldl Frequency.note walk.freq }

end Conflicts

end ExprBackend
