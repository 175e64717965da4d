import ExprBackend.BitSet.Basic
import ExprBackend.Expr.Variables
import Std.Data.TreeMap

/-!
# Liveness

A walk through a block from its end finds the variables that are live before every statement,
that is those whose value may still be read. On the way it counts how often each variable is
read.
-/

namespace ExprBackend

/-- How often each variable is read. One that is bound but never read has an entry of 0. -/
abbrev Frequency := Std.TreeMap Nat Int

namespace Frequency

def get (freq : Frequency) (v : Nat) : Int := freq.getD v 0

def addRead (freq : Frequency) (v : Nat) : Frequency := freq.insert v (freq.get v + 1)

def note (freq : Frequency) (v : Nat) : Frequency := freq.insertIfNew v 0

end Frequency

/-- A statement and the variables that are live before it. -/
structure Point where
  statement : Expr
  live : BitSet
deriving Repr

/-- Where a walk stands: what is live before the part already walked, and what was found. -/
structure Liveness where
  live : BitSet := {}
  freq : Frequency := {}
  /-- The statements in the order in which they were walked. -/
  points : List Point := []

namespace Liveness

abbrev Walk := StateT Liveness (Except Failure)

def read (vars : Variables) (x : Atom) : Walk Unit := do
  if x.isVar then
    let v ← vars.number x.name
    modify fun s => { s with live := s.live.insert v, freq := s.freq.addRead v }
  else return ()

mutual

/-- From the variables live after a statement to those live before it. The branches of a
condition both start from what is live after it. -/
def walkExpr (vars : Variables) : Expr → Walk Unit
  | .atom x => read vars x
  | .bind name init => do
    walkExpr vars init
    let v ← vars.number name
    modify fun s => { s with live := s.live.erase v, freq := s.freq.note v }
  | .unary _ x _ => read vars x
  | .binary _ l r _ => do
    read vars l
    read vars r
  | .branch cond onTrue onFalse => do
    let after := (← get).live
    walkBlock vars onTrue
    let first := (← get).live
    modify fun s => { s with live := after }
    match onFalse with
    | some b => walkBlock vars b
    | none => pure ()
    modify fun s => { s with live := s.live.merge first }
    read vars cond
  | .missing => throw (.violation .unwalkedExpr)

/-- Walks the statements of a block from the last to the first. -/
def walkBlock (vars : Variables) : List Expr → Walk Unit
  | [] => return ()
  | x :: xs => do
    walkBlock vars xs
    walkExpr vars x
    modify fun s => { s with points := s.points ++ [⟨x, s.live⟩] }

end

/-- The walk of a block after which `seed` is live. -/
def ofBlock (vars : Variables) (seed : BitSet) (b : Block) : Except Failure Liveness := do
  return (← (walkBlock vars b).run { live := seed }).2

/-- What is live before each statement of a block itself. -/
def walkEach (vars : Variables) : List Expr → Walk (List BitSet)
  | [] => return []
  | x :: xs => do
    let rest ← walkEach vars xs
    walkExpr vars x
    return (← get).live :: rest

/-- The live variables before each statement of a block that has to be there. -/
def beforeEach (vars : Variables) : Option Block → Except Failure (List BitSet)
  | none => .error (.fault .missingExpr)
  | some b => (walkEach vars b).run' {}

end Liveness

end ExprBackend
