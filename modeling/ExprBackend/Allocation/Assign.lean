import ExprBackend.Allocation.Location
import ExprBackend.Allocation.Pools
import ExprBackend.Interference.Conflicts

/-!
# Giving variables their locations

The graphs of a function are coloured with the registers of their class. A graph is taken apart node
by node. A node with fewer neighbours than there are colours can always be coloured later and goes
on a stack; where there is none, the node that is read least is given up. The stack is then coloured
from its top. Between equals the lowest number goes first.
-/

namespace ExprBackend

structure Coloring (C : Type) where
  colors : List (Nat × C) := []
  /-- In the order in which they were given up. -/
  spilled : List Nat := []
  /-- Nodes that are never read. -/
  dead : List Nat := []
deriving DecidableEq, Repr

def Coloring.color? {C : Type} (c : Coloring C) (v : Nat) : Option C := c.colors.lookup v

namespace Coloring

/-- A node that may be given up, with the number of its reads. -/
structure Candidate where
  reads : Int
  node : Nat
deriving DecidableEq, Repr

/-- Fewer reads go first, then the lower number. -/
def Candidate.before (a b : Candidate) : Bool :=
  a.reads < b.reads || (a.reads == b.reads && a.node < b.node)

/-- Candidates, the first to be given up in front. Nodes may leave the graph while they wait. -/
abbrev Queue := List Candidate

def Queue.push (c : Candidate) : Queue → Queue
  | [] => [c]
  | d :: ds => if d.before c then d :: Queue.push c ds else c :: d :: ds

/-- The first candidate that is still in the graph, and those behind it. -/
def Queue.pop? (g : Graph) : Queue → Option (Nat × Queue)
  | [] => none
  | c :: cs => if g.has c.node then some (c.node, cs) else Queue.pop? g cs

/-- Takes the nodes out that are never read. -/
def dropUnread (freq : Frequency) : List Nat → EStateM Violation Graph (List Nat)
  | [] => return []
  | v :: vs => do
    if freq.get v = 0 then
      Graph.remove v
      return v :: (← dropUnread freq vs)
    else dropUnread freq vs

/-- The lowest node with fewer than `k` neighbours. -/
def trivial? (g : Graph) (k : Nat) : Option Nat := g.present.find? (g.degree · < k)

/-- The nodes in the order in which they are to be coloured, and those given up. -/
structure Plan where
  stack : List Nat := []
  spilled : List Nat := []

/-- Takes the next `n` nodes out of the graph. -/
def simplify (k : Nat) : Nat → Queue → Plan → EStateM Violation Graph Plan
  | 0, _, plan => return plan
  | n + 1, queue, plan => do
    let g ← get
    match trivial? g k with
    | some v =>
      Graph.remove v
      simplify k n queue { plan with stack := v :: plan.stack }
    | none =>
      match queue.pop? g with
      | some (v, rest) =>
        Graph.remove v
        simplify k n rest { plan with spilled := plan.spilled ++ [v] }
      | none => return plan

variable {C : Type} [DecidableEq C]

/-- The colours of a list of nodes, each once. -/
def usedColors (colors : List (Nat × C)) (vs : List Nat) : List C :=
  (vs.filterMap fun v => colors.lookup v).eraseDups

/-- Colours a stack from its top, each node with the first colour of the pool that none of its
neighbours has. -/
def select (g : Graph) (pool : List C) : List Nat → List (Nat × C) →
    Except Violation (List (Nat × C))
  | [], colors => .ok colors
  | v :: vs, colors => do
    let used := usedColors colors (← g.removedNeighbors v)
    match pool.find? (fun c => c ∉ used) with
    | some c => select g pool vs ((v, c) :: colors)
    | none => throw (.noRegisterLeft v used.length pool.length)

end Coloring

open Coloring

/-- Colours a graph, which has no nodes left afterwards. -/
def Graph.color {C : Type} [DecidableEq C] (freq : Frequency) (pool : List C) :
    EStateM Violation Graph (Coloring C) := do
  let dead ← dropUnread freq (← get).present
  let g ← get
  let queue := g.present.foldl (fun q v => Queue.push ⟨freq.get v, v⟩ q) []
  let plan ← simplify pool.length g.size queue {}
  match select (← get) pool plan.stack [] with
  | .ok colors => return { colors, spilled := plan.spilled, dead }
  | .error e => throw e

/-- The colouring of a graph that is not needed any more. -/
def Graph.coloring {C : Type} [DecidableEq C] (g : Graph) (freq : Frequency) (pool : List C) :
    Except Failure (Coloring C) :=
  match Graph.color freq pool g with
  | .ok c _ => .ok c
  | .error v _ => .error (.violation v)

/-- The locations that a colouring stands for. -/
def Coloring.locations {C : Type} (c : Coloring C) (ofColor : C → Location) :
    List (Nat × Location) :=
  c.colors.map (fun e => (e.1, ofColor e.2)) ++ c.spilled.map (·, .spill) ++
    c.dead.map (·, .none)

/-- A location for every variable that occurs in the graphs. -/
def Conflicts.assign (c : Conflicts) (vars : Variables) (pools : Pools) :
    Except Failure Assignment := do
  let general ← c.general.coloring c.freq pools.general
  let float ← c.float.coloring c.freq pools.float
  return (general.locations .reg ++ float.locations .xreg).map fun e => (vars.name e.1, e.2)

end ExprBackend
