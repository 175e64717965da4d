import ExprBackend.Interference.Graph

/-!
# Commands on a graph

Commands take node numbers that may be negative; such a number is outside the table of nodes.
-/

namespace ExprBackend.Graph

inductive Command where
  | addNode (v : Int)
  | addEdge (a b : Int)
  | remove (v : Int)
  | has (v : Int)
  | hasEdge (a b : Int)
  | degree (v : Int)
  | neighbors (v : Int)
  | present
  | removed (v : Int)
  | removedNeighbors (v : Int)
  | maxDegree
deriving Repr

inductive Answer where
  | done
  | truth (b : Bool)
  | number (n : Nat)
  | nodes (vs : List Nat)
  | absent
deriving DecidableEq, Repr

/-- A node number as an index of the table of nodes. -/
def index (v : Int) : EStateM Failure Graph Nat := do
  if v < 0 then throw (.fault (.index v (← get).nodes.size)) else return v.toNat

/-- Runs a change of the graph. -/
def change (x : EStateM Violation Graph Unit) : EStateM Failure Graph Unit :=
  fun g => match x g with
    | .ok a g => .ok a g
    | .error v g => .error (.violation v) g

namespace Command

/-- An edge from a node to itself is left out before its number is looked at. -/
def perform : Command → EStateM Failure Graph Answer
  | .addNode v => do change (Graph.addNode (← index v)); return .done
  | .addEdge a b => do
    if a = b then return .done
    else
      let a ← index a
      change (Graph.addNode a)
      let b ← index b
      change (Graph.addEdge a b)
      return .done
  | .remove v => do change (Graph.remove (← index v)); return .done
  | .has v => do
    let v ← index v
    return .truth ((← get).has v)
  | .hasEdge a b => do
    let a ← index a
    let g ← get
    if g.has a then
      if b < 0 then throw (.fault (.negativeKey b)) else return .truth (g.hasEdge a b.toNat)
    else return .truth false
  | .degree v => do
    let v ← index v
    return .number ((← get).degree v)
  | .neighbors v => do
    let v ← index v
    let g ← get
    if g.has v then return .nodes (g.neighbors v) else return .absent
  | .present => do return .nodes (← get).present
  | .removed v => do
    let v ← index v
    return .truth ((← get).removed v)
  | .removedNeighbors v => do
    let v ← index v
    match (← get).removedNeighbors v with
    | .ok vs => return .nodes vs
    | .error e => throw (.violation e)
  | .maxDegree => do return .number (← get).maxDegree

end Command

end ExprBackend.Graph
