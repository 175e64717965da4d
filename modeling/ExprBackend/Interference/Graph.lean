import ExprBackend.BitSet.Basic
import ExprBackend.Failure

/-!
# Interference graphs

An undirected graph over numbered nodes. A node that is taken out keeps the list of the
neighbours it had at that moment and can not come back. Operations that change the graph run in
`EStateM`, so one that fails half way leaves what it had done.
-/

namespace ExprBackend

/-- What is known of a node. One that was never added has the default. -/
structure Vertex where
  present : Bool := false
  removed : Bool := false
  adjacent : BitSet := {}
  /-- The neighbours at the time of removal. -/
  history : List Nat := []
deriving DecidableEq, Repr, Inhabited

structure Graph where
  nodes : Array Vertex := #[]
  /-- The number of present nodes. -/
  size : Nat := 0
deriving DecidableEq, Repr, Inhabited

namespace Graph

def empty : Graph := {}

def node (g : Graph) (v : Nat) : Vertex := g.nodes[v]?.getD {}

def has (g : Graph) (v : Nat) : Bool := (g.node v).present

def removed (g : Graph) (v : Nat) : Bool := (g.node v).removed

def hasEdge (g : Graph) (a b : Nat) : Bool := g.has a && (g.node a).adjacent.contains b

def neighbors (g : Graph) (v : Nat) : List Nat := (g.node v).adjacent.keys

def degree (g : Graph) (v : Nat) : Nat := (g.node v).adjacent.size

/-- The present nodes in ascending order. -/
def present (g : Graph) : List Nat := (List.range g.nodes.size).filter g.has

def maxDegree (g : Graph) : Nat := (g.present.map g.degree).foldl max 0

/-- Room for the node `v`. -/
def grow (g : Graph) (v : Nat) : Graph :=
  { g with nodes := g.nodes ++ Array.replicate (v + 1 - g.nodes.size) {} }

def modifyVertex (g : Graph) (v : Nat) (f : Vertex → Vertex) : Graph :=
  { g with nodes := g.nodes.modify v f }

/-- Both ends list each other. -/
def link (g : Graph) (a b : Nat) : Graph :=
  (g.modifyVertex a fun n => { n with adjacent := n.adjacent.insert b }).modifyVertex b
    fun n => { n with adjacent := n.adjacent.insert a }

/-- The graph without a node that it has: its neighbours no longer list it. -/
def without (g : Graph) (v : Nat) : Graph :=
  let around := g.neighbors v
  let rest := around.foldl
    (fun h u => h.modifyVertex u fun n => { n with adjacent := n.adjacent.erase v }) g
  let gone := rest.modifyVertex v fun n =>
    { present := false, removed := true, adjacent := n.adjacent.reset, history := around }
  { gone with size := gone.size - 1 }

/-- Adds a node unless it is there. A removed one can not come back. -/
def addNode (v : Nat) : EStateM Violation Graph Unit := do
  let g ← get
  if g.removed v then throw (.addedAfterRemoval v)
  else if g.has v then return ()
  else
    let added := (g.grow v).modifyVertex v fun n => { n with present := true }
    set { added with size := g.size + 1 }

/-- Adds an edge and its ends. A node is never its own neighbour. -/
def addEdge (a b : Nat) : EStateM Violation Graph Unit := do
  if a = b then return ()
  else
    addNode a
    addNode b
    modify (link · a b)

/-- Takes a node and its edges out. -/
def remove (v : Nat) : EStateM Violation Graph Unit := do
  let g ← get
  if g.has v then set (g.without v) else throw (.removedAbsent v)

/-- The neighbours that a removed node had. -/
def removedNeighbors (g : Graph) (v : Nat) : Except Violation (List Nat) :=
  if g.removed v then .ok (g.node v).history else .error (.neverRemoved v)

end Graph

end ExprBackend
