import ExprBackend.BitSet.Basic
import ExprBackend.Failure

/-!
# Commands on named sets

A store holds a set under every name, at first an empty one. Commands take keys that may be
negative; such a command fails and leaves every set as it was.
-/

namespace ExprBackend.BitSet

/-- A key that is not negative. -/
def key (k : Int) : Except Fault Nat :=
  if k < 0 then .error (.negativeKey k) else .ok k.toNat

abbrev Store := String → BitSet

def Store.empty : Store := fun _ => BitSet.empty

def Store.put (st : Store) (name : String) (s : BitSet) : Store :=
  fun other => if other = name then s else st other

inductive Command where
  | make (name : String) (keys : List Int)
  | copy (name source : String)
  | insert (name : String) (k : Int)
  | erase (name : String) (k : Int)
  | contains (name : String) (k : Int)
  | merge (name source : String)
  | subtract (name source : String)
  | sameKeys (name other : String)
  | size (name : String)
  | first (name : String)
  /-- Visits at most `limit` keys, and one if there is any. -/
  | visit (name : String) (limit : Int)
  | reset (name : String)
  | wire (name : String)
deriving Repr

inductive Answer where
  | done
  | truth (b : Bool)
  | number (n : Int)
  | keys (ks : List Nat)
  | bytes (bs : List UInt8)
deriving DecidableEq, Repr

/-- The set that a command is about. -/
def Command.target : Command → String
  | .make name _ | .copy name _ | .insert name _ | .erase name _ | .contains name _
  | .merge name _ | .subtract name _ | .sameKeys name _ | .size name | .first name
  | .visit name _ | .reset name | .wire name => name

def Command.perform (st : Store) : Command → Except Fault (Answer × Store)
  | .make name ks => do return (.done, st.put name (ofList (← ks.mapM key)))
  | .copy name source => .ok (.done, st.put name (st source))
  | .insert name k => do return (.done, st.put name ((st name).insert (← key k)))
  | .erase name k => do return (.done, st.put name ((st name).erase (← key k)))
  | .contains name k => do return (.truth ((st name).contains (← key k)), st)
  | .merge name source => .ok (.done, st.put name ((st name).merge (st source)))
  | .subtract name source => .ok (.done, st.put name ((st name).subtract (st source)))
  | .sameKeys name other => .ok (.truth ((st name).sameKeys (st other)), st)
  | .size name => .ok (.number (st name).size, st)
  | .first name => .ok (.number (st name).first, st)
  | .visit name limit =>
    .ok (.keys ((st name).visit fun seen => seen.length < limit), st)
  | .reset name => .ok (.done, st.put name (st name).reset)
  | .wire name => .ok (.bytes (st name).wire, st)

end ExprBackend.BitSet
