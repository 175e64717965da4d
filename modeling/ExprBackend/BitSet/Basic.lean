import ExprBackend.Text.Bytes

/-!
# Sets of small numbers

A set is a list of 64-bit words, the key `k` being bit `k % 64` of word `k / 64`. Words are only
ever added, so two sets with the same keys may differ in length, and a set that never had a key
has no words at all.
-/

namespace ExprBackend

structure BitSet where
  words : List (BitVec 64) := []
deriving DecidableEq, Repr, Inhabited

namespace BitSet

def empty : BitSet := {}

/-- The word at an index; beyond the last one all bits are clear. -/
def word (s : BitSet) (i : Nat) : BitVec 64 := s.words[i]?.getD 0

def contains (s : BitSet) (k : Nat) : Bool := (s.word (k / 64)).getLsbD (k % 64)

/-- At least `n` words. -/
def grow (s : BitSet) (n : Nat) : BitSet :=
  ⟨s.words ++ List.replicate (n - s.words.length) 0⟩

def insert (s : BitSet) (k : Nat) : BitSet :=
  ⟨(s.grow (k / 64 + 1)).words.modify (k / 64) (· ||| BitVec.twoPow 64 (k % 64))⟩

def erase (s : BitSet) (k : Nat) : BitSet :=
  ⟨s.words.modify (k / 64) (· &&& ~~~ BitVec.twoPow 64 (k % 64))⟩

def ofList (keys : List Nat) : BitSet := keys.foldl insert empty

/-- The keys of both sets. -/
def merge (s t : BitSet) : BitSet :=
  ⟨(List.range (max s.words.length t.words.length)).map fun i => s.word i ||| t.word i⟩

/-- The keys of the first set that are not in the second. -/
def subtract (s t : BitSet) : BitSet :=
  ⟨s.words.mapIdx fun i w => w &&& ~~~ t.word i⟩

/-- No keys, in as many words. -/
def reset (s : BitSet) : BitSet := ⟨s.words.map fun _ => 0⟩

/-- The same keys, in however many words. -/
def sameKeys (s t : BitSet) : Bool :=
  (List.range (max s.words.length t.words.length)).all fun i => s.word i == t.word i

def bitCount (w : BitVec 64) : Nat := (List.range 64).countP w.getLsbD

def size (s : BitSet) : Nat := s.words.foldr (fun w n => bitCount w + n) 0

/-- The position of the lowest bit that is set, or 64. -/
def trailingZeros (w : BitVec 64) : Nat := (List.range 64).findIdx w.getLsbD

/-- Visits the keys of the word at index `i`, clearing the lowest bit each time, as long as the
visitor, given the keys seen so far, asks for more. The result is the list of the keys seen and
whether more are asked for. A word is clear after as many rounds as it has bits. -/
def visitWord (continues : List Nat → Bool) (i : Nat) :
    Nat → BitVec 64 → List Nat → List Nat × Bool
  | 0, _, seen => (seen, true)
  | rounds + 1, w, seen =>
    if w = 0 then (seen, true)
    else
      let j := trailingZeros w
      let seen := seen ++ [64 * i + j]
      if continues seen then visitWord continues i rounds (w &&& ~~~ BitVec.twoPow 64 j) seen
      else (seen, false)

/-- Visits the keys of words from index `i` on. -/
def visitWords (continues : List Nat → Bool) : Nat → List (BitVec 64) → List Nat → List Nat
  | _, [], seen => seen
  | i, w :: ws, seen =>
    match visitWord continues i 64 w seen with
    | (seen, true) => visitWords continues (i + 1) ws seen
    | (seen, false) => seen

/-- Visits keys in ascending order. The result is the list of the keys that were visited. -/
def visit (s : BitSet) (continues : List Nat → Bool) : List Nat :=
  visitWords continues 0 s.words []

/-- The keys in ascending order. -/
def keys (s : BitSet) : List Nat := s.visit fun _ => true

/-- The least key of words from index `i` on, or `-1`. -/
def firstFrom : Nat → List (BitVec 64) → Int
  | _, [] => -1
  | i, w :: ws => if w = 0 then firstFrom (i + 1) ws else 64 * i + trailingZeros w

def first (s : BitSet) : Int := firstFrom 0 s.words

/-- The byte form: a list of the keys, and no value for a set without words. -/
def wire (s : BitSet) : List UInt8 :=
  if s.words.isEmpty then Wire.none else Wire.openList (s.keys.map Wire.number)

end BitSet

end ExprBackend
