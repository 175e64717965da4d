import ExprBackend.Expr.Liveness
import ExprBackend.Proofs.BitSet
import ExprBackend.Proofs.Results

/-!
# The walk as a function

For a block whose names all have numbers the walk never fails. Its three results are given here
as functions of their own: the set that is live before the block, the reads that are counted, and
the points on the way with the sets that are live there.
-/

namespace ExprBackend

def Atom.numbered (vars : Variables) (x : Atom) : Bool := !x.isVar || (vars.find? x.name).isSome

mutual

/-- Every name in an expression has a number, and no part is missing. -/
def Expr.numbered (vars : Variables) : Expr → Bool
  | .atom x => x.numbered vars
  | .bind name init => (vars.find? name).isSome && init.numbered vars
  | .unary _ x _ => x.numbered vars
  | .binary _ l r _ => l.numbered vars && r.numbered vars
  | .branch cond onTrue onFalse =>
    cond.numbered vars && blockNumbered vars onTrue &&
      match onFalse with
      | some b => blockNumbered vars b
      | none => true
  | .missing => false

def blockNumbered (vars : Variables) : List Expr → Bool
  | [] => true
  | x :: xs => x.numbered vars && blockNumbered vars xs

end

def Atom.ids (vars : Variables) (x : Atom) : List Nat :=
  if x.isVar then (vars.find? x.name).toList else []

namespace Liveness

mutual

/-- What is live before an expression, from what is live after it. -/
def liveExpr (vars : Variables) : Expr → BitSet → BitSet
  | .atom x, s => (x.ids vars).foldl BitSet.insert s
  | .bind name init, s => (vars.find? name).toList.foldl BitSet.erase (liveExpr vars init s)
  | .unary _ x _, s => (x.ids vars).foldl BitSet.insert s
  | .binary _ l r _, s => (r.ids vars).foldl BitSet.insert ((l.ids vars).foldl BitSet.insert s)
  | .branch cond onTrue onFalse, s =>
    let second := match onFalse with
      | some b => liveBlock vars b s
      | none => s
    (cond.ids vars).foldl BitSet.insert (second.merge (liveBlock vars onTrue s))
  | .missing, s => s

def liveBlock (vars : Variables) : List Expr → BitSet → BitSet
  | [], s => s
  | x :: xs, s => liveExpr vars x (liveBlock vars xs s)

end

mutual

/-- The reads of an expression, counted on top of others. -/
def freqExpr (vars : Variables) : Expr → Frequency → Frequency
  | .atom x, f => (x.ids vars).foldl Frequency.addRead f
  | .bind name init, f => (vars.find? name).toList.foldl Frequency.note (freqExpr vars init f)
  | .unary _ x _, f => (x.ids vars).foldl Frequency.addRead f
  | .binary _ l r _, f =>
    (r.ids vars).foldl Frequency.addRead ((l.ids vars).foldl Frequency.addRead f)
  | .branch cond onTrue onFalse, f =>
    let first := freqBlock vars onTrue f
    (cond.ids vars).foldl Frequency.addRead (match onFalse with
      | some b => freqBlock vars b first
      | none => first)
  | .missing, f => f

def freqBlock (vars : Variables) : List Expr → Frequency → Frequency
  | [], f => f
  | x :: xs, f => freqExpr vars x (freqBlock vars xs f)

end

mutual

def innerPoints (vars : Variables) : Expr → BitSet → List Point
  | .bind _ init, s => innerPoints vars init s
  | .branch _ onTrue onFalse, s =>
    blockPoints vars onTrue s ++ match onFalse with
      | some b => blockPoints vars b s
      | none => []
  | _, _ => []

/-- The points of a block in the order of the walk: the last statement comes first, and what is
inside a statement before the statement. -/
def blockPoints (vars : Variables) : List Expr → BitSet → List Point
  | [], _ => []
  | x :: xs, s =>
    blockPoints vars xs s ++ innerPoints vars x (liveBlock vars xs s) ++
      [⟨x, liveExpr vars x (liveBlock vars xs s)⟩]

end

theorem read_ok {vars : Variables} {x : Atom} (h : x.numbered vars = true) (s : Liveness) :
    read vars x s = .ok ((), { s with
      live := (x.ids vars).foldl BitSet.insert s.live
      freq := (x.ids vars).foldl Frequency.addRead s.freq }) := by
  by_cases hvar : x.isVar = true
  · cases hfind : vars.find? x.name with
    | none => simp [Atom.numbered, hvar, hfind] at h
    | some v =>
      simp only [read, hvar, if_true, Variables.number, hfind, Atom.ids, Option.toList_some,
        List.foldl_cons, List.foldl_nil]
      rfl
  · simp only [read, hvar, Atom.ids, Bool.false_eq_true, if_false, List.foldl_nil]
    rfl

def afterExpr (vars : Variables) (x : Expr) (s : Liveness) : Liveness where
  live := liveExpr vars x s.live
  freq := freqExpr vars x s.freq
  points := s.points ++ innerPoints vars x s.live

def afterBlock (vars : Variables) (b : List Expr) (s : Liveness) : Liveness where
  live := liveBlock vars b s.live
  freq := freqBlock vars b s.freq
  points := s.points ++ blockPoints vars b s.live

theorem number_ok {vars : Variables} {name : String} {v : Nat} (h : vars.find? name = some v) :
    vars.number name = .ok v := by
  rw [Variables.number, h]

theorem walkBind_ok {vars : Variables} {name : String} {init : Expr} {s s' : Liveness} {v : Nat}
    (hinit : walkExpr vars init s = .ok ((), s')) (hv : vars.find? name = some v) :
    walkExpr vars (.bind name init) s =
      .ok ((), { s' with live := s'.live.erase v, freq := s'.freq.note v }) := by
  rw [walkExpr, StateT.bind_of_ok hinit, number_ok hv]
  rfl

theorem walkBranch_ok {vars : Variables} {cond : Atom} {onTrue : List Expr}
    {onFalse : Option (List Expr)} {s : Liveness} (hcond : cond.numbered vars = true)
    (htrue : walkBlock vars onTrue s = .ok ((), afterBlock vars onTrue s))
    (hfalse : ∀ b, onFalse = some b →
      ∀ s : Liveness, walkBlock vars b s = .ok ((), afterBlock vars b s)) :
    walkExpr vars (.branch cond onTrue onFalse) s =
      .ok ((), afterExpr vars (.branch cond onTrue onFalse) s) := by
  have hget (s : Liveness) : (get : Walk Liveness) s = .ok (s, s) := rfl
  have hmodify (f : Liveness → Liveness) (s : Liveness) :
      (modify f : Walk PUnit) s = .ok (⟨⟩, f s) := rfl
  rw [walkExpr, StateT.bind_of_ok (hget s), StateT.bind_of_ok htrue, StateT.bind_of_ok (hget _),
    StateT.bind_of_ok (hmodify _ _)]
  cases onFalse with
  | none =>
    refine (read_ok hcond _).trans ?_
    simp only [afterExpr, afterBlock, liveExpr, freqExpr, innerPoints, List.append_nil]
  | some b =>
    refine (StateT.bind_of_ok (hfalse b rfl _)).trans ?_
    refine (read_ok hcond _).trans ?_
    simp only [afterExpr, afterBlock, liveExpr, freqExpr, innerPoints, List.append_assoc]

mutual

theorem walkExpr_ok (vars : Variables) : ∀ (x : Expr) (s : Liveness), x.numbered vars = true →
    walkExpr vars x s = .ok ((), afterExpr vars x s)
  | .atom x, s, h => by
    rw [walkExpr, read_ok h]
    simp only [afterExpr, liveExpr, freqExpr, innerPoints, List.append_nil]
  | .bind name init, s, h => by
    rw [Expr.numbered, Bool.and_eq_true, Option.isSome_iff_exists] at h
    obtain ⟨⟨v, hv⟩, hinit⟩ := h
    rw [walkBind_ok (walkExpr_ok vars init s hinit) hv]
    simp only [afterExpr, liveExpr, freqExpr, innerPoints, hv, Option.toList_some, List.foldl_cons,
      List.foldl_nil]
  | .unary op x ty, s, h => by
    rw [walkExpr, read_ok h]
    simp only [afterExpr, liveExpr, freqExpr, innerPoints, List.append_nil]
  | .binary op l r ty, s, h => by
    rw [Expr.numbered, Bool.and_eq_true] at h
    rw [walkExpr, StateT.bind_of_ok (read_ok h.1 s), read_ok h.2]
    simp only [afterExpr, liveExpr, freqExpr, innerPoints, List.append_nil]
  | .branch cond onTrue none, s, h => by
    simp only [Expr.numbered, Bool.and_eq_true] at h
    exact walkBranch_ok h.1.1 (walkBlock_ok vars onTrue s h.1.2) (by simp)
  | .branch cond onTrue (some b), s, h => by
    simp only [Expr.numbered, Bool.and_eq_true] at h
    refine walkBranch_ok h.1.1 (walkBlock_ok vars onTrue s h.1.2) ?_
    intro b' hb s
    cases hb
    exact walkBlock_ok vars b s h.2
  | .missing, s, h => by cases h

theorem walkBlock_ok (vars : Variables) : ∀ (xs : List Expr) (s : Liveness),
    blockNumbered vars xs = true → walkBlock vars xs s = .ok ((), afterBlock vars xs s)
  | [], s, _ => by
    simp only [walkBlock, afterBlock, liveBlock, freqBlock, blockPoints, List.append_nil]
    rfl
  | x :: xs, s, h => by
    rw [blockNumbered, Bool.and_eq_true] at h
    rw [walkBlock, StateT.bind_of_ok (walkBlock_ok vars xs s h.2),
      StateT.bind_of_ok (walkExpr_ok vars x _ h.1)]
    change Except.ok _ = Except.ok _
    simp only [afterBlock, afterExpr, liveBlock, freqBlock, blockPoints, List.append_assoc]

end

theorem ofBlock_ok {vars : Variables} {b : List Expr} (h : blockNumbered vars b = true)
    (seed : BitSet) : ofBlock vars seed b = .ok (afterBlock vars b { live := seed }) := by
  simp only [ofBlock, StateT.run, walkBlock_ok vars b { live := seed } h]
  rfl

end Liveness

end ExprBackend
