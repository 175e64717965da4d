import ExprBackend.Proofs.Variables
import ExprBackend.Proofs.Walk
import Mathlib.Data.List.Forall2

/-!
# Liveness is exact

A run through a block is a sequence of events: variables are read and bound, and every condition
takes one of its branches. A variable is live before a statement if on some run from there it is
read before it is bound, or it is not bound at all and is live at the end. The walk finds exactly
these sets, before the block and at every point of it.
-/

namespace ExprBackend

inductive Event where
  | read (v : Nat)
  | bind (v : Nat)
deriving DecidableEq, Repr

namespace Event

def ReadsFirst (v : Nat) (t : List Event) : Prop :=
  ∃ before after, t = before ++ .read v :: after ∧ .bind v ∉ before

/-- A variable is live at the start of a run if `live` says so of its end. -/
def LiveAtStart (v : Nat) (live : Prop) (t : List Event) : Prop :=
  ReadsFirst v t ∨ (.bind v ∉ t ∧ live)

variable {v : Nat} {live : Prop}

@[simp] theorem liveAtStart_nil : LiveAtStart v live [] ↔ live := by
  simp [LiveAtStart, ReadsFirst]

@[simp] theorem liveAtStart_read {u : Nat} {t : List Event} :
    LiveAtStart v live (.read u :: t) ↔ v = u ∨ LiveAtStart v live t := by
  constructor
  · rintro (⟨before, after, ht, hno⟩ | ⟨hno, hlive⟩)
    · cases before with
      | nil =>
        rw [List.nil_append, List.cons.injEq, Event.read.injEq] at ht
        exact Or.inl ht.1.symm
      | cons e before =>
        rw [List.cons_append, List.cons.injEq] at ht
        exact Or.inr (Or.inl ⟨before, after, ht.2, fun h => hno (List.mem_cons_of_mem _ h)⟩)
    · exact Or.inr (Or.inr ⟨fun h => hno (List.mem_cons_of_mem _ h), hlive⟩)
  · rintro (rfl | ⟨before, after, rfl, hno⟩ | ⟨hno, hlive⟩)
    · exact Or.inl ⟨[], t, rfl, by simp⟩
    · exact Or.inl ⟨.read u :: before, after, rfl, by simpa using hno⟩
    · exact Or.inr ⟨by simpa using hno, hlive⟩

@[simp] theorem liveAtStart_bind {u : Nat} {t : List Event} :
    LiveAtStart v live (.bind u :: t) ↔ v ≠ u ∧ LiveAtStart v live t := by
  constructor
  · rintro (⟨before, after, ht, hno⟩ | ⟨hno, hlive⟩)
    · cases before with
      | nil => simp at ht
      | cons e before =>
        rw [List.cons_append, List.cons.injEq] at ht
        rw [← ht.1, List.mem_cons, not_or] at hno
        exact ⟨fun h => hno.1 (h ▸ rfl), Or.inl ⟨before, after, ht.2, hno.2⟩⟩
    · rw [List.mem_cons, not_or] at hno
      exact ⟨fun h => hno.1 (h ▸ rfl), Or.inr ⟨hno.2, hlive⟩⟩
  · rintro ⟨hne, ⟨before, after, rfl, hno⟩ | ⟨hno, hlive⟩⟩
    · exact Or.inl ⟨.bind u :: before, after, rfl, by simpa using ⟨hne, hno⟩⟩
    · exact Or.inr ⟨by simpa using ⟨hne, hno⟩, hlive⟩

theorem liveAtStart_append {t u : List Event} :
    LiveAtStart v live (t ++ u) ↔ LiveAtStart v (LiveAtStart v live u) t := by
  induction t with
  | nil => simp
  | cons e t ih => cases e <;> simp [ih]

/-- What is live at the end may be known of one run out of several. -/
theorem liveAtStart_exists {us : List (List Event)} (hne : us ≠ []) {t : List Event} :
    LiveAtStart v (∃ u ∈ us, LiveAtStart v live u) t ↔
      ∃ u ∈ us, LiveAtStart v (LiveAtStart v live u) t := by
  obtain ⟨w, hw⟩ := List.exists_mem_of_ne_nil us hne
  constructor
  · rintro (hfirst | ⟨hno, u, hu, hlive⟩)
    · exact ⟨w, hw, Or.inl hfirst⟩
    · exact ⟨u, hu, Or.inr ⟨hno, hlive⟩⟩
  · rintro ⟨u, hu, hfirst | ⟨hno, hlive⟩⟩
    · exact Or.inl hfirst
    · exact Or.inr ⟨hno, u, hu, hlive⟩

theorem liveAtStart_congr {live' : Prop} (h : live ↔ live') (t : List Event) :
    LiveAtStart v live t ↔ LiveAtStart v live' t := by
  rw [LiveAtStart, LiveAtStart, h]

end Event

open Event

/-- Every run of the first list followed by every run of the second. -/
def joinRuns (ts us : List (List Event)) : List (List Event) :=
  ts.flatMap fun t => us.map (t ++ ·)

theorem mem_joinRuns {ts us : List (List Event)} {r : List Event} :
    r ∈ joinRuns ts us ↔ ∃ t ∈ ts, ∃ u ∈ us, t ++ u = r := by
  simp [joinRuns]

theorem joinRuns_ne_nil {ts us : List (List Event)} (ht : ts ≠ []) (hu : us ≠ []) :
    joinRuns ts us ≠ [] := by
  obtain ⟨t, ht⟩ := List.exists_mem_of_ne_nil ts ht
  obtain ⟨u, hu⟩ := List.exists_mem_of_ne_nil us hu
  exact List.ne_nil_of_mem (mem_joinRuns.2 ⟨t, ht, u, hu, rfl⟩)

/-- Live before two runs in a row is live before the first, with what is live before the second
as its end. -/
theorem exists_joinRuns {ts us : List (List Event)} (hu : us ≠ []) {v : Nat} {live : Prop} :
    (∃ r ∈ joinRuns ts us, LiveAtStart v live r) ↔
      ∃ t ∈ ts, LiveAtStart v (∃ u ∈ us, LiveAtStart v live u) t := by
  simp only [mem_joinRuns]
  constructor
  · rintro ⟨_, ⟨t, ht, u, hu', rfl⟩, hlive⟩
    exact ⟨t, ht, (liveAtStart_exists hu).2 ⟨u, hu', liveAtStart_append.1 hlive⟩⟩
  · rintro ⟨t, ht, hlive⟩
    obtain ⟨u, hu', hlive⟩ := (liveAtStart_exists hu).1 hlive
    exact ⟨t ++ u, ⟨t, ht, u, hu', rfl⟩, liveAtStart_append.2 hlive⟩

def Atom.events (vars : Variables) (x : Atom) : List Event := (x.ids vars).map .read

mutual

/-- All runs of an expression. A name is bound before what it is bound to is run. -/
def Expr.runs (vars : Variables) : Expr → List (List Event)
  | .atom x => [x.events vars]
  | .bind name init => (init.runs vars).map ((vars.find? name).toList.map .bind ++ ·)
  | .unary _ x _ => [x.events vars]
  | .binary _ l r _ => [l.events vars ++ r.events vars]
  | .branch cond onTrue none => (blockRuns vars onTrue ++ [[]]).map (cond.events vars ++ ·)
  | .branch cond onTrue (some b) =>
    (blockRuns vars onTrue ++ blockRuns vars b).map (cond.events vars ++ ·)
  | .missing => [[]]

def blockRuns (vars : Variables) : List Expr → List (List Event)
  | [] => [[]]
  | x :: xs => joinRuns (x.runs vars) (blockRuns vars xs)

end

mutual

theorem Expr.runs_ne_nil (vars : Variables) : ∀ x : Expr, x.runs vars ≠ []
  | .atom x => by simp [Expr.runs]
  | .bind name init => by simpa [Expr.runs] using init.runs_ne_nil vars
  | .unary op x ty => by simp [Expr.runs]
  | .binary op l r ty => by simp [Expr.runs]
  | .branch cond onTrue none => by simp [Expr.runs]
  | .branch cond onTrue (some b) => by simp [Expr.runs, blockRuns_ne_nil vars b]
  | .missing => by simp [Expr.runs]

theorem blockRuns_ne_nil (vars : Variables) : ∀ xs : List Expr, blockRuns vars xs ≠ []
  | [] => by simp [blockRuns]
  | x :: xs => by
    rw [blockRuns]
    exact joinRuns_ne_nil (x.runs_ne_nil vars) (blockRuns_ne_nil vars xs)

end

/-- A statement with all runs from it to the end of the blocks that it stands in, and the number
of conditions around it. -/
structure Occurrence where
  statement : Expr
  depth : Nat
  rest : List (List Event)
deriving Repr

mutual

/-- The statements inside an expression that `after` follows. -/
def innerOccurrences (vars : Variables) (depth : Nat) : Expr → List (List Event) → List Occurrence
  | .bind _ init, after => innerOccurrences vars depth init after
  | .branch _ onTrue none, after => blockOccurrences vars (depth + 1) onTrue after
  | .branch _ onTrue (some b), after =>
    blockOccurrences vars (depth + 1) onTrue after ++ blockOccurrences vars (depth + 1) b after
  | _, _ => []

/-- All statements of a block, from the last to the first and with what is inside a statement in
front of it. -/
def blockOccurrences (vars : Variables) (depth : Nat) :
    List Expr → List (List Event) → List Occurrence
  | [], _ => []
  | x :: xs, after =>
    blockOccurrences vars depth xs after ++
      innerOccurrences vars depth x (joinRuns (blockRuns vars xs) after) ++
      [⟨x, depth, joinRuns (x.runs vars) (joinRuns (blockRuns vars xs) after)⟩]

end

namespace Liveness

variable {vars : Variables} {v : Nat}

theorem liveAtStart_events (x : Atom) {live : Prop} (t : List Event) :
    LiveAtStart v live (x.events vars ++ t) ↔ v ∈ x.ids vars ∨ LiveAtStart v live t := by
  rw [Atom.events]
  induction x.ids vars with
  | nil => simp
  | cons u us ih => simp [ih, or_assoc]

theorem exists_condRuns (x : Atom) {ts : List (List Event)} (hne : ts ≠ []) {live : Prop} :
    (∃ t ∈ ts.map (x.events vars ++ ·), LiveAtStart v live t) ↔
      v ∈ x.ids vars ∨ ∃ t ∈ ts, LiveAtStart v live t := by
  obtain ⟨w, hw⟩ := List.exists_mem_of_ne_nil ts hne
  simp only [List.mem_map, exists_exists_and_eq_and, liveAtStart_events]
  constructor
  · rintro ⟨t, ht, hread | hlive⟩
    · exact Or.inl hread
    · exact Or.inr ⟨t, ht, hlive⟩
  · rintro (hread | ⟨t, ht, hlive⟩)
    · exact ⟨w, hw, Or.inl hread⟩
    · exact ⟨t, ht, Or.inr hlive⟩

theorem liveAtStart_lastEvents (x : Atom) {live : Prop} :
    LiveAtStart v live (x.events vars) ↔ v ∈ x.ids vars ∨ live := by
  have hend : LiveAtStart v live (x.events vars ++ []) ↔ _ := liveAtStart_events x []
  rwa [List.append_nil, liveAtStart_nil] at hend

/-- The reads of a single atom make live what it reads. -/
theorem contains_reads (x : Atom) (s : BitSet) :
    ((x.ids vars).foldl BitSet.insert s).contains v = true ↔
      ∃ t ∈ [x.events vars], LiveAtStart v (s.contains v = true) t := by
  simp only [BitSet.contains_insertAll, List.mem_singleton, exists_eq_left, liveAtStart_lastEvents]

theorem liveAtStart_binds (vs : List Nat) {live : Prop} (t : List Event) :
    LiveAtStart v live (vs.map .bind ++ t) ↔ v ∉ vs ∧ LiveAtStart v live t := by
  induction vs with
  | nil => simp
  | cons u us ih => simp [ih, and_assoc]

mutual

/-- The set before an expression is what its runs make live. -/
theorem contains_liveExpr : ∀ (x : Expr) (s : BitSet),
    (liveExpr vars x s).contains v = true ↔
      ∃ t ∈ x.runs vars, LiveAtStart v (s.contains v = true) t
  | .atom x, s => by rw [liveExpr, Expr.runs, contains_reads]
  | .bind name init, s => by
    rw [liveExpr, BitSet.contains_eraseAll, contains_liveExpr init s]
    simp only [Expr.runs, List.mem_map, exists_exists_and_eq_and, liveAtStart_binds]
    constructor
    · rintro ⟨hno, t, ht, hlive⟩
      exact ⟨t, ht, hno, hlive⟩
    · rintro ⟨t, ht, hno, hlive⟩
      exact ⟨hno, t, ht, hlive⟩
  | .unary op x ty, s => by rw [liveExpr, Expr.runs, contains_reads]
  | .binary op l r ty, s => by
    simp only [liveExpr, BitSet.contains_insertAll, Expr.runs, List.mem_singleton, exists_eq_left,
      liveAtStart_events, liveAtStart_lastEvents]
    exact or_left_comm
  | .branch cond onTrue none, s => by
    rw [Expr.runs, exists_condRuns cond (by simp)]
    simp only [liveExpr, BitSet.contains_insertAll, BitSet.contains_merge, Bool.or_eq_true,
      contains_liveBlock onTrue s, List.mem_append, or_and_right, exists_or, List.mem_singleton,
      exists_eq_left, liveAtStart_nil]
    rw [or_comm (a := s.contains v = true)]
  | .branch cond onTrue (some b), s => by
    rw [Expr.runs, exists_condRuns cond (by simp [blockRuns_ne_nil])]
    simp only [liveExpr, BitSet.contains_insertAll, BitSet.contains_merge, Bool.or_eq_true,
      contains_liveBlock onTrue s, contains_liveBlock b s, List.mem_append, or_and_right,
      exists_or]
    rw [or_comm (b := ∃ t ∈ blockRuns vars onTrue, LiveAtStart v (s.contains v = true) t)]
  | .missing, s => by simp [liveExpr, Expr.runs]

theorem contains_liveBlock : ∀ (xs : List Expr) (s : BitSet),
    (liveBlock vars xs s).contains v = true ↔
      ∃ t ∈ blockRuns vars xs, LiveAtStart v (s.contains v = true) t
  | [], s => by simp [liveBlock, blockRuns]
  | x :: xs, s => by
    rw [liveBlock, contains_liveExpr x, blockRuns, exists_joinRuns (blockRuns_ne_nil vars xs)]
    simp only [liveAtStart_congr (contains_liveBlock xs s)]

end

/-- A point has the set of variables that are live before an occurrence of its statement. -/
def Matches (seed : BitSet) (p : Point) (o : Occurrence) : Prop :=
  p.statement = o.statement ∧
    ∀ v, p.live.contains v = true ↔ ∃ t ∈ o.rest, LiveAtStart v (seed.contains v = true) t

/-- A set is what the given runs make live. -/
def Describes (seed : BitSet) (after : List (List Event)) (s : BitSet) : Prop :=
  ∀ v, s.contains v = true ↔ ∃ t ∈ after, LiveAtStart v (seed.contains v = true) t

section Points

variable {seed s : BitSet} {after : List (List Event)}

theorem describes_expr (x : Expr) (hafter : after ≠ []) (hs : Describes seed after s) :
    Describes seed (joinRuns (x.runs vars) after) (liveExpr vars x s) := by
  intro v
  rw [contains_liveExpr, exists_joinRuns hafter]
  simp only [liveAtStart_congr (hs v)]

theorem describes_block (xs : List Expr) (hafter : after ≠ []) (hs : Describes seed after s) :
    Describes seed (joinRuns (blockRuns vars xs) after) (liveBlock vars xs s) := by
  intro v
  rw [contains_liveBlock, exists_joinRuns hafter]
  simp only [liveAtStart_congr (hs v)]

mutual

theorem innerPoints_matches (depth : Nat) {seed : BitSet} : ∀ (x : Expr) (s : BitSet)
    (after : List (List Event)), after ≠ [] → Describes seed after s →
    List.Forall₂ (Matches seed) (innerPoints vars x s) (innerOccurrences vars depth x after)
  | .atom x, s, after, _, _ => by simp only [innerPoints, innerOccurrences, List.Forall₂.nil]
  | .bind name init, s, after, hafter, hs => by
    simp only [innerPoints, innerOccurrences]
    exact innerPoints_matches depth init s after hafter hs
  | .unary op x ty, s, after, _, _ => by
    simp only [innerPoints, innerOccurrences, List.Forall₂.nil]
  | .binary op l r ty, s, after, _, _ => by
    simp only [innerPoints, innerOccurrences, List.Forall₂.nil]
  | .branch cond onTrue none, s, after, hafter, hs => by
    simp only [innerPoints, innerOccurrences, List.append_nil]
    exact blockPoints_matches (depth + 1) onTrue s after hafter hs
  | .branch cond onTrue (some b), s, after, hafter, hs => by
    simp only [innerPoints, innerOccurrences]
    exact List.rel_append (blockPoints_matches (depth + 1) onTrue s after hafter hs)
      (blockPoints_matches (depth + 1) b s after hafter hs)
  | .missing, s, after, _, _ => by simp only [innerPoints, innerOccurrences, List.Forall₂.nil]

theorem blockPoints_matches (depth : Nat) {seed : BitSet} : ∀ (xs : List Expr) (s : BitSet)
    (after : List (List Event)), after ≠ [] → Describes seed after s →
    List.Forall₂ (Matches seed) (blockPoints vars xs s) (blockOccurrences vars depth xs after)
  | [], s, after, _, _ => by simp only [blockPoints, blockOccurrences, List.Forall₂.nil]
  | x :: xs, s, after, hafter, hs => by
    have hrest := joinRuns_ne_nil (blockRuns_ne_nil vars xs) hafter
    have hlive : Describes seed _ (liveBlock vars xs s) := describes_block xs hafter hs
    rw [blockPoints, blockOccurrences]
    refine List.rel_append (List.rel_append ?_ ?_) ?_
    · exact blockPoints_matches depth xs s after hafter hs
    · exact innerPoints_matches depth x _ _ hrest hlive
    · exact .cons ⟨rfl, describes_expr x hrest hlive⟩ .nil

end

end Points

/-- What is live before each statement of a block itself. -/
def liveEach (vars : Variables) : List Expr → BitSet → List BitSet
  | [], _ => []
  | x :: xs, s => liveBlock vars (x :: xs) s :: liveEach vars xs s

theorem walkEach_ok {xs : List Expr} (s : Liveness) (h : blockNumbered vars xs = true) :
    ∃ s', walkEach vars xs s = .ok (liveEach vars xs s.live, s') ∧
      s'.live = liveBlock vars xs s.live := by
  induction xs with
  | nil => exact ⟨s, rfl, rfl⟩
  | cons x xs ih =>
    rw [blockNumbered, Bool.and_eq_true] at h
    obtain ⟨s', hrest, hlive⟩ := ih h.2
    have hfirst := walkExpr_ok vars x s' h.1
    refine ⟨afterExpr vars x s', ?_, ?_⟩
    · rw [walkEach, StateT.bind_of_ok hrest, StateT.bind_of_ok hfirst]
      change Except.ok _ = Except.ok _
      simp only [afterExpr, liveEach, liveBlock, hlive]
    · simp only [afterExpr, liveBlock, hlive]

/-- The sets of those points that belong to statements at a depth, in program order. -/
def pointsAt (depth : Nat) (points : List Point) (os : List Occurrence) : List BitSet :=
  (((points.zip os).filter fun e => e.2.depth = depth).map fun e => e.1.live).reverse

mutual

theorem lt_depth_inner (depth : Nat) : ∀ (x : Expr) (after : List (List Event)),
    ∀ o ∈ innerOccurrences vars depth x after, depth < o.depth
  | .atom x, after, o, ho => by simp [innerOccurrences] at ho
  | .unary op x ty, after, o, ho => by simp [innerOccurrences] at ho
  | .binary op l r ty, after, o, ho => by simp [innerOccurrences] at ho
  | .missing, after, o, ho => by simp [innerOccurrences] at ho
  | .bind name init, after, o, ho => by
    simp only [innerOccurrences] at ho
    exact lt_depth_inner depth init after o ho
  | .branch cond onTrue none, after, o, ho => by
    simp only [innerOccurrences] at ho
    exact le_depth_block (depth + 1) onTrue after o ho
  | .branch cond onTrue (some b), after, o, ho => by
    simp only [innerOccurrences, List.mem_append] at ho
    rcases ho with ho | ho
    · exact le_depth_block (depth + 1) onTrue after o ho
    · exact le_depth_block (depth + 1) b after o ho

theorem le_depth_block (depth : Nat) : ∀ (xs : List Expr) (after : List (List Event)),
    ∀ o ∈ blockOccurrences vars depth xs after, depth ≤ o.depth
  | [], after, o, ho => by simp [blockOccurrences] at ho
  | x :: xs, after, o, ho => by
    simp only [blockOccurrences, List.mem_append, List.mem_singleton] at ho
    rcases ho with (ho | ho) | rfl
    · exact le_depth_block depth xs after o ho
    · exact Nat.le_of_lt (lt_depth_inner depth x _ o ho)
    · exact Nat.le_refl _

end

theorem pointsAt_append {depth : Nat} {ps qs : List Point} {os us : List Occurrence}
    (h : ps.length = os.length) :
    pointsAt depth (ps ++ qs) (os ++ us) = pointsAt depth qs us ++ pointsAt depth ps os := by
  simp only [pointsAt, List.zip_append h, List.filter_append, List.map_append, List.reverse_append]

/-- The statements of a block itself are those at its depth. -/
theorem pointsAt_block (depth : Nat) {seed s : BitSet} {after : List (List Event)}
    (hafter : after ≠ []) (hs : Describes seed after s) (xs : List Expr) :
    pointsAt depth (blockPoints vars xs s) (blockOccurrences vars depth xs after) =
      liveEach vars xs s := by
  induction xs with
  | nil => simp [blockPoints, blockOccurrences, pointsAt, liveEach]
  | cons x xs ih =>
    have hrest := joinRuns_ne_nil (blockRuns_ne_nil vars xs) hafter
    have hlive : Describes seed _ (liveBlock vars xs s) := describes_block xs hafter hs
    have hblock : (blockPoints vars xs s).length = (blockOccurrences vars depth xs after).length :=
      (blockPoints_matches depth xs s after hafter hs).length_eq
    have hinner : (innerPoints vars x (liveBlock vars xs s)).length =
        (innerOccurrences vars depth x (joinRuns (blockRuns vars xs) after)).length :=
      (innerPoints_matches depth x _ _ hrest hlive).length_eq
    have hnone : pointsAt depth (innerPoints vars x (liveBlock vars xs s))
        (innerOccurrences vars depth x (joinRuns (blockRuns vars xs) after)) = [] := by
      simp only [pointsAt, List.reverse_eq_nil_iff, List.map_eq_nil_iff, List.filter_eq_nil_iff]
      intro e he
      have hdepth := lt_depth_inner depth x _ e.2 (List.of_mem_zip he).2
      simpa using Nat.ne_of_gt hdepth
    rw [blockPoints, blockOccurrences, pointsAt_append (by simp [hblock, hinner]),
      pointsAt_append hblock, hnone, ih, liveEach]
    simp [pointsAt, liveBlock]

theorem length_liveEach (xs : List Expr) (s : BitSet) :
    (liveEach vars xs s).length = xs.length := by
  induction xs with
  | nil => rfl
  | cons x xs ih => rw [liveEach, List.length_cons, List.length_cons, ih]

theorem beforeEach_ok {b : List Expr} (hb : blockNumbered vars b = true) :
    beforeEach vars (some b) = .ok (liveEach vars b {}) := by
  obtain ⟨s', hrun, _⟩ := walkEach_ok {} hb
  simp only [beforeEach, StateT.run', hrun]
  rfl

/-- The walk through a block finds the live variables exactly, before the block and at every
statement in it, and the separate list for the statements of the block itself agrees. -/
theorem walk_exact (vars : Variables) (b : List Expr) (hb : blockNumbered vars b = true)
    (seed : BitSet) :
    ∃ walk befores, ofBlock vars seed b = .ok walk ∧
      (∀ v, walk.live.contains v = true ↔ ∃ t ∈ blockRuns vars b,
        ReadsFirst v t ∨ (.bind v ∉ t ∧ seed.contains v = true)) ∧
      List.Forall₂ (fun p o => p.statement = o.statement ∧
          ∀ v, p.live.contains v = true ↔ ∃ t ∈ o.rest,
            ReadsFirst v t ∨ (.bind v ∉ t ∧ seed.contains v = true))
        walk.points (blockOccurrences vars 0 b [[]]) ∧
      beforeEach vars (some b) = .ok befores ∧ befores.length = b.length ∧
      (seed = {} → befores = pointsAt 0 walk.points (blockOccurrences vars 0 b [[]])) := by
  have hend : Describes seed [[]] seed := fun v => by simp
  refine ⟨_, liveEach vars b {}, ofBlock_ok hb seed, fun v => contains_liveBlock b seed, ?_,
    beforeEach_ok hb, length_liveEach b {}, ?_⟩
  · exact blockPoints_matches 0 b seed [[]] (by simp) hend
  · rintro rfl
    exact (pointsAt_block 0 (by simp) hend b).symm

/-- A variable that only one branch of a condition reads is live before the condition. -/
theorem walk_exact_one_branch :
    let vars : Variables := .ofTyping [("c", .bool), ("a", .int), ("r", .int)]
    let b : Block :=
      [.bind "r" (.branch (.var "c" .bool) [.atom (.var "a" .int)] none), .atom (.var "r" .int)]
    blockNumbered vars b = true ∧
      ∃ walk, ofBlock vars {} b = .ok walk ∧ walk.live.contains 1 = true := by
  intro vars b
  have hb : blockNumbered vars b = true := by decide +kernel
  obtain ⟨walk, _, hwalk, hlive, _⟩ := walk_exact vars b hb {}
  refine ⟨hb, walk, hwalk, (hlive 1).2 ⟨[.bind 2, .read 0, .read 1, .read 2], ?_, Or.inl ?_⟩⟩
  · decide +kernel
  · exact ⟨[.bind 2, .read 0], [.read 2], rfl, by decide⟩

end Liveness

end ExprBackend
