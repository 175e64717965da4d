import ExprBackend.Proofs.Allocation
import ExprBackend.Proofs.Renumbering

/-!
# One more binding

A function in which a binding of a new name is put in front of a statement, at any depth. The new
name gets a number in the middle, and all names that come later move up by one. If the new name is
never read, and its value comes from literals only, it is never live, and what is live at the other
points is the same as before.
-/

namespace ExprBackend

def Expr.isConstant : Expr → Bool
  | .atom x => !x.isVar
  | .unary _ x _ => !x.isVar
  | .binary _ l r _ => !l.isVar && !r.isVar
  | _ => false

mutual

/-- The second expression is the first one with the statement `d` put in front of another one, in a
block inside it. -/
inductive Expr.Insertion (d : Expr) : Expr → Expr → Prop
  | bind {name : String} {init init' : Expr} :
    Expr.Insertion d init init' → Expr.Insertion d (.bind name init) (.bind name init')
  | onTrue {cond : Atom} {b b' : List Expr} (onFalse : Option (List Expr)) :
    BlockInsertion d b b' → Expr.Insertion d (.branch cond b onFalse) (.branch cond b' onFalse)
  | onFalse {cond : Atom} {onTrue b b' : List Expr} :
    BlockInsertion d b b' →
      Expr.Insertion d (.branch cond onTrue (some b)) (.branch cond onTrue (some b'))

/-- The second block is the first one with the statement `d` put in front of another one, in the
block itself or in a block inside it. -/
inductive BlockInsertion (d : Expr) : List Expr → List Expr → Prop
  | here {x : Expr} {xs : List Expr} : BlockInsertion d (x :: xs) (d :: x :: xs)
  | inside {x x' : Expr} (xs : List Expr) :
    Expr.Insertion d x x' → BlockInsertion d (x :: xs) (x' :: xs)
  | behind {x : Expr} {xs xs' : List Expr} :
    BlockInsertion d xs xs' → BlockInsertion d (x :: xs) (x :: xs')

end

theorem Atom.reads_of_literal {x : Atom} (h : x.isVar = false) : x.reads = [] := by
  simp [Atom.reads, h]

namespace Expr

variable {v : Expr}

theorem reads_of_isConstant (h : v.isConstant = true) : v.reads = [] := by
  cases v with
  | atom x => exact Atom.reads_of_literal (by simpa [isConstant] using h)
  | unary op x ty => exact Atom.reads_of_literal (by simpa [isConstant] using h)
  | binary op l r ty =>
    simp only [isConstant, Bool.and_eq_true, Bool.not_eq_true'] at h
    rw [reads, Atom.reads_of_literal h.1, Atom.reads_of_literal h.2, List.append_nil]
  | bind name init => cases h
  | branch cond onTrue onFalse => cases h
  | missing => cases h

theorem bindings_of_isConstant (h : v.isConstant = true) : v.bindings = [] := by
  cases v with
  | bind name init => cases h
  | branch cond onTrue onFalse => cases h
  | _ => rfl

theorem isBind_of_isConstant (h : v.isConstant = true) : v.isBind = false := by
  cases v with
  | bind name init => cases h
  | _ => rfl

theorem inScope_of_isConstant (h : v.isConstant = true) (scope : Typing) :
    v.inScope scope = true := by
  cases v with
  | atom x => simpa [isConstant, inScope, Atom.inScope] using Or.inl h
  | unary op x ty => simpa [isConstant, inScope, Atom.inScope] using Or.inl h
  | binary op l r ty =>
    simp only [isConstant, Bool.and_eq_true, Bool.not_eq_true'] at h
    simp [inScope, Atom.inScope, h.1, h.2]
  | bind name init => cases h
  | branch cond onTrue onFalse => cases h
  | missing => cases h

end Expr

section Syntax

variable {n : String} {v : Expr}

theorem BlockInsertion.ne_nil {d : Expr} {b b' : List Expr} (h : BlockInsertion d b b') :
    b ≠ [] ∧ b' ≠ [] := by
  cases h <;> exact ⟨List.cons_ne_nil _ _, List.cons_ne_nil _ _⟩

mutual

theorem Expr.Insertion.ty?_eq {d : Expr} : ∀ {x x' : Expr}, Expr.Insertion d x x' → x'.ty? = x.ty?
  | _, _, .bind h => by
    rw [Expr.ty?, Expr.ty?, h.ty?_eq]
  | _, _, .onTrue _ h => by
    rw [Expr.ty?, Expr.ty?, h.blockTy?_eq]
  | _, _, .onFalse _ => by
    rw [Expr.ty?, Expr.ty?]

theorem BlockInsertion.blockTy?_eq {d : Expr} : ∀ {b b' : List Expr}, BlockInsertion d b b' →
    blockTy? b' = blockTy? b
  | _, _, .here => blockTy?_cons (List.cons_ne_nil _ _)
  | _, _, .inside [] h => by
    rw [blockTy?, blockTy?, h.ty?_eq]
  | _, _, .inside (y :: ys) _ => by
    rw [blockTy?, blockTy?]
  | _, _, .behind h => by
    rw [blockTy?_cons h.ne_nil.1, blockTy?_cons h.ne_nil.2, h.blockTy?_eq]

end

mutual

theorem Expr.Insertion.reads_eq (hv : v.isConstant = true) : ∀ {x x' : Expr},
    Expr.Insertion (.bind n v) x x' → x'.reads = x.reads
  | _, _, .bind h => by
    rw [Expr.reads, Expr.reads, h.reads_eq hv]
  | _, _, .onTrue none h => by
    rw [Expr.reads, Expr.reads, h.blockReads_eq hv]
  | _, _, .onTrue (some b) h => by
    rw [Expr.reads, Expr.reads, h.blockReads_eq hv]
  | _, _, .onFalse h => by
    rw [Expr.reads, Expr.reads, h.blockReads_eq hv]

theorem BlockInsertion.blockReads_eq (hv : v.isConstant = true) : ∀ {b b' : List Expr},
    BlockInsertion (.bind n v) b b' → blockReads b' = blockReads b
  | _, _, .here => by
    rw [blockReads, Expr.reads, Expr.reads_of_isConstant hv, List.nil_append]
  | _, _, .inside _ h => by
    rw [blockReads, blockReads, h.reads_eq hv]
  | _, _, .behind h => by
    rw [blockReads, blockReads, h.blockReads_eq hv]

end

mutual

/-- The names in the order of their numbers, with the new one in the middle. -/
theorem Expr.Insertion.bindings_eq (hv : v.isConstant = true) : ∀ {x x' : Expr},
    Expr.Insertion (.bind n v) x x' → ∃ front back, x.bindings = front ++ back ∧
      x'.bindings = front ++ (n, v.tyOf) :: back
  | _, _, @Expr.Insertion.bind _ name init init' h => by
    obtain ⟨front, back, hinit, hinit'⟩ := h.bindings_eq hv
    have hty : init'.tyOf = init.tyOf := by rw [Expr.tyOf, Expr.tyOf, h.ty?_eq]
    refine ⟨front, back ++ [(name, init.tyOf)], ?_, ?_⟩
    · rw [Expr.bindings, hinit, List.append_assoc]
    · rw [Expr.bindings, hinit', hty, List.append_assoc, List.cons_append]
  | _, _, .onTrue none h => by
    rw [Expr.bindings, Expr.bindings]
    exact h.blockBindings_eq hv
  | _, _, .onTrue (some b) h => by
    obtain ⟨front, back, hfirst, hfirst'⟩ := h.blockBindings_eq hv
    refine ⟨front, back ++ blockBindings b, ?_, ?_⟩
    · rw [Expr.bindings, hfirst, List.append_assoc]
    · rw [Expr.bindings, hfirst', List.append_assoc, List.cons_append]
  | _, _, @Expr.Insertion.onFalse _ _ onTrue _ _ h => by
    obtain ⟨front, back, hsecond, hsecond'⟩ := h.blockBindings_eq hv
    refine ⟨blockBindings onTrue ++ front, back, ?_, ?_⟩
    · rw [Expr.bindings, hsecond, List.append_assoc]
    · rw [Expr.bindings, hsecond', List.append_assoc]

theorem BlockInsertion.blockBindings_eq (hv : v.isConstant = true) : ∀ {b b' : List Expr},
    BlockInsertion (.bind n v) b b' → ∃ front back, blockBindings b = front ++ back ∧
      blockBindings b' = front ++ (n, v.tyOf) :: back
  | _, _, .here => by
    refine ⟨[], _, rfl, ?_⟩
    rw [blockBindings, Expr.bindings, Expr.bindings_of_isConstant hv]
    rfl
  | _, _, .inside xs h => by
    obtain ⟨front, back, hx, hx'⟩ := h.bindings_eq hv
    refine ⟨front, back ++ blockBindings xs, ?_, ?_⟩
    · rw [blockBindings, hx, List.append_assoc]
    · rw [blockBindings, hx', List.append_assoc, List.cons_append]
  | _, _, @BlockInsertion.behind _ x _ _ h => by
    obtain ⟨front, back, hxs, hxs'⟩ := h.blockBindings_eq hv
    refine ⟨x.bindings ++ front, back, ?_, ?_⟩
    · rw [blockBindings, hxs, List.append_assoc]
    · rw [blockBindings, hxs', List.append_assoc]

end

theorem Expr.Insertion.isBind_eq {d x x' : Expr} (h : Expr.Insertion d x x') :
    x'.isBind = x.isBind := by
  cases h <;> rfl

theorem Expr.Insertion.declares_eq {d x x' : Expr} (h : Expr.Insertion d x x') :
    x'.declares = x.declares := by
  cases h with
  | bind h => rw [Expr.declares, Expr.declares, Expr.tyOf, Expr.tyOf, h.ty?_eq]
  | onTrue _ _ => rfl
  | onFalse _ => rfl

theorem Atom.inScope_congr {x : Atom} {s t : Typing}
    (h : ∀ z ∈ x.reads, List.lookup z s = List.lookup z t) : x.inScope s = x.inScope t := by
  cases hvar : x.isVar with
  | false => simp [Atom.inScope, hvar]
  | true => rw [Atom.inScope, Atom.inScope, h x.name (Atom.mem_reads.2 ⟨hvar, rfl⟩)]

mutual

/-- Whether an expression is in scope depends on the names that it reads. -/
theorem Expr.inScope_congr : ∀ (x : Expr) {s t : Typing},
    (∀ z ∈ x.reads, List.lookup z s = List.lookup z t) → x.inScope s = x.inScope t
  | .atom x, s, t, h => by
    rw [Expr.inScope, Expr.inScope]
    exact Atom.inScope_congr h
  | .bind name init, s, t, h => by
    rw [Expr.inScope, Expr.inScope, init.inScope_congr h]
  | .unary op x ty, s, t, h => by
    rw [Expr.inScope, Expr.inScope]
    exact Atom.inScope_congr h
  | .binary op l r ty, s, t, h => by
    simp only [Expr.reads, List.mem_append] at h
    rw [Expr.inScope, Expr.inScope, Atom.inScope_congr fun z hz => h z (Or.inl hz),
      Atom.inScope_congr fun z hz => h z (Or.inr hz)]
  | .branch cond onTrue none, s, t, h => by
    simp only [Expr.reads, List.mem_append] at h
    rw [Expr.inScope, Expr.inScope, Atom.inScope_congr fun z hz => h z (Or.inl hz),
      blockInScope_congr onTrue fun z hz => h z (Or.inr hz)]
  | .branch cond onTrue (some b), s, t, h => by
    simp only [Expr.reads, List.mem_append] at h
    rw [Expr.inScope, Expr.inScope, Atom.inScope_congr fun z hz => h z (Or.inl (Or.inl hz)),
      blockInScope_congr onTrue fun z hz => h z (Or.inl (Or.inr hz)),
      blockInScope_congr b fun z hz => h z (Or.inr hz)]
  | .missing, s, t, h => rfl

theorem blockInScope_congr : ∀ (xs : List Expr) {s t : Typing},
    (∀ z ∈ blockReads xs, List.lookup z s = List.lookup z t) → blockInScope xs s = blockInScope xs t
  | [], s, t, h => rfl
  | x :: xs, s, t, h => by
    simp only [blockReads, List.mem_append] at h
    have hrest : ∀ z ∈ blockReads xs,
        List.lookup z (x.declares ++ s) = List.lookup z (x.declares ++ t) := by
      intro z hz
      rw [List.lookup_append, List.lookup_append, h z (Or.inr hz)]
    rw [blockInScope, blockInScope, x.inScope_congr fun z hz => h z (Or.inl hz),
      blockInScope_congr xs hrest]

end

mutual

theorem Expr.Insertion.inScope_eq (hv : v.isConstant = true) (scope : Typing) : ∀ {x x' : Expr},
    Expr.Insertion (.bind n v) x x' → n ∉ x.reads → x'.inScope scope = x.inScope scope
  | _, _, .bind h, hn => by
    rw [Expr.inScope, Expr.inScope, h.isBind_eq, h.inScope_eq hv scope hn]
  | _, _, .onTrue none h, hn => by
    simp only [Expr.reads, List.mem_append, not_or] at hn
    rw [Expr.inScope, Expr.inScope, h.blockInScope_eq hv scope hn.2]
  | _, _, .onTrue (some b) h, hn => by
    simp only [Expr.reads, List.mem_append, not_or] at hn
    rw [Expr.inScope, Expr.inScope, h.blockInScope_eq hv scope hn.1.2]
  | _, _, .onFalse h, hn => by
    simp only [Expr.reads, List.mem_append, not_or] at hn
    rw [Expr.inScope, Expr.inScope, h.blockInScope_eq hv scope hn.2]

theorem BlockInsertion.blockInScope_eq (hv : v.isConstant = true) (scope : Typing) :
    ∀ {b b' : List Expr}, BlockInsertion (.bind n v) b b' → n ∉ blockReads b →
      blockInScope b' scope = blockInScope b scope
  | _, _, @BlockInsertion.here _ x xs, hn => by
    have hunread : ∀ z ∈ blockReads (x :: xs),
        List.lookup z ((n, v.tyOf) :: scope) = List.lookup z scope := by
      intro z hz
      have hne : z ≠ n := fun h => hn (h ▸ hz)
      rw [List.lookup_cons, beq_false_of_ne hne]
    rw [blockInScope, Expr.inScope, Expr.isBind_of_isConstant hv, Expr.inScope_of_isConstant hv,
      Expr.declares]
    exact blockInScope_congr (x :: xs) hunread
  | _, _, .inside xs h, hn => by
    simp only [blockReads, List.mem_append, not_or] at hn
    rw [blockInScope, blockInScope, h.declares_eq, h.inScope_eq hv scope hn.1]
  | _, _, .behind h, hn => by
    simp only [blockReads, List.mem_append, not_or] at hn
    rw [blockInScope, blockInScope, h.blockInScope_eq hv _ hn.2]

end

end Syntax

def Expr.Avoids (n : String) (x : Expr) : Prop := n ∉ x.reads ∧ n ∉ x.bindings.map Prod.fst

def BlockAvoids (n : String) (xs : List Expr) : Prop :=
  n ∉ blockReads xs ∧ n ∉ (blockBindings xs).map Prod.fst

section Avoids

variable {n name : String} {x init : Expr} {xs onTrue b : List Expr} {cond : Atom}

theorem Expr.avoids_bind : (Expr.bind name init).Avoids n ↔ init.Avoids n ∧ n ≠ name := by
  simp only [Expr.Avoids, Expr.reads, Expr.bindings, List.map_append, List.map_cons, List.map_nil,
    List.mem_append, List.mem_singleton, not_or, and_assoc]

theorem Expr.avoids_branch_none :
    (Expr.branch cond onTrue none).Avoids n ↔ n ∉ cond.reads ∧ BlockAvoids n onTrue := by
  simp only [Expr.Avoids, BlockAvoids, Expr.reads, Expr.bindings, List.mem_append, not_or, and_assoc]

theorem Expr.avoids_branch_some : (Expr.branch cond onTrue (some b)).Avoids n ↔
    n ∉ cond.reads ∧ BlockAvoids n onTrue ∧ BlockAvoids n b := by
  simp only [Expr.Avoids, BlockAvoids, Expr.reads, Expr.bindings, List.map_append, List.mem_append,
    not_or]
  tauto

theorem blockAvoids_cons : BlockAvoids n (x :: xs) ↔ x.Avoids n ∧ BlockAvoids n xs := by
  simp only [Expr.Avoids, BlockAvoids, blockReads, blockBindings, List.map_append, List.mem_append,
    not_or]
  tauto

end Avoids

def shift (k i : Nat) : Nat := if i < k then i else i + 1

theorem strictMono_shift (k : Nat) : StrictMono (shift k) := by
  intro i j hij
  unfold shift
  split <;> split <;> omega

theorem shift_ne (k i : Nat) : shift k i ≠ k := by
  unfold shift
  split <;> omega

theorem getElem?_shift {α : Type} (front back : List α) (a : α) (i : Nat) :
    (front ++ a :: back)[shift front.length i]? = (front ++ back)[i]? := by
  unfold shift
  split
  next h => rw [List.getElem?_append_left h, List.getElem?_append_left h]
  next h =>
    have hi : i + 1 - front.length = i - front.length + 1 := by omega
    rw [List.getElem?_append_right (by omega), List.getElem?_append_right (by omega), hi,
      List.getElem?_cons_succ]

namespace Variables

/-- The second table has the names of the first one under new numbers in the same order, and one
name more. -/
structure Widens (σ : Nat → Nat) (k : Nat) (n : String) (vars vars' : Variables) : Prop where
  mono : StrictMono σ
  apart : ∀ v, σ v ≠ k
  new : vars'.find? n = some k
  old : ∀ z, z ≠ n → vars'.find? z = (vars.find? z).map σ
  ty_eq : ∀ v, vars'.ty (σ v) = vars.ty v

theorem widens_insert {front back : Typing} {n : String} {ty : Ty}
    (hnodup : ((front ++ (n, ty) :: back).map Prod.fst).Nodup) :
    Widens (shift front.length) front.length n (ofTyping (front ++ back))
      (ofTyping (front ++ (n, ty) :: back)) where
  mono := strictMono_shift _
  apart := shift_ne _
  new := (find?_eq_some_iff hnodup).2 ⟨ty, by simp⟩
  old z hz := by
    have hsublist : ((front ++ back).map Prod.fst).Sublist
        ((front ++ (n, ty) :: back).map Prod.fst) :=
      ((List.sublist_cons_self _ back).append_left front).map _
    cases hfind : (ofTyping (front ++ back)).find? z with
    | some u =>
      obtain ⟨t, ht⟩ := (find?_eq_some_iff (hnodup.sublist hsublist)).1 hfind
      exact (find?_eq_some_iff hnodup).2 ⟨t, (getElem?_shift front back _ u).trans ht⟩
    | none =>
      have hfresh := find?_eq_none_iff.1 hfind
      refine find?_eq_none_iff.2 fun hmem => hfresh ?_
      simp only [List.map_append, List.map_cons, List.mem_append, List.mem_cons] at hmem ⊢
      tauto
  ty_eq u := by
    simp only [Variables.ty, ofTyping, List.getElem?_toArray, List.getElem?_map, getElem?_shift]

end Variables

/-- The second set has the members of the first one under new numbers. -/
def BitSet.Moves (σ : Nat → Nat) (s s' : BitSet) : Prop :=
  ∀ u, s'.contains u = true ↔ ∃ v, u = σ v ∧ s.contains v = true

namespace BitSet.Moves

variable {σ : Nat → Nat} {s s' t t' : BitSet}

theorem contains_iff (h : Moves σ s s') (hσ : StrictMono σ) (v : Nat) :
    s'.contains (σ v) = true ↔ s.contains v = true := by
  rw [h]
  constructor
  · rintro ⟨u, huv, hu⟩
    rwa [hσ.injective huv]
  · intro hv
    exact ⟨v, rfl, hv⟩

theorem insertAll (h : Moves σ s s') (vs : List Nat) :
    Moves σ (vs.foldl BitSet.insert s) ((vs.map σ).foldl BitSet.insert s') := by
  intro u
  simp only [BitSet.contains_insertAll, List.mem_map, h u]
  constructor
  · rintro (⟨v, hv, rfl⟩ | ⟨v, rfl, hv⟩)
    · exact ⟨v, rfl, Or.inl hv⟩
    · exact ⟨v, rfl, Or.inr hv⟩
  · rintro ⟨v, rfl, hv | hv⟩
    · exact Or.inl ⟨v, hv, rfl⟩
    · exact Or.inr ⟨v, rfl, hv⟩

theorem eraseAll (h : Moves σ s s') (hσ : StrictMono σ) (vs : List Nat) :
    Moves σ (vs.foldl BitSet.erase s) ((vs.map σ).foldl BitSet.erase s') := by
  intro u
  simp only [BitSet.contains_eraseAll, List.mem_map, h u]
  constructor
  · rintro ⟨hne, v, rfl, hv⟩
    exact ⟨v, rfl, fun hmem => hne ⟨v, hmem, rfl⟩, hv⟩
  · rintro ⟨v, rfl, hne, hv⟩
    refine ⟨?_, v, rfl, hv⟩
    rintro ⟨w, hw, hwv⟩
    exact hne (hσ.injective hwv ▸ hw)

theorem merge (h : Moves σ s s') (h' : Moves σ t t') : Moves σ (s.merge t) (s'.merge t') := by
  intro u
  simp only [BitSet.contains_merge, Bool.or_eq_true, h u, h' u]
  constructor
  · rintro (⟨v, rfl, hv⟩ | ⟨v, rfl, hv⟩)
    · exact ⟨v, rfl, Or.inl hv⟩
    · exact ⟨v, rfl, Or.inr hv⟩
  · rintro ⟨v, rfl, hv | hv⟩
    · exact Or.inl ⟨v, rfl, hv⟩
    · exact Or.inr ⟨v, rfl, hv⟩

/-- A number that no member moves to may be erased. -/
theorem erase {k : Nat} (h : Moves σ s s') (hk : ∀ v, σ v ≠ k) : Moves σ s (s'.erase k) := by
  intro u
  rw [BitSet.contains_erase, Bool.and_eq_true, h u]
  constructor
  · exact And.right
  · rintro ⟨v, rfl, hv⟩
    exact ⟨by simpa using hk v, v, rfl, hv⟩

end BitSet.Moves

namespace Liveness

variable {σ : Nat → Nat} {k : Nat} {n : String} {vars vars' : Variables}

theorem ids_widens (hw : vars.Widens σ k n vars') {x : Atom} (hn : n ∉ x.reads) :
    x.ids vars' = (x.ids vars).map σ := by
  rw [Atom.ids_eq, Atom.ids_eq, List.map_filterMap]
  refine List.filterMap_congr fun z hz => ?_
  rw [hw.old z fun h => hn (h ▸ hz)]

theorem moves_read (hw : vars.Widens σ k n vars') {s s' : BitSet} (h : s.Moves σ s') {x : Atom}
    (hn : n ∉ x.reads) : BitSet.Moves σ ((x.ids vars).foldl BitSet.insert s)
      ((x.ids vars').foldl BitSet.insert s') := by
  rw [ids_widens hw hn]
  exact h.insertAll _

theorem moves_bind (hw : vars.Widens σ k n vars') {s s' : BitSet} (h : s.Moves σ s') {name : String}
    (hne : n ≠ name) : BitSet.Moves σ ((vars.find? name).toList.foldl BitSet.erase s)
      ((vars'.find? name).toList.foldl BitSet.erase s') := by
  rw [hw.old name hne.symm, Option.toList_map]
  exact h.eraseAll hw.mono _

mutual

/-- What is live before an expression moves along with what is live behind it. -/
theorem moves_liveExpr (hw : vars.Widens σ k n vars') : ∀ (x : Expr) {s s' : BitSet}, x.Avoids n →
    s.Moves σ s' → BitSet.Moves σ (liveExpr vars x s) (liveExpr vars' x s')
  | .atom x, s, s', hn, h => by
    rw [liveExpr, liveExpr]
    exact moves_read hw h hn.1
  | .bind name init, s, s', hn, h => by
    obtain ⟨hinit, hname⟩ := Expr.avoids_bind.1 hn
    rw [liveExpr, liveExpr]
    exact moves_bind hw (moves_liveExpr hw init hinit h) hname
  | .unary op x ty, s, s', hn, h => by
    rw [liveExpr, liveExpr]
    exact moves_read hw h hn.1
  | .binary op l r ty, s, s', hn, h => by
    have hreads := hn.1
    rw [Expr.reads, List.mem_append, not_or] at hreads
    rw [liveExpr, liveExpr]
    exact moves_read hw (moves_read hw h hreads.1) hreads.2
  | .branch cond onTrue none, s, s', hn, h => by
    obtain ⟨hcond, htrue⟩ := Expr.avoids_branch_none.1 hn
    simp only [liveExpr]
    exact moves_read hw (h.merge (moves_liveBlock hw onTrue htrue h)) hcond
  | .branch cond onTrue (some b), s, s', hn, h => by
    obtain ⟨hcond, htrue, hfalse⟩ := Expr.avoids_branch_some.1 hn
    simp only [liveExpr]
    exact moves_read hw ((moves_liveBlock hw b hfalse h).merge (moves_liveBlock hw onTrue htrue h))
      hcond
  | .missing, s, s', hn, h => by
    rw [liveExpr, liveExpr]
    exact h

theorem moves_liveBlock (hw : vars.Widens σ k n vars') : ∀ (xs : List Expr) {s s' : BitSet},
    BlockAvoids n xs → s.Moves σ s' → BitSet.Moves σ (liveBlock vars xs s) (liveBlock vars' xs s')
  | [], s, s', hn, h => by
    rw [liveBlock, liveBlock]
    exact h
  | x :: xs, s, s', hn, h => by
    obtain ⟨hx, hxs⟩ := blockAvoids_cons.1 hn
    rw [liveBlock, liveBlock]
    exact moves_liveExpr hw x hx (moves_liveBlock hw xs hxs h)

end

/-- Before the new binding the same is live as behind it. -/
theorem liveExpr_constant {v : Expr} (hv : v.isConstant = true) (s : BitSet) :
    liveExpr vars v s = s := by
  have hids {x : Atom} (hx : x.isVar = false) : x.ids vars = [] := by simp [Atom.ids, hx]
  cases v with
  | atom x => rw [liveExpr, hids (by simpa [Expr.isConstant] using hv), List.foldl_nil]
  | unary op x ty => rw [liveExpr, hids (by simpa [Expr.isConstant] using hv), List.foldl_nil]
  | binary op l r ty =>
    simp only [Expr.isConstant, Bool.and_eq_true, Bool.not_eq_true'] at hv
    rw [liveExpr, hids hv.1, hids hv.2, List.foldl_nil, List.foldl_nil]
  | bind name init => cases hv
  | branch cond onTrue onFalse => cases hv
  | missing => cases hv

theorem moves_newBinding (hw : vars.Widens σ k n vars') {v : Expr} (hv : v.isConstant = true)
    {s s' : BitSet} (h : s.Moves σ s') : BitSet.Moves σ s (liveExpr vars' (.bind n v) s') := by
  rw [liveExpr, liveExpr_constant hv, hw.new]
  exact h.erase hw.apart

end Liveness

section Live

open Liveness

variable {σ : Nat → Nat} {k : Nat} {n : String} {vars vars' : Variables} {v : Expr}

mutual

theorem Expr.Insertion.moves_live (hw : vars.Widens σ k n vars') (hv : v.isConstant = true) :
    ∀ {x x' : Expr} {s s' : BitSet}, Expr.Insertion (.bind n v) x x' → x.Avoids n → s.Moves σ s' →
      BitSet.Moves σ (liveExpr vars x s) (liveExpr vars' x' s')
  | _, _, s, s', .bind hi, hn, h => by
    obtain ⟨hinit, hname⟩ := Expr.avoids_bind.1 hn
    rw [liveExpr, liveExpr]
    exact moves_bind hw (hi.moves_live hw hv hinit h) hname
  | _, _, s, s', .onTrue none hi, hn, h => by
    obtain ⟨hcond, htrue⟩ := Expr.avoids_branch_none.1 hn
    simp only [liveExpr]
    exact moves_read hw (h.merge (hi.moves_live hw hv htrue h)) hcond
  | _, _, s, s', .onTrue (some b) hi, hn, h => by
    obtain ⟨hcond, htrue, hfalse⟩ := Expr.avoids_branch_some.1 hn
    simp only [liveExpr]
    exact moves_read hw ((moves_liveBlock hw b hfalse h).merge (hi.moves_live hw hv htrue h)) hcond
  | _, _, s, s', @Expr.Insertion.onFalse _ _ onTrue _ _ hi, hn, h => by
    obtain ⟨hcond, htrue, hfalse⟩ := Expr.avoids_branch_some.1 hn
    simp only [liveExpr]
    exact moves_read hw ((hi.moves_live hw hv hfalse h).merge (moves_liveBlock hw onTrue htrue h))
      hcond

theorem BlockInsertion.moves_live (hw : vars.Widens σ k n vars') (hv : v.isConstant = true) :
    ∀ {b b' : List Expr} {s s' : BitSet}, BlockInsertion (.bind n v) b b' → BlockAvoids n b →
      s.Moves σ s' → BitSet.Moves σ (liveBlock vars b s) (liveBlock vars' b' s')
  | _, _, s, s', @BlockInsertion.here _ x xs, hn, h => by
    have hnew : liveBlock vars' (.bind n v :: x :: xs) s' =
        liveExpr vars' (.bind n v) (liveBlock vars' (x :: xs) s') := by
      rw [liveBlock]
    rw [hnew]
    exact moves_newBinding hw hv (moves_liveBlock hw (x :: xs) hn h)
  | _, _, s, s', .inside xs hi, hn, h => by
    obtain ⟨hx, hxs⟩ := blockAvoids_cons.1 hn
    rw [liveBlock, liveBlock]
    exact hi.moves_live hw hv hx (moves_liveBlock hw xs hxs h)
  | _, _, s, s', @BlockInsertion.behind _ x _ _ hi, hn, h => by
    obtain ⟨hx, hxs⟩ := blockAvoids_cons.1 hn
    rw [liveBlock, liveBlock]
    exact moves_liveExpr hw x hx (hi.moves_live hw hv hxs h)

end

/-- At every point of either list the same is live as at some point of the other one, up to the
numbers. -/
structure PointsMove (σ : Nat → Nat) (ps ps' : List Point) : Prop where
  forth : ∀ p ∈ ps, ∃ p' ∈ ps', p.live.Moves σ p'.live
  back : ∀ p' ∈ ps', ∃ p ∈ ps, p.live.Moves σ p'.live

namespace PointsMove

variable {ps ps' qs qs' : List Point}

theorem nil : PointsMove σ [] [] := by
  constructor <;> simp

theorem single {p p' : Point} (h : p.live.Moves σ p'.live) : PointsMove σ [p] [p'] := by
  constructor <;> simpa using h

theorem append (h : PointsMove σ ps ps') (h' : PointsMove σ qs qs') :
    PointsMove σ (ps ++ qs) (ps' ++ qs') := by
  constructor
  · intro p hp
    rcases List.mem_append.1 hp with hp | hp
    · obtain ⟨p', hp', hmoves⟩ := h.forth p hp
      exact ⟨p', List.mem_append_left _ hp', hmoves⟩
    · obtain ⟨p', hp', hmoves⟩ := h'.forth p hp
      exact ⟨p', List.mem_append_right _ hp', hmoves⟩
  · intro p' hp'
    rcases List.mem_append.1 hp' with hp' | hp'
    · obtain ⟨p, hp, hmoves⟩ := h.back p' hp'
      exact ⟨p, List.mem_append_left _ hp, hmoves⟩
    · obtain ⟨p, hp, hmoves⟩ := h'.back p' hp'
      exact ⟨p, List.mem_append_right _ hp, hmoves⟩

/-- A point at which nothing new is live may be added. -/
theorem add (h : PointsMove σ ps ps') {p p' : Point} (hp : p ∈ ps)
    (hmoves : p.live.Moves σ p'.live) : PointsMove σ ps (ps' ++ [p']) := by
  constructor
  · intro q hq
    obtain ⟨q', hq', hqmoves⟩ := h.forth q hq
    exact ⟨q', List.mem_append_left _ hq', hqmoves⟩
  · intro q' hq'
    rcases List.mem_append.1 hq' with hq' | hq'
    · exact h.back q' hq'
    · obtain rfl := List.mem_singleton.1 hq'
      exact ⟨p, hp, hmoves⟩

end PointsMove

mutual

theorem Liveness.innerPoints_move (hw : vars.Widens σ k n vars') : ∀ (x : Expr) {s s' : BitSet},
    x.Avoids n → s.Moves σ s' → PointsMove σ (innerPoints vars x s) (innerPoints vars' x s')
  | .atom x, s, s', hn, h => .nil
  | .bind name init, s, s', hn, h => by
    rw [innerPoints, innerPoints]
    exact innerPoints_move hw init (Expr.avoids_bind.1 hn).1 h
  | .unary op x ty, s, s', hn, h => .nil
  | .binary op l r ty, s, s', hn, h => .nil
  | .branch cond onTrue none, s, s', hn, h => by
    simp only [innerPoints, List.append_nil]
    exact blockPoints_move hw onTrue (Expr.avoids_branch_none.1 hn).2 h
  | .branch cond onTrue (some b), s, s', hn, h => by
    obtain ⟨_, htrue, hfalse⟩ := Expr.avoids_branch_some.1 hn
    simp only [innerPoints]
    exact (blockPoints_move hw onTrue htrue h).append (blockPoints_move hw b hfalse h)
  | .missing, s, s', hn, h => .nil

theorem Liveness.blockPoints_move (hw : vars.Widens σ k n vars') : ∀ (xs : List Expr)
    {s s' : BitSet}, BlockAvoids n xs → s.Moves σ s' →
      PointsMove σ (blockPoints vars xs s) (blockPoints vars' xs s')
  | [], s, s', hn, h => .nil
  | x :: xs, s, s', hn, h => by
    obtain ⟨hx, hxs⟩ := blockAvoids_cons.1 hn
    have hlive := moves_liveBlock hw xs hxs h
    rw [blockPoints, blockPoints]
    exact ((blockPoints_move hw xs hxs h).append (innerPoints_move hw x hx hlive)).append
      (.single (moves_liveExpr hw x hx hlive))

end

theorem Liveness.innerPoints_constant (hv : v.isConstant = true) (s : BitSet) :
    innerPoints vars v s = [] := by
  cases v with
  | bind name init => cases hv
  | branch cond onTrue onFalse => cases hv
  | _ => rfl

mutual

theorem Expr.Insertion.points_move (hw : vars.Widens σ k n vars') (hv : v.isConstant = true) :
    ∀ {x x' : Expr} {s s' : BitSet}, Expr.Insertion (.bind n v) x x' → x.Avoids n → s.Moves σ s' →
      PointsMove σ (innerPoints vars x s) (innerPoints vars' x' s')
  | _, _, s, s', .bind hi, hn, h => by
    rw [innerPoints, innerPoints]
    exact hi.points_move hw hv (Expr.avoids_bind.1 hn).1 h
  | _, _, s, s', .onTrue none hi, hn, h => by
    simp only [innerPoints, List.append_nil]
    exact hi.points_move hw hv (Expr.avoids_branch_none.1 hn).2 h
  | _, _, s, s', .onTrue (some b) hi, hn, h => by
    obtain ⟨_, htrue, hfalse⟩ := Expr.avoids_branch_some.1 hn
    simp only [innerPoints]
    exact (hi.points_move hw hv htrue h).append (blockPoints_move hw b hfalse h)
  | _, _, s, s', @Expr.Insertion.onFalse _ _ onTrue _ _ hi, hn, h => by
    obtain ⟨_, htrue, hfalse⟩ := Expr.avoids_branch_some.1 hn
    simp only [innerPoints]
    exact (blockPoints_move hw onTrue htrue h).append (hi.points_move hw hv hfalse h)

theorem BlockInsertion.points_move (hw : vars.Widens σ k n vars') (hv : v.isConstant = true) :
    ∀ {b b' : List Expr} {s s' : BitSet}, BlockInsertion (.bind n v) b b' → BlockAvoids n b →
      s.Moves σ s' → PointsMove σ (blockPoints vars b s) (blockPoints vars' b' s')
  | _, _, s, s', @BlockInsertion.here _ x xs, hn, h => by
    -- at the new point the same is live as at the statement behind it
    have hlive := moves_newBinding hw hv (moves_liveBlock hw (x :: xs) hn h)
    have hnew : blockPoints vars' (.bind n v :: x :: xs) s' = blockPoints vars' (x :: xs) s' ++
        [⟨.bind n v, liveExpr vars' (.bind n v) (liveBlock vars' (x :: xs) s')⟩] := by
      rw [blockPoints, innerPoints, innerPoints_constant hv, List.append_nil]
    have hnext : ⟨x, liveBlock vars (x :: xs) s⟩ ∈ blockPoints vars (x :: xs) s := by
      rw [blockPoints, liveBlock]
      simp
    rw [hnew]
    exact (blockPoints_move hw (x :: xs) hn h).add hnext hlive
  | _, _, s, s', .inside xs hi, hn, h => by
    obtain ⟨hx, hxs⟩ := blockAvoids_cons.1 hn
    have hlive := moves_liveBlock hw xs hxs h
    rw [blockPoints, blockPoints]
    exact ((blockPoints_move hw xs hxs h).append (hi.points_move hw hv hx hlive)).append
      (.single (hi.moves_live hw hv hx hlive))
  | _, _, s, s', @BlockInsertion.behind _ x _ _ hi, hn, h => by
    obtain ⟨hx, hxs⟩ := blockAvoids_cons.1 hn
    have hlive := hi.moves_live hw hv hxs h
    rw [blockPoints, blockPoints]
    exact ((hi.points_move hw hv hxs h).append (innerPoints_move hw x hx hlive)).append
      (.single (moves_liveExpr hw x hx hlive))

end

end Live

end ExprBackend
