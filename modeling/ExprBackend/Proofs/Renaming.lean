import ExprBackend.Proofs.Compilation
import ExprBackend.Proofs.TwoRuns
import Mathlib.Logic.Equiv.Basic

/-!
# Names do not matter

Names that are renamed without two of them becoming one leave every pass as it is: the variables have
the same numbers, the graphs are the same, and each name is held where the name it stands for was
held. So the code is the same, and a function that has none has none under other names either.
-/

namespace ExprBackend

/-- New names for names. Different names stay different, and what has no name gets none. -/
structure Renaming where
  apply : String → String
  injective : Function.Injective apply
  empty : apply "" = ""

namespace Renaming

instance : CoeFun Renaming fun _ => String → String := ⟨apply⟩

variable (ρ : Renaming)

theorem eq_empty_iff {z : String} : ρ z = "" ↔ z = "" := by
  constructor
  · intro h
    exact ρ.injective (h.trans ρ.empty.symm)
  · rintro rfl
    exact ρ.empty

def swap (y z : String) (hy : y ≠ "") (hz : z ≠ "") : Renaming where
  apply := Equiv.swap y z
  injective := (Equiv.swap y z).injective
  empty := Equiv.swap_apply_of_ne_of_ne hy.symm hz.symm

def keys {α : Type} (xs : List (String × α)) : List (String × α) := xs.map fun e => (ρ e.1, e.2)

theorem lookup_keys {α : Type} (xs : List (String × α)) (z : String) :
    List.lookup (ρ z) (ρ.keys xs) = List.lookup z xs := by
  induction xs with
  | nil => rfl
  | cons e xs ih =>
    rw [keys, List.map_cons, List.lookup_cons, List.lookup_cons]
    by_cases h : z = e.1
    · simp [h]
    · rw [beq_eq_false_iff_ne.2 h, beq_eq_false_iff_ne.2 (ρ.injective.ne h)]
      exact ih

end Renaming

def Atom.rename (ρ : Renaming) (x : Atom) : Atom := { x with name := ρ x.name }

mutual

def Expr.rename (ρ : Renaming) : Expr → Expr
  | .atom x => .atom (x.rename ρ)
  | .bind name init => .bind (ρ name) (init.rename ρ)
  | .unary op x ty => .unary op (x.rename ρ) ty
  | .binary op l r ty => .binary op (l.rename ρ) (r.rename ρ) ty
  | .branch cond onTrue none => .branch (cond.rename ρ) (blockRename ρ onTrue) none
  | .branch cond onTrue (some b) =>
    .branch (cond.rename ρ) (blockRename ρ onTrue) (some (blockRename ρ b))
  | .missing => .missing

def blockRename (ρ : Renaming) : List Expr → List Expr
  | [] => []
  | x :: xs => x.rename ρ :: blockRename ρ xs

end

def Param.rename (ρ : Renaming) (p : Param) : Param := { p with name := ρ p.name }

/-- Other names for all variables of a function, which keeps its own name. -/
def Func.rename (ρ : Renaming) (f : Func) : Func where
  name := f.name
  params := f.params.map (·.rename ρ)
  body := blockRename ρ f.body

variable {ρ : Renaming}

theorem Atom.isVar_rename (x : Atom) : (x.rename ρ).isVar = x.isVar := by
  simp [isVar, rename, ρ.eq_empty_iff]

mutual

theorem Expr.ty?_rename : ∀ x : Expr, (x.rename ρ).ty? = x.ty?
  | .atom x => rfl
  | .bind name init => by rw [Expr.rename, Expr.ty?, Expr.ty?, init.ty?_rename]
  | .unary op x ty => rfl
  | .binary op l r ty => rfl
  | .branch cond onTrue none => by rw [Expr.rename, Expr.ty?, Expr.ty?, blockTy?_rename onTrue]
  | .branch cond onTrue (some b) => by
    rw [Expr.rename, Expr.ty?, Expr.ty?, blockTy?_rename onTrue]
  | .missing => rfl

theorem blockTy?_rename : ∀ xs : List Expr, blockTy? (blockRename ρ xs) = blockTy? xs
  | [] => rfl
  | [x] => by rw [blockRename, blockRename, blockTy?, blockTy?, x.ty?_rename]
  | x :: y :: ys => by
    have hrest := blockTy?_rename (y :: ys)
    rw [blockRename] at hrest
    rw [blockRename, blockRename, blockTy?, blockTy?, hrest]

end

theorem Expr.isBind_rename (x : Expr) : (x.rename ρ).isBind = x.isBind := by
  cases x with
  | branch cond onTrue onFalse => cases onFalse <;> rfl
  | _ => rfl

namespace Variables

/-- A name that is not a new one has no number. -/
def rename (ρ : Renaming) (vars : Variables) : Variables where
  names := vars.names.map ρ
  types := vars.types
  ids := ρ.keys vars.ids
  types_size := by rw [Array.size_map, vars.types_size]
  lookup_ids z := by
    rw [Array.findIdx?_map]
    by_cases h : ∃ y, ρ y = z
    · obtain ⟨y, rfl⟩ := h
      simp [ρ.lookup_keys, vars.lookup_ids, Function.comp_def, ρ.injective.eq_iff]
    · have hkeys : (ρ.keys vars.ids).lookup z = none := by
        rw [List.lookup_eq_none_iff]
        rintro e he
        obtain ⟨d, _, rfl⟩ := List.mem_map.1 he
        simpa using fun heq => h ⟨d.1, heq.symm⟩
      have hnames : vars.names.findIdx? ((fun n => decide (n = z)) ∘ ρ) = none := by
        rw [Array.findIdx?_eq_none_iff]
        intro n _
        simpa using fun heq => h ⟨n, heq⟩
      rw [hkeys, hnames]

variable (vars : Variables)

theorem size_rename : (vars.rename ρ).size = vars.size := by simp [size, rename]

theorem find?_rename (z : String) : (vars.rename ρ).find? (ρ z) = vars.find? z :=
  ρ.lookup_keys vars.ids z

theorem push_rename (z : String) (ty : Ty) :
    (vars.push z ty).rename ρ = (vars.rename ρ).push (ρ z) ty := by
  simp [push, rename, Renaming.keys, size]

theorem name_rename (v : Nat) : (vars.rename ρ).name v = ρ (vars.name v) := by
  have hdefault : (default : String) = "" := rfl
  cases h : vars.names[v]? <;> simp [name, rename, h, ρ.empty, hdefault]

theorem ty_rename (v : Nat) : (vars.rename ρ).ty v = vars.ty v := rfl

theorem isFloat_rename : (vars.rename ρ).isFloat = vars.isFloat := by
  funext v
  rw [isFloat, isFloat, ty_rename]

theorem number_rename (z : String) :
    Except.Related Eq (vars.number z) ((vars.rename ρ).number (ρ z)) := by
  rw [number, number, find?_rename]
  cases vars.find? z with
  | some v => exact .ok rfl
  | none => exact .error _ _

/-- Tables that are the same but for the names. -/
def Renamed (ρ : Renaming) (vars vars' : Variables) : Prop := vars' = vars.rename ρ

theorem add_rename (z : String) (ty : Ty) :
    EStateM.Related (Renamed ρ) (add z ty vars) (add (ρ z) ty (vars.rename ρ)) := by
  rw [add, add, EStateM.get_bind, EStateM.get_bind, find?_rename]
  cases vars.find? z with
  | some v =>
    have hty := vars.ty_rename (ρ := ρ) v
    dsimp only
    by_cases h : vars.ty v = ty
    · rw [if_pos h, if_pos (hty.trans h)]
      exact .ok v rfl
    · rw [if_neg h, if_neg (hty ▸ h)]
      exact .error _ _ _ _
  | none =>
    dsimp only
    rw [size_rename]
    exact .bind (.ok _ (vars.push_rename z ty).symm) fun _ s t hst => .ok _ hst

theorem discard_add_rename (z : String) (ty : Ty) :
    EStateM.Related (Renamed ρ) (discard (add z ty) vars)
      (discard (add (ρ z) ty) (vars.rename ρ)) :=
  EStateM.Related.bind (vars.add_rename z ty) fun _ _ _ h => .ok () h

theorem addAtom_rename (x : Atom) :
    EStateM.Related (Renamed ρ) (addAtom x vars) (addAtom (x.rename ρ) (vars.rename ρ)) := by
  rw [addAtom, addAtom, x.isVar_rename]
  split
  · exact vars.discard_add_rename x.name x.ty
  · exact .ok () rfl

mutual

theorem addExpr_rename : ∀ (x : Expr) (vars : Variables),
    EStateM.Related (Renamed ρ) (addExpr x vars) (addExpr (x.rename ρ) (vars.rename ρ))
  | .atom x, vars => vars.addAtom_rename x
  | .bind name init, vars => by
    rw [Expr.rename, addExpr, addExpr]
    refine .bind (addExpr_rename init vars) ?_
    rintro _ s _ rfl
    rw [init.ty?_rename]
    cases init.ty? with
    | none => exact .error _ _ _ _
    | some ty => exact s.discard_add_rename name ty
  | .unary op x ty, vars => vars.addAtom_rename x
  | .binary op l r ty, vars => by
    rw [Expr.rename, addExpr, addExpr]
    refine .bind (vars.addAtom_rename l) ?_
    rintro _ s _ rfl
    exact s.addAtom_rename r
  | .branch cond onTrue none, vars => by
    rw [Expr.rename, addExpr, addExpr]
    refine .bind (vars.addAtom_rename cond) ?_
    rintro _ s _ rfl
    refine .bind (addBlock_rename onTrue s) ?_
    rintro _ s' _ rfl
    exact .ok () rfl
  | .branch cond onTrue (some b), vars => by
    rw [Expr.rename, addExpr, addExpr]
    refine .bind (vars.addAtom_rename cond) ?_
    rintro _ s _ rfl
    refine .bind (addBlock_rename onTrue s) ?_
    rintro _ s' _ rfl
    exact addBlock_rename b s'
  | .missing, vars => .error _ _ _ _

theorem addBlock_rename : ∀ (xs : List Expr) (vars : Variables),
    EStateM.Related (Renamed ρ) (addBlock xs vars) (addBlock (blockRename ρ xs) (vars.rename ρ))
  | [], vars => .ok () rfl
  | x :: xs, vars => by
    rw [blockRename, addBlock, addBlock]
    refine .bind (addExpr_rename x vars) ?_
    rintro _ s _ rfl
    exact addBlock_rename xs s

end

theorem addParams_rename (ps : List Param) :
    EStateM.Related (Renamed ρ) (addParams ps vars)
      (addParams (ps.map (·.rename ρ)) (vars.rename ρ)) := by
  induction ps generalizing vars with
  | nil => exact .ok () rfl
  | cons p ps ih =>
    rw [List.map_cons, addParams, addParams]
    refine .bind (vars.discard_add_rename p.name p.ty) ?_
    rintro _ s _ rfl
    exact ih s

theorem collect_related {x y : EStateM Failure Variables Unit} {R : Variables → Variables → Prop}
    (h : EStateM.Related R (x empty) (y empty)) : Except.Related R (collect x) (collect y) := by
  unfold collect
  generalize x empty = a, y empty = b at h
  cases h with
  | ok _ h => exact .ok h
  | error e e' => exact .error e e'

/-- A renamed function has the same numbers for its names. -/
theorem ofFunc_rename (f : Func) :
    Except.Related (Renamed ρ) (ofFunc f) (ofFunc (f.rename ρ)) := by
  have hempty : rename ρ empty = empty := by simp [empty, rename, Renaming.keys]
  have hparams := addParams_rename (ρ := ρ) empty f.params
  rw [hempty] at hparams
  refine collect_related (.bind hparams ?_)
  rintro _ s _ rfl
  exact addBlock_rename f.body s

end Variables

theorem Func.numberParams_rename (vars : Variables) (ps : List Param) :
    Except.Related Eq (ps.mapM fun p => vars.number p.name)
      ((ps.map (·.rename ρ)).mapM fun p => (vars.rename ρ).number p.name) := by
  induction ps with
  | nil => exact .ok rfl
  | cons p ps ih =>
    rw [List.map_cons, List.mapM_cons, List.mapM_cons]
    refine (vars.number_rename p.name).bind ?_
    rintro v _ rfl
    refine ih.bind ?_
    rintro vs _ rfl
    exact .ok rfl

def Point.rename (ρ : Renaming) (p : Point) : Point := { p with statement := p.statement.rename ρ }

namespace Liveness

def rename (ρ : Renaming) (s : Liveness) : Liveness := { s with points := s.points.map (·.rename ρ) }

def Renamed (ρ : Renaming) (p q : Unit × Liveness) : Prop := q.2 = p.2.rename ρ

variable (vars : Variables)

theorem read_rename (x : Atom) (s : Liveness) :
    Except.Related (Renamed ρ) (read vars x s) (read (vars.rename ρ) (x.rename ρ) (s.rename ρ)) := by
  rw [read, read, x.isVar_rename]
  split
  · refine StateT.related_lift (vars.number_rename x.name) ?_
    rintro v _ rfl
    exact .ok rfl
  · exact .ok rfl

mutual

theorem walkExpr_rename : ∀ (x : Expr) (s : Liveness),
    Except.Related (Renamed ρ) (walkExpr vars x s)
      (walkExpr (vars.rename ρ) (x.rename ρ) (s.rename ρ))
  | .atom x, s => read_rename vars x s
  | .bind name init, s => by
    rw [Expr.rename, walkExpr, walkExpr]
    refine StateT.related_bind (walkExpr_rename init s) ?_
    rintro ⟨_, s'⟩ ⟨_, _⟩ rfl
    refine StateT.related_lift (vars.number_rename name) ?_
    rintro v _ rfl
    exact .ok rfl
  | .unary op x ty, s => read_rename vars x s
  | .binary op l r ty, s => by
    rw [Expr.rename, walkExpr, walkExpr]
    refine StateT.related_bind (read_rename vars l s) ?_
    rintro ⟨_, s'⟩ ⟨_, _⟩ rfl
    exact read_rename vars r s'
  | .branch cond onTrue none, s => by
    rw [Expr.rename, walkExpr, walkExpr, StateT.get_bind, StateT.get_bind]
    refine StateT.related_bind (walkBlock_rename onTrue s) ?_
    rintro ⟨_, s'⟩ ⟨_, _⟩ rfl
    exact read_rename vars cond _
  | .branch cond onTrue (some b), s => by
    rw [Expr.rename, walkExpr, walkExpr, StateT.get_bind, StateT.get_bind]
    refine StateT.related_bind (walkBlock_rename onTrue s) ?_
    rintro ⟨_, s'⟩ ⟨_, _⟩ rfl
    -- the second branch is walked from what is live behind the condition
    rw [StateT.get_bind, StateT.get_bind, StateT.modify_bind, StateT.modify_bind]
    refine StateT.related_bind (walkBlock_rename b { s' with live := s.live }) ?_
    rintro ⟨_, s''⟩ ⟨_, _⟩ rfl
    exact read_rename vars cond _
  | .missing, s => .error _ _

theorem walkBlock_rename : ∀ (xs : List Expr) (s : Liveness),
    Except.Related (Renamed ρ) (walkBlock vars xs s)
      (walkBlock (vars.rename ρ) (blockRename ρ xs) (s.rename ρ))
  | [], s => .ok rfl
  | x :: xs, s => by
    rw [blockRename, walkBlock, walkBlock]
    refine StateT.related_bind (walkBlock_rename xs s) ?_
    rintro ⟨_, s'⟩ ⟨_, _⟩ rfl
    refine StateT.related_bind (walkExpr_rename x s') ?_
    rintro ⟨_, s''⟩ ⟨_, _⟩ rfl
    refine .ok ?_
    simp [Renamed, rename, Point.rename]

end

theorem ofBlock_rename (seed : BitSet) (b : Block) :
    Except.Related (fun s s' => s' = s.rename ρ) (ofBlock vars seed b)
      (ofBlock (vars.rename ρ) seed (blockRename ρ b)) := by
  refine Except.Related.bind (walkBlock_rename vars b { live := seed }) ?_
  rintro ⟨_, s⟩ ⟨_, _⟩ rfl
  exact .ok rfl

end Liveness

namespace Conflicts

variable (vars : Variables)

theorem addVariable_rename : addVariable (vars.rename ρ) = addVariable vars := by
  funext v
  rw [addVariable, addVariable, vars.isFloat_rename]

theorem addPair_rename : addPair (vars.rename ρ) = addPair vars := by
  funext v u
  rw [addPair, addPair, vars.isFloat_rename]

theorem addClique_rename (vs : List Nat) : addClique (vars.rename ρ) vs = addClique vars vs := by
  induction vs with
  | nil => rfl
  | cons v vs ih => rw [addClique, addClique, addVariable_rename, addPair_rename, ih]

theorem addPoint_rename (p : Point) (c : Conflicts) :
    Except.Related Eq (addPoint vars p c) (addPoint (vars.rename ρ) (p.rename ρ) c) := by
  obtain ⟨x, live⟩ := p
  rw [addPoint, addPoint, Point.rename]
  cases x with
  | bind name init =>
    rw [Expr.rename]
    refine StateT.related_lift (vars.number_rename name) ?_
    rintro v _ rfl
    rw [addVariable_rename, addClique_rename]
    exact .refl _
  | branch cond onTrue onFalse =>
    cases onFalse with
    | none =>
      rw [Expr.rename]
      dsimp only
      rw [addClique_rename]
      exact .refl _
    | some b =>
      rw [Expr.rename]
      dsimp only
      rw [addClique_rename]
      exact .refl _
  | _ =>
    rw [Expr.rename]
    dsimp only
    rw [addClique_rename]
    exact .refl _

theorem addPoints_rename (ps : List Point) (c : Conflicts) :
    Except.Related Eq (ps.forM (addPoint vars) c)
      ((ps.map (·.rename ρ)).forM (addPoint (vars.rename ρ)) c) := by
  induction ps generalizing c with
  | nil => exact .ok rfl
  | cons p ps ih =>
    refine StateT.related_bind (addPoint_rename vars p c) ?_
    rintro ⟨_, c'⟩ _ rfl
    exact ih c'

/-- A renamed block has the same graphs. -/
theorem ofBlock_rename (b : Block) (seed : List Nat) :
    Except.Related Eq (ofBlock vars b seed) (ofBlock (vars.rename ρ) (blockRename ρ b) seed) := by
  refine Except.Related.bind (Liveness.ofBlock_rename vars (BitSet.ofList seed) b) ?_
  rintro walk _ rfl
  refine Except.Related.bind (R := Eq) ?_ ?_
  · refine StateT.related_bind (addPoints_rename vars walk.points {}) ?_
    rintro ⟨_, c⟩ _ rfl
    rw [addVariable_rename]
    exact .refl _
  · rintro ⟨_, c⟩ _ rfl
    exact .ok rfl

theorem assign_rename (c : Conflicts) (pools : Pools) :
    Except.Related (fun asg asg' => asg' = ρ.keys asg) (c.assign vars pools)
      (c.assign (vars.rename ρ) pools) := by
  refine (Except.Related.refl _).bind ?_
  rintro general _ rfl
  refine (Except.Related.refl _).bind ?_
  rintro float _ rfl
  refine .ok ?_
  rw [Renaming.keys, List.map_map]
  simp only [vars.name_rename, Function.comp_def]

end Conflicts

/-- Each name is held where the name it stands for was held. -/
theorem Func.assignment_rename (f : Func) (pools : Pools) :
    Except.Related (fun asg asg' => asg' = ρ.keys asg) (f.assignment pools)
      ((f.rename ρ).assignment pools) := by
  refine (Variables.ofFunc_rename f).bind ?_
  rintro vars _ rfl
  refine (numberParams_rename vars f.params).bind ?_
  rintro params _ rfl
  refine (Conflicts.ofBlock_rename vars f.body params).bind ?_
  rintro c _ rfl
  exact Conflicts.assign_rename vars c pools

namespace Codegen

theorem Scope.find_rename (scope : Scope) (z : String) :
    Except.Related Eq (scope.find z) (Scope.find (ρ.keys scope) (ρ z)) := by
  rw [Scope.find, Scope.find, ρ.lookup_keys]
  cases List.lookup z scope with
  | some x => exact .ok rfl
  | none => exact .error _ _

theorem Scope.operand_rename (scope : Scope) (x : Atom) :
    Except.Related Eq (scope.operand x) (Scope.operand (ρ.keys scope) (x.rename ρ)) := by
  rw [Scope.operand, Scope.operand, x.isVar_rename]
  split
  · exact scope.find_rename x.name
  · exact .refl _

variable {func : String} {asg : Assignment}

theorem location_rename (z : String) (s : Supply) :
    Except.Related Eq (location asg z s) (location (ρ.keys asg) (ρ z) s) := by
  have hfind : Assignment.find? (ρ.keys asg) (ρ z) = asg.find? z := ρ.lookup_keys asg z
  unfold location
  rw [hfind]
  cases asg.find? z with
  | none => exact .error _ _
  | some l => cases l <;> exact .refl _

theorem binary_rename (scope : Scope) (op : BinOp) (l r : Atom) (ty : Ty) (dst : Operand) :
    Except.Related Eq (binary scope op l r ty dst)
      (binary (ρ.keys scope) op (l.rename ρ) (r.rename ρ) ty dst) := by
  unfold binary
  change Except.Related Eq _ (if l.ty ≠ r.ty then _ else _)
  split
  · exact .error _ _
  · split
    · refine (scope.operand_rename l).bind ?_
      rintro first _ rfl
      refine (Except.Related.refl _).bind ?_
      rintro first' _ rfl
      refine (scope.operand_rename r).bind ?_
      rintro second _ rfl
      exact .refl _
    · refine (scope.operand_rename l).bind ?_
      rintro first _ rfl
      refine (scope.operand_rename r).bind ?_
      rintro second _ rfl
      exact .refl _

/-- The same code and supply, with the names in scope renamed. -/
def Renamed (ρ : Renaming) (p q : (List Instr × Scope) × Supply) : Prop :=
  q = ((p.1.1, ρ.keys p.1.2), p.2)

mutual

theorem statement_rename : ∀ (x : Expr) (scope : Scope) (dst : Option Operand) (s : Supply),
    Except.Related (Renamed ρ) (statement func asg x scope dst s)
      (statement func (ρ.keys asg) (x.rename ρ) (ρ.keys scope) dst s)
  | .atom x, scope, dst, s => by
    rw [Expr.rename, statement, statement]
    refine StateT.related_lift (scope.operand_rename x) ?_
    rintro src _ rfl
    refine StateT.related_lift (Except.Related.refl _) ?_
    rintro code _ rfl
    exact .ok rfl
  | .bind name init, scope, dst, s => by
    rw [Expr.rename, statement, statement]
    refine StateT.related_bind (location_rename name s) ?_
    rintro ⟨place, s₁⟩ _ rfl
    cases place with
    | none => exact statement_rename init scope dst s₁
    | some place =>
      refine StateT.related_bind (statement_rename init scope (some place) s₁) ?_
      rintro ⟨⟨code, scope'⟩, s₂⟩ _ rfl
      refine StateT.related_lift (Except.Related.refl _) ?_
      rintro last _ rfl
      exact .ok rfl
  | .unary op x ty, scope, none, s => by
    rw [Expr.rename, statement, statement]
    exact .ok rfl
  | .unary op x ty, scope, some dst, s => by
    rw [Expr.rename, statement, statement]
    refine StateT.related_lift (scope.operand_rename x) ?_
    rintro src _ rfl
    refine StateT.related_lift (Except.Related.refl _) ?_
    rintro code _ rfl
    exact .ok rfl
  | .binary op l r ty, scope, none, s => by
    rw [Expr.rename, statement, statement]
    exact .ok rfl
  | .binary op l r ty, scope, some dst, s => by
    rw [Expr.rename, statement, statement]
    refine StateT.related_lift (binary_rename scope op l r ty dst) ?_
    rintro code _ rfl
    exact .ok rfl
  | .branch cond onTrue none, scope, none, s => by
    rw [Expr.rename, statement, statement]
    exact .ok rfl
  | .branch cond onTrue none, scope, some dst, s => by
    rw [Expr.rename, statement, statement]
    refine StateT.related_bind (Except.Related.refl (nextBranch s)) ?_
    rintro ⟨n, s₁⟩ _ rfl
    refine StateT.related_lift (scope.operand_rename cond) ?_
    rintro c _ rfl
    refine StateT.related_bind (block_rename onTrue scope (some dst) s₁) ?_
    rintro ⟨first, s₂⟩ _ rfl
    exact .ok rfl
  | .branch cond onTrue (some b), scope, none, s => by
    rw [Expr.rename, statement, statement]
    exact .ok rfl
  | .branch cond onTrue (some b), scope, some dst, s => by
    rw [Expr.rename, statement, statement]
    refine StateT.related_bind (Except.Related.refl (nextBranch s)) ?_
    rintro ⟨n, s₁⟩ _ rfl
    refine StateT.related_lift (scope.operand_rename cond) ?_
    rintro c _ rfl
    refine StateT.related_bind (block_rename onTrue scope (some dst) s₁) ?_
    rintro ⟨first, s₂⟩ _ rfl
    refine StateT.related_bind (block_rename b scope (some dst) s₂) ?_
    rintro ⟨second, s₃⟩ _ rfl
    exact .ok rfl
  | .missing, scope, dst, s => .error _ _

theorem block_rename : ∀ (xs : List Expr) (scope : Scope) (dst : Option Operand) (s : Supply),
    Except.Related Eq (block func asg xs scope dst s)
      (block func (ρ.keys asg) (blockRename ρ xs) (ρ.keys scope) dst s)
  | [], scope, dst, s => .ok rfl
  | [x], scope, dst, s => by
    rw [blockRename, blockRename, block, block]
    refine StateT.related_bind (statement_rename x scope dst s) ?_
    rintro ⟨⟨code, scope'⟩, s₁⟩ _ rfl
    exact .ok rfl
  | x :: y :: ys, scope, dst, s => by
    have hrest (scope' : Scope) (s₁ : Supply) := block_rename (y :: ys) scope' dst s₁
    simp only [blockRename] at hrest
    rw [blockRename, blockRename, block, block]
    refine StateT.related_bind (statement_rename x scope none s) ?_
    rintro ⟨⟨code, scope'⟩, s₁⟩ _ rfl
    refine StateT.related_bind (hrest scope' s₁) ?_
    rintro ⟨rest, s₂⟩ _ rfl
    exact .ok rfl

end

theorem paramPlace_rename (i : Nat) (z : String) :
    paramPlace (ρ.keys asg) i (ρ z) = paramPlace asg i z := by
  have hfind : Assignment.find? (ρ.keys asg) (ρ z) = asg.find? z := ρ.lookup_keys asg z
  rw [paramPlace, paramPlace, hfind]

theorem loadParams_rename (i : Nat) (ps : List Param) (scope : Scope) :
    Except.Related (fun p q => q = (p.1, ρ.keys p.2)) (loadParams asg i ps scope)
      (loadParams (ρ.keys asg) i (ps.map (·.rename ρ)) (ρ.keys scope)) := by
  induction ps generalizing i scope with
  | nil => exact .ok rfl
  | cons p ps ih =>
    rw [List.map_cons, loadParams, loadParams, Param.rename, paramPlace_rename]
    refine (Except.Related.refl _).bind ?_
    rintro place _ rfl
    refine (Except.Related.refl _).bind ?_
    rintro first _ rfl
    refine (ih (i + 1) ((p.name, place) :: scope)).bind ?_
    rintro ⟨code, scope'⟩ _ rfl
    exact .ok rfl

theorem savedRegs_rename : savedRegs (ρ.keys asg) = savedRegs asg := by
  simp only [savedRegs, Renaming.keys, List.any_map, Function.comp_def]

end Codegen

namespace Func

variable (f : Func)

theorem result_rename : (f.rename ρ).result = f.result := by
  have hresult : (f.rename ρ).result? = f.result? := blockTy?_rename f.body
  rw [result, result, hresult]

theorem bodyCode_rename (asg : Assignment) :
    Except.Related Eq (f.bodyCode asg) ((f.rename ρ).bodyCode (ρ.keys asg)) := by
  refine (Codegen.loadParams_rename 0 f.params []).bind ?_
  rintro ⟨load, scope⟩ _ rfl
  rw [result_rename]
  cases f.result with
  | error e => exact .error _ _
  | ok ty =>
    refine (Codegen.block_rename f.body scope (some (Codegen.resultPlace ty)) {}).bind ?_
    rintro ⟨code, supply⟩ _ rfl
    exact .ok rfl

theorem code_rename (asg : Assignment) :
    Except.Related Eq (f.code asg) ((f.rename ρ).code (ρ.keys asg)) := by
  have hbody := f.bodyCode_rename (ρ := ρ) asg
  have hname : (f.rename ρ).name = f.name := rfl
  unfold code
  rw [hname]
  split
  · exact .refl _
  · generalize f.bodyCode asg = a, (f.rename ρ).bodyCode (ρ.keys asg) = b at hbody
    cases hbody with
    | error e e' => exact .error _ _
    | @ok a _ h =>
      obtain rfl := h
      obtain ⟨body, supply⟩ := a
      rw [Codegen.savedRegs_rename]
      exact .ok rfl

end Func

namespace Printer

mutual

theorem exprText_rename (depth : Nat) : ∀ x : Expr,
    Except.Related Printable (exprText depth x) (exprText depth (x.rename ρ))
  | .atom x => .ok trivial
  | .bind name init => .error _ _
  | .unary op x ty => .ok trivial
  | .binary op l r ty => .ok trivial
  | .branch cond onTrue none => by
    rw [Expr.rename]
    exact branch_related _ _ (blockText_rename (depth + 1) onTrue)
  | .branch cond onTrue (some b) => by
    rw [Expr.rename]
    exact branchElse_related _ _ (blockText_rename (depth + 1) onTrue)
      (blockText_rename (depth + 1) b)
  | .missing => .error _ _

theorem blockText_rename (depth : Nat) : ∀ xs : List Expr,
    Except.Related Printable (blockText depth xs) (blockText depth (blockRename ρ xs))
  | [] => .ok trivial
  | .bind name init :: xs => by
    rw [blockRename, Expr.rename]
    exact bindLine_related _ _ init.ty?_rename (exprText_rename depth init)
      (blockText_rename depth xs)
  | .atom x :: xs => by
    rw [blockRename]
    exact line_related rfl rfl (exprText_rename depth _) (blockText_rename depth xs)
  | .unary op x ty :: xs => by
    rw [blockRename]
    exact line_related rfl rfl (exprText_rename depth _) (blockText_rename depth xs)
  | .binary op l r ty :: xs => by
    rw [blockRename]
    exact line_related rfl rfl (exprText_rename depth _) (blockText_rename depth xs)
  | .branch cond onTrue onFalse :: xs => by
    rw [blockRename]
    exact line_related rfl (Expr.isBind_rename _) (exprText_rename depth _)
      (blockText_rename depth xs)
  | .missing :: xs => by
    rw [blockRename]
    exact line_related rfl rfl (exprText_rename depth _) (blockText_rename depth xs)

end

end Printer

namespace Func

theorem render_rename (f : Func) :
    Except.Related (fun _ _ => True) f.render (f.rename ρ).render := by
  have hresult : (f.rename ρ).result? = f.result? := blockTy?_rename f.body
  rw [render, render, hresult]
  refine (Except.Related.refl _).bind ?_
  rintro ty _ rfl
  refine (Printer.within_related (Printer.blockText_rename 1 f.body) _).bind fun _ _ _ => ?_
  exact .ok trivial

/-- Compilation sees which names are the same and nothing else of them. A function is compiled
exactly if it is compiled under other names, and then to the same code, with each name held where the
name it stands for is held. -/
theorem compile_independent_of_names (f : Func) (opts : Options) (ρ : Renaming) :
    ((∃ v, (f.rename ρ).compile opts = .ok v) ↔ ∃ u, f.compile opts = .ok u) ∧
      ∀ u v, f.compile opts = .ok u → (f.rename ρ).compile opts = .ok v →
        v.code = u.code ∧ ∀ z, v.assignment.find? (ρ z) = u.assignment.find? z := by
  have hprint := (f.render_rename (ρ := ρ)).exists_iff
  have hasg := f.assignment_rename (ρ := ρ) opts.pools
  refine ⟨⟨?_, ?_⟩, ?_⟩
  · rintro ⟨v, hv⟩
    obtain ⟨_, hcheck, hrender, hv, hcode⟩ := compile_eq_ok.1 hv
    obtain ⟨asg, hu⟩ := hasg.exists_iff.1 ⟨_, hv⟩
    rw [hasg.of_ok hu hv] at hcode
    obtain ⟨code, hcode⟩ := (f.code_rename asg).exists_iff.1 ⟨_, hcode⟩
    exact ⟨⟨f, asg, code⟩,
      compile_eq_ok.2 ⟨rfl, hcheck, fun hdump => hprint.1 (hrender hdump), hu, hcode⟩⟩
  · rintro ⟨u, hu⟩
    obtain ⟨_, hcheck, hrender, hu, hcode⟩ := compile_eq_ok.1 hu
    obtain ⟨asg, hv⟩ := hasg.exists_iff.2 ⟨_, hu⟩
    have hkeys := hasg.of_ok hu hv
    obtain ⟨code, hcode⟩ := (f.code_rename (ρ := ρ) u.assignment).exists_iff.2 ⟨_, hcode⟩
    rw [← hkeys] at hcode
    exact ⟨⟨f.rename ρ, asg, code⟩,
      compile_eq_ok.2 ⟨rfl, hcheck, fun hdump => hprint.2 (hrender hdump), hv, hcode⟩⟩
  · intro u v hu hv
    obtain ⟨_, _, hu, hucode⟩ := of_compile hu
    obtain ⟨_, _, hv, hvcode⟩ := of_compile hv
    have hkeys := hasg.of_ok hu hv
    rw [hkeys] at hvcode
    refine ⟨((f.code_rename u.assignment).of_ok hucode hvcode).symm, fun z => ?_⟩
    rw [hkeys]
    exact ρ.lookup_keys u.assignment z

/-- How far a number is above another, and 0 if it is not. -/
def excess : Func where
  name := "excess"
  params := [⟨"x", .int⟩, ⟨"y", .int⟩]
  body := [
    .bind "d" (.binary .minus (.var "x" .int) (.var "y" .int) .int),
    .bind "more" (.binary .greater (.var "d" .int) (.int 0) .int),
    .branch (.var "more" .bool) [.atom (.var "d" .int)] (some [.atom (.int 0)])]

/-- The two parameters under each other's names are in each other's registers. -/
theorem compile_independent_of_names_swapped :
    let ρ := Renaming.swap "x" "y" (by decide) (by decide)
    ∃ u v, excess.compile {} = .ok u ∧ (excess.rename ρ).compile {} = .ok v ∧ v.code = u.code ∧
      v.assignment.find? "y" = u.assignment.find? "x" ∧
      u.assignment.find? "x" ≠ u.assignment.find? "y" := by
  intro ρ
  obtain ⟨hiff, hsame⟩ := compile_independent_of_names excess {} ρ
  have hcompiled : (excess.compile {}).toOption.map
      (fun u => decide (u.assignment.find? "x" ≠ u.assignment.find? "y")) = some true := by
    decide +kernel
  obtain ⟨u, hu, hne⟩ := Option.map_eq_some_iff.1 hcompiled
  replace hu := Except.eq_ok_of_toOption hu
  obtain ⟨v, hv⟩ := hiff.2 ⟨u, hu⟩
  obtain ⟨hcode, hfind⟩ := hsame u v hu hv
  exact ⟨u, v, hu, hv, hcode, hfind "x", of_decide_eq_true hne⟩

end Func

end ExprBackend
