import ExprBackend.Expr.Basic
import ExprBackend.Proofs.Lookup

/-!
# Well-formed functions

In a function that was loaded every name is bound once and is read only behind its binding, within
the block of the binding, with the type of what it is bound to. Loaded functions may still lack
branches or mix types; a well-typed function does not mix types, and a complete one does neither.
The scopes alone, without what else the loader makes sure of, are a condition of their own.
-/

namespace ExprBackend

abbrev Typing := List (String × Ty)

def Atom.reads (x : Atom) : List String := if x.isVar then [x.name] else []

mutual

/-- The names that an expression reads, as often as it reads them. -/
def Expr.reads : Expr → List String
  | .atom x => x.reads
  | .bind _ init => init.reads
  | .unary _ x _ => x.reads
  | .binary _ l r _ => l.reads ++ r.reads
  | .branch cond onTrue none => cond.reads ++ blockReads onTrue
  | .branch cond onTrue (some b) => cond.reads ++ blockReads onTrue ++ blockReads b
  | .missing => []

def blockReads : List Expr → List String
  | [] => []
  | x :: xs => x.reads ++ blockReads xs

end

/-- The type of an expression whose parts are all there. -/
def Expr.tyOf (x : Expr) : Ty := x.ty?.getD .int

mutual

/-- The names that are bound in an expression at any depth, in the order in which the bindings
are complete. -/
def Expr.bindings : Expr → Typing
  | .bind name init => init.bindings ++ [(name, init.tyOf)]
  | .branch _ onTrue none => blockBindings onTrue
  | .branch _ onTrue (some b) => blockBindings onTrue ++ blockBindings b
  | _ => []

def blockBindings : List Expr → Typing
  | [] => []
  | x :: xs => x.bindings ++ blockBindings xs

end

/-- What a statement adds to the scope of those behind it. -/
def Expr.declares : Expr → Typing
  | .bind name init => [(name, init.tyOf)]
  | _ => []

def Atom.inScope (x : Atom) (scope : Typing) : Bool :=
  !x.isVar || decide (List.lookup x.name scope = some x.ty)

/-- Operations take variables, and literals that are no floats. -/
def Atom.isOperand (x : Atom) : Bool := x.isVar || decide (x.ty ≠ .float)

def UnOp.isDeclared : UnOp → Bool
  | .other _ => false
  | _ => true

def BinOp.isDeclared : BinOp → Bool
  | .other _ => false
  | _ => true

def Expr.isBind : Expr → Bool
  | .bind _ _ => true
  | _ => false

mutual

def Expr.wellFormed : Expr → Typing → Bool
  | .atom x, scope => x.inScope scope
  | .bind _ init, scope => !init.isBind && init.wellFormed scope
  | .unary op x ty, scope => op.isDeclared && x.inScope scope && x.isOperand && decide (x.ty = ty)
  | .binary op l r ty, scope =>
    op.isDeclared && l.inScope scope && r.inScope scope && l.isOperand && r.isOperand &&
      decide (l.ty = ty) && decide (r.ty = ty)
  | .branch cond onTrue none, scope => cond.inScope scope && blockWellFormed onTrue scope
  | .branch cond onTrue (some b), scope =>
    cond.inScope scope && blockWellFormed onTrue scope && blockWellFormed b scope
  | .missing, _ => false

def blockWellFormed : List Expr → Typing → Bool
  | [], _ => true
  | x :: xs, scope => x.wellFormed scope && blockWellFormed xs (x.declares ++ scope)

end

namespace Func

def paramTyping (f : Func) : Typing := f.params.map fun p => (p.name, p.ty)

/-- All names of a function in the order of their numbers. -/
def bindings (f : Func) : Typing := f.paramTyping ++ blockBindings f.body

structure LoaderForm (f : Func) : Prop where
  named : f.name ≠ ""
  nodup : (f.bindings.map Prod.fst).Nodup
  wellFormed : blockWellFormed f.body f.paramTyping = true

instance (f : Func) : Decidable f.LoaderForm :=
  decidable_of_iff (f.name ≠ "" ∧ (f.bindings.map Prod.fst).Nodup ∧
      blockWellFormed f.body f.paramTyping = true)
    ⟨fun ⟨h₁, h₂, h₃⟩ => ⟨h₁, h₂, h₃⟩, fun ⟨h₁, h₂, h₃⟩ => ⟨h₁, h₂, h₃⟩⟩

end Func

mutual

/-- Every read is in scope, no part is missing and what is bound is not itself a binding. -/
def Expr.inScope : Expr → Typing → Bool
  | .atom x, scope => x.inScope scope
  | .bind _ init, scope => !init.isBind && init.inScope scope
  | .unary _ x _, scope => x.inScope scope
  | .binary _ l r _, scope => l.inScope scope && r.inScope scope
  | .branch cond onTrue none, scope => cond.inScope scope && blockInScope onTrue scope
  | .branch cond onTrue (some b), scope =>
    cond.inScope scope && blockInScope onTrue scope && blockInScope b scope
  | .missing, _ => false

def blockInScope : List Expr → Typing → Bool
  | [], _ => true
  | x :: xs, scope => x.inScope scope && blockInScope xs (x.declares ++ scope)

end

mutual

theorem Expr.inScope_of_wellFormed : ∀ (x : Expr) (scope : Typing), x.wellFormed scope = true →
    x.inScope scope = true
  | .atom x, scope, h => by rwa [Expr.wellFormed] at h
  | .bind name init, scope, h => by
    rw [Expr.wellFormed, Bool.and_eq_true] at h
    rw [Expr.inScope, h.1, init.inScope_of_wellFormed scope h.2]
    rfl
  | .unary op x ty, scope, h => by
    simp only [Expr.wellFormed, Bool.and_eq_true] at h
    exact h.1.1.2
  | .binary op l r ty, scope, h => by
    simp only [Expr.wellFormed, Bool.and_eq_true] at h
    rw [Expr.inScope, h.1.1.1.1.1.2, h.1.1.1.1.2]
    rfl
  | .branch cond onTrue none, scope, h => by
    rw [Expr.wellFormed, Bool.and_eq_true] at h
    rw [Expr.inScope, h.1, blockInScope_of_wellFormed onTrue scope h.2]
    rfl
  | .branch cond onTrue (some b), scope, h => by
    simp only [Expr.wellFormed, Bool.and_eq_true] at h
    rw [Expr.inScope, h.1.1, blockInScope_of_wellFormed onTrue scope h.1.2,
      blockInScope_of_wellFormed b scope h.2]
    rfl
  | .missing, scope, h => by simp [Expr.wellFormed] at h

theorem blockInScope_of_wellFormed : ∀ (xs : List Expr) (scope : Typing),
    blockWellFormed xs scope = true → blockInScope xs scope = true
  | [], scope, h => rfl
  | x :: xs, scope, h => by
    rw [blockWellFormed, Bool.and_eq_true] at h
    rw [blockInScope, x.inScope_of_wellFormed scope h.1, blockInScope_of_wellFormed xs _ h.2]
    rfl

end

/-- Every name of a function is bound once and read only in its scope. -/
structure Func.Scoped (f : Func) : Prop where
  nodup : (f.bindings.map Prod.fst).Nodup
  inScope : blockInScope f.body f.paramTyping = true

instance (f : Func) : Decidable f.Scoped :=
  decidable_of_iff ((f.bindings.map Prod.fst).Nodup ∧ blockInScope f.body f.paramTyping = true)
    ⟨fun ⟨h₁, h₂⟩ => ⟨h₁, h₂⟩, fun ⟨h₁, h₂⟩ => ⟨h₁, h₂⟩⟩

theorem Func.LoaderForm.toScoped {f : Func} (hf : f.LoaderForm) : f.Scoped where
  nodup := hf.nodup
  inScope := blockInScope_of_wellFormed f.body f.paramTyping hf.wellFormed

def blockIsFloat (xs : List Expr) : Bool := decide (blockTy? xs = some .float)

mutual

/-- Conditions are no floats, both branches are there with values of one class, and no operation
lacks a meaning for its type. -/
def Expr.complete : Expr → Bool
  | .atom _ => true
  | .bind _ init => init.complete
  | .unary op _ ty => !(decide (op = .not) && decide (ty = .float))
  | .binary op _ _ ty => !(decide (op = .mod) && decide (ty = .float))
  | .branch _ _ none => false
  | .branch cond onTrue (some b) =>
    decide (cond.ty ≠ .float) && !onTrue.isEmpty && !b.isEmpty && blockComplete onTrue &&
      blockComplete b && (blockIsFloat onTrue == blockIsFloat b)
  | .missing => false

def blockComplete : List Expr → Bool
  | [] => true
  | x :: xs => x.complete && blockComplete xs

end

/-- A function with a value, all of whose conditions are complete. -/
def Func.Complete (f : Func) : Prop := f.body ≠ [] ∧ blockComplete f.body = true

instance (f : Func) : Decidable f.Complete := inferInstanceAs (Decidable (_ ∧ _))

mutual

/-- Conditions are no floats, two branches with values have values of one class, and no operation
lacks a meaning for its type. Branches may be empty or missing. -/
def Expr.wellTyped : Expr → Bool
  | .atom _ => true
  | .bind _ init => init.wellTyped
  | .unary op _ ty => !(decide (op = .not) && decide (ty = .float))
  | .binary op _ _ ty => !(decide (op = .mod) && decide (ty = .float))
  | .branch cond onTrue none => decide (cond.ty ≠ .float) && blockWellTyped onTrue
  | .branch cond onTrue (some b) =>
    decide (cond.ty ≠ .float) && blockWellTyped onTrue && blockWellTyped b &&
      (onTrue.isEmpty || b.isEmpty || (blockIsFloat onTrue == blockIsFloat b))
  | .missing => true

def blockWellTyped : List Expr → Bool
  | [] => true
  | x :: xs => x.wellTyped && blockWellTyped xs

end

def Func.WellTyped (f : Func) : Prop := blockWellTyped f.body = true

instance (f : Func) : Decidable f.WellTyped := inferInstanceAs (Decidable (_ = _))

mutual

theorem Expr.wellTyped_of_complete : ∀ x : Expr, x.complete = true → x.wellTyped = true
  | .atom x, _ => rfl
  | .bind name init, h => by
    rw [Expr.complete] at h
    rw [Expr.wellTyped]
    exact init.wellTyped_of_complete h
  | .unary op x ty, h => by rwa [Expr.complete] at h
  | .binary op l r ty, h => by rwa [Expr.complete] at h
  | .branch cond onTrue none, h => by cases h
  | .branch cond onTrue (some b), h => by
    simp only [Expr.complete, Bool.and_eq_true] at h
    obtain ⟨⟨⟨⟨⟨hcond, _⟩, _⟩, hfirst⟩, hsecond⟩, hclass⟩ := h
    simp only [Expr.wellTyped, hcond, blockWellTyped_of_complete onTrue hfirst,
      blockWellTyped_of_complete b hsecond, hclass, Bool.or_true, Bool.and_self]
  | .missing, h => by cases h

theorem blockWellTyped_of_complete : ∀ xs : List Expr, blockComplete xs = true →
    blockWellTyped xs = true
  | [], _ => rfl
  | x :: xs, h => by
    rw [blockComplete, Bool.and_eq_true] at h
    rw [blockWellTyped, x.wellTyped_of_complete h.1, blockWellTyped_of_complete xs h.2]
    rfl

end

theorem Func.Complete.wellTyped {f : Func} (hc : f.Complete) : f.WellTyped :=
  blockWellTyped_of_complete f.body hc.2

theorem Atom.mem_reads {x : Atom} {z : String} : z ∈ x.reads ↔ x.isVar = true ∧ z = x.name := by
  unfold Atom.reads
  split <;> simp_all

theorem Atom.lookup_of_inScope {x : Atom} {scope : Typing} (h : x.inScope scope = true)
    (hvar : x.isVar = true) : List.lookup x.name scope = some x.ty := by
  simpa [Atom.inScope, hvar] using h

theorem Atom.reads_inScope {x : Atom} {scope : Typing} (h : x.inScope scope = true) :
    ∀ z ∈ x.reads, z ∈ scope.map Prod.fst := by
  intro z hz
  obtain ⟨hvar, rfl⟩ := Atom.mem_reads.1 hz
  rw [← lookup_isSome, Atom.lookup_of_inScope h hvar]
  rfl

theorem Expr.declares_subset (x : Expr) : x.declares ⊆ x.bindings := by
  cases x with
  | bind name init => simp [Expr.declares, Expr.bindings]
  | _ => simp [Expr.declares]

theorem Expr.declares_of_isBind {x : Expr} (h : x.isBind = false) : x.declares = [] := by
  cases x with
  | bind name init => cases h
  | _ => rfl

mutual

/-- What an expression reads is in scope or bound in the expression itself. -/
theorem Expr.reads_inScope : ∀ (x : Expr) (scope : Typing), x.wellFormed scope = true →
    ∀ z ∈ x.reads, z ∈ scope.map Prod.fst ∨ z ∈ x.bindings.map Prod.fst
  | .atom x, scope, h, z, hz => by
    rw [Expr.wellFormed] at h
    exact Or.inl (Atom.reads_inScope h z hz)
  | .bind name init, scope, h, z, hz => by
    rw [Expr.wellFormed, Bool.and_eq_true] at h
    rw [Expr.bindings, List.map_append, List.mem_append]
    rcases init.reads_inScope scope h.2 z hz with hz | hz
    · exact Or.inl hz
    · exact Or.inr (Or.inl hz)
  | .unary op x ty, scope, h, z, hz => by
    simp only [Expr.wellFormed, Bool.and_eq_true] at h
    exact Or.inl (Atom.reads_inScope h.1.1.2 z hz)
  | .binary op l r ty, scope, h, z, hz => by
    simp only [Expr.wellFormed, Bool.and_eq_true] at h
    rcases List.mem_append.1 hz with hz | hz
    · exact Or.inl (Atom.reads_inScope h.1.1.1.1.1.2 z hz)
    · exact Or.inl (Atom.reads_inScope h.1.1.1.1.2 z hz)
  | .branch cond onTrue none, scope, h, z, hz => by
    rw [Expr.wellFormed, Bool.and_eq_true] at h
    rw [Expr.reads, List.mem_append] at hz
    rw [Expr.bindings]
    rcases hz with hz | hz
    · exact Or.inl (Atom.reads_inScope h.1 z hz)
    · exact blockReads_inScope onTrue scope h.2 z hz
  | .branch cond onTrue (some b), scope, h, z, hz => by
    simp only [Expr.wellFormed, Bool.and_eq_true] at h
    simp only [Expr.reads, List.mem_append] at hz
    rw [Expr.bindings, List.map_append, List.mem_append]
    rcases hz with (hz | hz) | hz
    · exact Or.inl (Atom.reads_inScope h.1.1 z hz)
    · exact (blockReads_inScope onTrue scope h.1.2 z hz).imp_right Or.inl
    · exact (blockReads_inScope b scope h.2 z hz).imp_right Or.inr
  | .missing, scope, h, z, hz => by simp [Expr.wellFormed] at h

theorem blockReads_inScope : ∀ (xs : List Expr) (scope : Typing), blockWellFormed xs scope = true →
    ∀ z ∈ blockReads xs, z ∈ scope.map Prod.fst ∨ z ∈ (blockBindings xs).map Prod.fst
  | [], scope, h, z, hz => by simp [blockReads] at hz
  | x :: xs, scope, h, z, hz => by
    rw [blockWellFormed, Bool.and_eq_true] at h
    rw [blockReads, List.mem_append] at hz
    rw [blockBindings, List.map_append, List.mem_append]
    rcases hz with hz | hz
    · exact (x.reads_inScope scope h.1 z hz).imp_right Or.inl
    · rcases blockReads_inScope xs _ h.2 z hz with hz | hz
      · rw [List.map_append, List.mem_append] at hz
        rcases hz with hz | hz
        · exact Or.inr (Or.inl (List.map_subset _ x.declares_subset hz))
        · exact Or.inl hz
      · exact Or.inr (Or.inr hz)

end

theorem blockTy?_cons {x : Expr} {xs : List Expr} (h : xs ≠ []) :
    blockTy? (x :: xs) = blockTy? xs := by
  cases xs with
  | nil => exact absurd rfl h
  | cons y ys => rw [blockTy?]

mutual

theorem Expr.ty?_isSome_of_inScope : ∀ (x : Expr) (scope : Typing), x.inScope scope = true →
    x.ty?.isSome = true
  | .atom x, scope, h => rfl
  | .bind name init, scope, h => by
    rw [Expr.inScope, Bool.and_eq_true] at h
    rw [Expr.ty?]
    exact init.ty?_isSome_of_inScope scope h.2
  | .unary op x ty, scope, h => rfl
  | .binary op l r ty, scope, h => rfl
  | .branch cond onTrue none, scope, h => by
    rw [Expr.inScope, Bool.and_eq_true] at h
    rw [Expr.ty?]
    exact blockTy?_isSome_of_inScope onTrue scope h.2
  | .branch cond onTrue (some b), scope, h => by
    simp only [Expr.inScope, Bool.and_eq_true] at h
    rw [Expr.ty?]
    exact blockTy?_isSome_of_inScope onTrue scope h.1.2
  | .missing, scope, h => by simp [Expr.inScope] at h

theorem blockTy?_isSome_of_inScope : ∀ (xs : List Expr) (scope : Typing),
    blockInScope xs scope = true → (blockTy? xs).isSome = true
  | [], scope, h => rfl
  | [x], scope, h => by
    rw [blockInScope, Bool.and_eq_true] at h
    rw [blockTy?]
    exact x.ty?_isSome_of_inScope scope h.1
  | x :: y :: xs, scope, h => by
    rw [blockInScope, Bool.and_eq_true] at h
    rw [blockTy?]
    exact blockTy?_isSome_of_inScope (y :: xs) _ h.2

end

theorem Expr.ty?_isSome (x : Expr) (scope : Typing) (h : x.wellFormed scope = true) :
    x.ty?.isSome = true :=
  x.ty?_isSome_of_inScope scope (x.inScope_of_wellFormed scope h)

theorem blockTy?_isSome (xs : List Expr) (scope : Typing) (h : blockWellFormed xs scope = true) :
    (blockTy? xs).isSome = true :=
  blockTy?_isSome_of_inScope xs scope (blockInScope_of_wellFormed xs scope h)

end ExprBackend
