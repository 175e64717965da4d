import ExprBackend.Proofs.Loading

/-!
# Where the names of a loaded function come from

A part of a function stands behind others: the statements in front of it in its own block, and in
each block around it those in front of the statement that contains it. These and the parameters
are all that the operands of the part can name.
-/

namespace ExprBackend

/-- The operands of an expression itself, not of its parts. -/
def Expr.operands : Expr → List Atom
  | .atom x => [x]
  | .unary _ x _ => [x]
  | .binary _ l r _ => [l, r]
  | .branch cond _ _ => [cond]
  | _ => []

namespace Func

/-- A part of a function, at any depth, and the statements that stand in front of it. -/
inductive Stands (f : Func) : List Expr → Expr → Prop where
  | body {front back : List Expr} {x : Expr} (h : f.body = front ++ x :: back) : Stands f front x
  | init {front : List Expr} {name : String} {x : Expr} (h : Stands f front (.bind name x)) :
    Stands f front x
  | onTrue {around front back : List Expr} {cond : Atom} {x : Expr} {onFalse : Option (List Expr)}
    (h : Stands f around (.branch cond (front ++ x :: back) onFalse)) : Stands f (around ++ front) x
  | onFalse {around front back : List Expr} {cond : Atom} {x : Expr} {onTrue : List Expr}
    (h : Stands f around (.branch cond onTrue (some (front ++ x :: back)))) :
    Stands f (around ++ front) x

/-- A name is that of a parameter, or is bound by one of the statements in front, and has the
type of what it names. -/
def Binds (f : Func) (front : List Expr) (name : String) (ty : Ty) : Prop :=
  (∃ p ∈ f.params, p.name = name ∧ p.ty = ty) ∨
    ∃ init, .bind name init ∈ front ∧ init.ty? = some ty

variable {f : Func} {front : List Expr} {scope : Typing}

theorem Binds.append {name : String} {ty : Ty} (h : f.Binds front name ty) (more : List Expr) :
    f.Binds (front ++ more) name ty := by
  rcases h with hparam | ⟨init, hmem, hty⟩
  · exact Or.inl hparam
  · exact Or.inr ⟨init, List.mem_append_left more hmem, hty⟩

def Accounts (f : Func) (front : List Expr) (scope : Typing) : Prop :=
  ∀ e ∈ scope, f.Binds front e.1 e.2

theorem accounts_params (f : Func) : f.Accounts [] f.paramTyping := by
  intro e he
  obtain ⟨p, hp, rfl⟩ := List.mem_map.1 he
  exact Or.inl ⟨p, hp, rfl, rfl⟩

theorem Accounts.statement (h : f.Accounts front scope) {x : Expr}
    (hx : x.wellFormed scope = true) : f.Accounts (front ++ [x]) (x.declares ++ scope) := by
  intro e he
  rcases List.mem_append.1 he with he | he
  · cases x with
    | bind name init =>
      obtain rfl := List.mem_singleton.1 he
      have hty : init.ty?.isSome = true := Expr.ty?_isSome (.bind name init) scope hx
      refine Or.inr ⟨init, by simp, ?_⟩
      rw [Expr.tyOf, ← Option.some_get hty, Option.getD_some]
    | _ => cases he
  · exact (h e he).append [x]

theorem Accounts.block {xs : List Expr} (h : f.Accounts front scope)
    (hxs : blockWellFormed xs scope = true) : f.Accounts (front ++ xs) (blockScope xs scope) := by
  induction xs generalizing front scope with
  | nil =>
    rw [List.append_nil]
    exact h
  | cons x xs ih =>
    rw [blockWellFormed, Bool.and_eq_true] at hxs
    rw [List.append_cons]
    exact ih (h.statement hxs.1) hxs.2

/-- A statement in a block is well-formed behind those in front of it. -/
theorem Accounts.inside {xs back : List Expr} {x : Expr} (h : f.Accounts front scope)
    (hxs : blockWellFormed (xs ++ x :: back) scope = true) :
    ∃ scope', x.wellFormed scope' = true ∧ f.Accounts (front ++ xs) scope' := by
  rw [blockWellFormed_append, blockWellFormed, Bool.and_eq_true, Bool.and_eq_true] at hxs
  exact ⟨blockScope xs scope, hxs.2.1, h.block hxs.1⟩

/-- Every part is well-formed in a scope that what stands in front of it accounts for. -/
theorem Stands.exists_scope (hf : f.LoaderForm) {x : Expr} (h : f.Stands front x) :
    ∃ scope, x.wellFormed scope = true ∧ f.Accounts front scope := by
  induction h with
  | body h =>
    have hbody := hf.wellFormed
    rw [h] at hbody
    exact f.accounts_params.inside hbody
  | init h ih =>
    obtain ⟨scope, hx, hscope⟩ := ih
    rw [Expr.wellFormed, Bool.and_eq_true] at hx
    exact ⟨scope, hx.2, hscope⟩
  | @onTrue around xs back cond x onFalse h ih =>
    obtain ⟨scope, hx, hscope⟩ := ih
    have hblock : blockWellFormed (xs ++ x :: back) scope = true := by
      cases onFalse with
      | none =>
        rw [Expr.wellFormed, Bool.and_eq_true] at hx
        exact hx.2
      | some b =>
        rw [Expr.wellFormed, Bool.and_eq_true, Bool.and_eq_true] at hx
        exact hx.1.2
    exact hscope.inside hblock
  | onFalse h ih =>
    obtain ⟨scope, hx, hscope⟩ := ih
    rw [Expr.wellFormed, Bool.and_eq_true, Bool.and_eq_true] at hx
    exact hscope.inside hx.2

end Func

theorem Atom.binds_of_inScope {f : Func} {front : List Expr} {scope : Typing}
    (hscope : f.Accounts front scope) {a : Atom} (ha : a.inScope scope = true)
    (hvar : a.isVar = true) : f.Binds front a.name a.ty :=
  hscope _ (mem_of_lookup (Atom.lookup_of_inScope ha hvar))

/-- The operands of a well-formed expression are in scope. -/
theorem Expr.inScope_operands {x : Expr} {scope : Typing} (hx : x.wellFormed scope = true) :
    ∀ a ∈ x.operands, a.inScope scope = true := by
  intro a ha
  cases x with
  | atom y =>
    obtain rfl := List.mem_singleton.1 ha
    rwa [Expr.wellFormed] at hx
  | bind name init => cases ha
  | unary op y ty =>
    obtain rfl := List.mem_singleton.1 ha
    simp only [Expr.wellFormed, Bool.and_eq_true] at hx
    exact hx.1.1.2
  | binary op l r ty =>
    simp only [Expr.wellFormed, Bool.and_eq_true] at hx
    rcases List.mem_pair.1 ha with rfl | rfl
    · exact hx.1.1.1.1.1.2
    · exact hx.1.1.1.1.2
  | branch cond onTrue onFalse =>
    obtain rfl := List.mem_singleton.1 ha
    cases onFalse with
    | none =>
      rw [Expr.wellFormed, Bool.and_eq_true] at hx
      exact hx.1
    | some b =>
      rw [Expr.wellFormed, Bool.and_eq_true, Bool.and_eq_true] at hx
      exact hx.1.1
  | missing => cases ha

/-- A function that was built has no name twice. Each variable in it is a parameter or is bound in
front of where it is read, with the type of what it names. Operations take operands of their own
type that are no float literals, and no binding binds a binding. -/
theorem Source.Func.build_binds (src : Source.Func) {f : ExprBackend.Func}
    (h : src.build = .ok f) :
    (f.bindings.map Prod.fst).Nodup ∧
      ∀ front x, f.Stands front x →
        (∀ a ∈ x.operands, a.isVar = true →
          (∃ p ∈ f.params, p.name = a.name ∧ p.ty = a.ty) ∨
            ∃ init, .bind a.name init ∈ front ∧ init.ty? = some a.ty) ∧
        (∀ op a ty, x = .unary op a ty →
          op.isDeclared = true ∧ a.ty = ty ∧ (a.isVar = true ∨ a.ty ≠ .float)) ∧
        (∀ op l r ty, x = .binary op l r ty →
          op.isDeclared = true ∧ l.ty = ty ∧ r.ty = ty ∧ (l.isVar = true ∨ l.ty ≠ .float) ∧
            (r.isVar = true ∨ r.ty ≠ .float)) ∧
        (∀ name init, x = .bind name init → init.isBind = false) ∧ x ≠ .missing := by
  have hf := src.loaderForm_build h
  refine ⟨hf.nodup, ?_⟩
  intro front x hx
  obtain ⟨scope, hwf, hscope⟩ := hx.exists_scope hf
  refine ⟨fun a ha => Atom.binds_of_inScope hscope (Expr.inScope_operands hwf a ha), ?_, ?_, ?_, ?_⟩
  · rintro op a ty rfl
    simp only [Expr.wellFormed, Atom.isOperand, Bool.and_eq_true, Bool.or_eq_true,
      decide_eq_true_iff] at hwf
    exact ⟨hwf.1.1.1, hwf.2, hwf.1.2⟩
  · rintro op l r ty rfl
    simp only [Expr.wellFormed, Atom.isOperand, Bool.and_eq_true, Bool.or_eq_true,
      decide_eq_true_iff] at hwf
    obtain ⟨⟨⟨⟨⟨⟨hop, _⟩, _⟩, hl⟩, hr⟩, hlty⟩, hrty⟩ := hwf
    exact ⟨hop, hlty, hrty, hl, hr⟩
  · rintro name init rfl
    rw [Expr.wellFormed, Bool.and_eq_true, Bool.not_eq_true'] at hwf
    exact hwf.1
  · rintro rfl
    rw [Expr.wellFormed] at hwf
    cases hwf

/-- A float literal in a branch is bound to a temporary in front of the operation that takes it. -/
theorem Source.Func.build_binds_scaled :
    let src : Source.Func :=
      { name := "scaled"
        params := [⟨"r", "float"⟩, ⟨"big", "bool"⟩]
        body := [
          { name := "d", op := "+", args := [.scalar 1 .str "r", .scalar 1 .str "r"], line := 1 },
          { cond := some (.scalar 2 .str "big"), line := 2
            onTrue := [{ value := some (.scalar 3 .str "d"), line := 3 }]
            onFalse := some [
              { op := "*", args := [.scalar 4 .str "d", .scalar 4 .float "2.5"], line := 4 }] }] }
    let d : Expr := .bind "d" (.binary .plus (.var "r" .float) (.var "r" .float) .float)
    let t : Expr := .bind "t#0" (.atom (.float 4612811918334230528))
    let f : ExprBackend.Func := ⟨"scaled", [⟨"r", .float⟩, ⟨"big", .bool⟩],
      [d, .branch (.var "big" .bool) [.atom (.var "d" .float)]
        (some [t, .binary .times (.var "d" .float) (.var "t#0" .float) .float])]⟩
    src.build = .ok f ∧ (f.bindings.map Prod.fst).Nodup ∧
      ∃ init, .bind "t#0" init ∈ [d, t] ∧ init.ty? = some .float := by
  intro src d t f
  have hbuild : src.build = .ok f := rfl
  obtain ⟨hnodup, hparts⟩ := build_binds src hbuild
  have hbranch : f.Stands [d] (.branch (.var "big" .bool) [.atom (.var "d" .float)]
      (some [t, .binary .times (.var "d" .float) (.var "t#0" .float) .float])) :=
    @Func.Stands.body f [d] [] _ rfl
  have htimes := @Func.Stands.onFalse f [d] [t] [] _ _ _ hbranch
  obtain ⟨hvars, _⟩ := hparts _ _ htimes
  refine ⟨hbuild, hnodup, ?_⟩
  rcases hvars (.var "t#0" .float) (by simp [Expr.operands]) (by decide) with hparam | hbound
  · obtain ⟨p, hp, hname, _⟩ := hparam
    have hno : ∀ p ∈ f.params, p.name ≠ "t#0" := by decide +kernel
    exact absurd hname (hno p hp)
  · exact hbound

end ExprBackend
