import ExprBackend.Proofs.Temporaries

/-!
# Names and what they stand for

The operands of a source function and the atoms of the function that is built from it, one by one in
the order of the text. A name stands for a variable of that name, with the type of the nearest binding
in front of it. The empty text is the exception: a parameter may have it for a name, but an atom
without a name is a literal.
-/

namespace ExprBackend

namespace Source

def Operand.name? : Operand → Option String
  | .scalar _ .str text => some text
  | _ => none

mutual

/-- The operands of a statement at any depth, in order. A statement has one of three forms, and
what is given for another form does not count. -/
def Statement.operands : Statement → List Operand
  | ⟨_, _, some x, _, _, none, _, _, _⟩ => [x]
  | ⟨_, _, none, _, _, some c, onTrue, none, _⟩ => c :: blockOperands onTrue
  | ⟨_, _, none, _, _, some c, onTrue, some ys, _⟩ =>
    c :: (blockOperands onTrue ++ blockOperands ys)
  | ⟨_, _, none, _, args, none, _, _, _⟩ => args
  | ⟨_, _, some _, _, _, some _, _, _, _⟩ => []

def blockOperands : List Statement → List Operand
  | [] => []
  | y :: ys => y.operands ++ blockOperands ys

end

def Func.operands (f : Func) : List Operand := blockOperands f.body

end Source

/-- An atom in its place, with the bindings in front of it, the nearest ones first. -/
structure Use where
  scope : Typing
  atom : Atom

mutual

/-- The atoms of an expression at any depth, in order. What a temporary is bound to stands in the
source where the temporary is read, and does not count. -/
def Expr.uses (scope : Typing) : Expr → List Use
  | .atom x => [⟨scope, x⟩]
  | .bind name init => if isTemporary name then [] else init.uses scope
  | .unary _ x _ => [⟨scope, x⟩]
  | .binary _ l r _ => [⟨scope, l⟩, ⟨scope, r⟩]
  | .branch cond onTrue none => ⟨scope, cond⟩ :: blockUses scope onTrue
  | .branch cond onTrue (some b) =>
    ⟨scope, cond⟩ :: (blockUses scope onTrue ++ blockUses scope b)
  | .missing => []

def blockUses (scope : Typing) : List Expr → List Use
  | [] => []
  | x :: xs => x.uses scope ++ blockUses (x.declares ++ scope) xs

end

def Func.uses (f : Func) : List Use := blockUses f.paramTyping f.body

theorem blockUses_append (xs ys : List Expr) (scope : Typing) :
    blockUses scope (xs ++ ys) = blockUses scope xs ++ blockUses (blockScope xs scope) ys := by
  induction xs generalizing scope with
  | nil => rfl
  | cons x xs ih => rw [List.cons_append, blockUses, blockUses, ih, List.append_assoc]; rfl

theorem Literals.blockUses_eq {code : List Expr} (h : Literals code) (scope : Typing) :
    blockUses scope code = [] := by
  induction code generalizing scope with
  | nil => rfl
  | cons x code ih =>
    obtain ⟨z, bits, hz, rfl⟩ := h x List.mem_cons_self
    rw [blockUses, ih h.tail, Expr.uses, if_pos hz]
    rfl

theorem Source.uses_of_operation? {op : String} {xs : List Atom} {x : Expr}
    (h : Source.operation? op xs = some x) (scope : Typing) : x.uses scope = xs.map (Use.mk scope) := by
  match xs with
  | [] => cases h
  | [y] => cases h; rfl
  | [l, r] => cases h; rfl
  | _ :: _ :: _ :: _ => cases h

mutual

theorem Expr.inScope_uses : ∀ (x : Expr) (scope : Typing), x.inScope scope = true →
    ∀ u ∈ x.uses scope, u.atom.inScope u.scope = true
  | .atom x, scope, h => by simpa [Expr.uses, Expr.inScope] using h
  | .bind name init, scope, h => by
    rw [Expr.inScope, Bool.and_eq_true] at h
    rw [Expr.uses]
    split
    · simp
    · exact init.inScope_uses scope h.2
  | .unary op x ty, scope, h => by simpa [Expr.uses, Expr.inScope] using h
  | .binary op l r ty, scope, h => by simpa [Expr.uses, Expr.inScope] using h
  | .branch cond onTrue none, scope, h => by
    rw [Expr.inScope, Bool.and_eq_true] at h
    rw [Expr.uses, List.forall_mem_cons]
    exact ⟨h.1, inScope_blockUses onTrue scope h.2⟩
  | .branch cond onTrue (some b), scope, h => by
    simp only [Expr.inScope, Bool.and_eq_true] at h
    rw [Expr.uses, List.forall_mem_cons, List.forall_mem_append]
    exact ⟨h.1.1, inScope_blockUses onTrue scope h.1.2, inScope_blockUses b scope h.2⟩
  | .missing, scope, h => by simp [Expr.inScope] at h

theorem inScope_blockUses : ∀ (xs : List Expr) (scope : Typing), blockInScope xs scope = true →
    ∀ u ∈ blockUses scope xs, u.atom.inScope u.scope = true
  | [], scope, h => by simp [blockUses]
  | x :: xs, scope, h => by
    rw [blockInScope, Bool.and_eq_true] at h
    rw [blockUses, List.forall_mem_append]
    exact ⟨x.inScope_uses scope h.1, inScope_blockUses xs _ h.2⟩

end

/-- An atom that stands for an operand. The empty name is only possible if `nameless`. -/
structure Source.Operand.StandsFor (nameless : Prop) (y : Source.Operand) (a : Atom) : Prop where
  named : ∀ s, y.name? = some s → s ≠ "" → a.isVar = true ∧ a.name = s
  unnamed : y.name? = some "" → nameless ∧ (a.isVar = false ∨ isTemporary a.name = true)

namespace Build

open Source (blockOperands)

variable {scope : Scope} {t t' : Temporaries} {nameless : Prop}

theorem eq_var_of_name? {y : Source.Operand} {a : Atom} (ha : y.atom? scope = some a) {s : String}
    (hs : y.name? = some s) : ∃ ty, List.lookup s scope = some ty ∧ a = .var s ty := by
  unfold Source.Operand.name? at hs
  split at hs
  next line text =>
    obtain rfl := Option.some.inj hs
    obtain ⟨ty, hty, rfl⟩ := Option.map_eq_some_iff.1 ha
    exact ⟨ty, hty, rfl⟩
  next => cases hs

theorem isVar_var {s : String} (hs : s ≠ "") (ty : Ty) : (Atom.var s ty).isVar = true := by
  simp [Atom.isVar, Atom.var, hs]

theorem nameless_of_name? {y : Source.Operand} {a : Atom} (ha : y.atom? scope = some a)
    (hempty : "" ∈ scope.map Prod.fst → nameless) (hs : y.name? = some "") : nameless := by
  obtain ⟨ty, hty, _⟩ := eq_var_of_name? ha hs
  exact hempty (lookup_isSome.1 (by rw [hty]; rfl))

theorem standsFor_of_atom? {y : Source.Operand} {a : Atom} (ha : y.atom? scope = some a)
    (hempty : "" ∈ scope.map Prod.fst → nameless) : y.StandsFor nameless a where
  named s hs hne := by
    obtain ⟨ty, _, rfl⟩ := eq_var_of_name? ha hs
    exact ⟨isVar_var hne ty, rfl⟩
  unnamed hs := by
    obtain ⟨ty, _, rfl⟩ := eq_var_of_name? ha hs
    exact ⟨nameless_of_name? ha hempty hs, Or.inl rfl⟩

/-- A temporary takes the place of a literal, which is no name or the empty one. -/
theorem standsFor_next {y : Source.Operand} {a : Atom} (ha : y.atom? scope = some a)
    (hliteral : a.isOperand = false) (hempty : "" ∈ scope.map Prod.fst → nameless) :
    y.StandsFor nameless (.var t.next.1 a.ty) where
  named s hs hne := by
    obtain ⟨ty, _, rfl⟩ := eq_var_of_name? ha hs
    simp [Atom.isOperand, isVar_var hne ty] at hliteral
  unnamed hs := ⟨nameless_of_name? ha hempty hs, Or.inr (t.isTemporary_nameAt t.used)⟩

theorem Hoisting.mem_of_empty {h h' : Hoisted} {ys : List Source.Operand} {xs : List Atom}
    (hh : Hoisting h t ys xs h' t') (hempty : "" ∈ h'.scope.map Prod.fst) :
    "" ∈ h.scope.map Prod.fst := by
  induction hh with
  | nil => exact hempty
  | keep _ _ _ ih => exact ih hempty
  | @lift h h' t t' y ys a xs _ _ _ ih =>
    exact (List.mem_cons.1 (ih hempty)).resolve_left t.next_ne_empty.symm

theorem Built.mem_of_empty {y : Source.Statement} {x : Expr} {h : Hoisted}
    (hb : Built scope t y x h t') (hempty : "" ∈ h.scope.map Prod.fst) :
    "" ∈ scope.map Prod.fst := by
  cases hb with
  | value _ => exact hempty
  | branch _ _ => exact hempty
  | branchElse _ _ _ => exact hempty
  | operation hh _ => exact hh.mem_of_empty hempty

theorem Hoisting.standsFor {h h' : Hoisted} {ys : List Source.Operand} {xs : List Atom}
    (hh : Hoisting h t ys xs h' t') (hempty : "" ∈ h.scope.map Prod.fst → nameless) :
    List.Forall₂ (Source.Operand.StandsFor nameless) ys xs := by
  induction hh with
  | nil => exact .nil
  | keep ha _ _ ih => exact .cons (standsFor_of_atom? ha hempty) (ih hempty)
  | @lift h h' t t' y ys a xs ha hliteral _ ih =>
    refine .cons (standsFor_next ha hliteral hempty) (ih fun hmem => ?_)
    exact hempty ((List.mem_cons.1 hmem).resolve_left t.next_ne_empty.symm)

def StandFor (nameless : Prop) (ys : List Source.Operand) (us : List Use) : Prop :=
  List.Forall₂ (fun y u => y.StandsFor nameless u.atom) ys us

theorem StandFor.cons {y : Source.Operand} {ys : List Source.Operand} {a : Atom} {us : List Use}
    {names : Typing} (h : y.StandsFor nameless a) (hrest : StandFor nameless ys us) :
    StandFor nameless (y :: ys) (⟨names, a⟩ :: us) := List.Forall₂.cons h hrest

theorem StandFor.append {ys ys' : List Source.Operand} {us us' : List Use}
    (h : StandFor nameless ys us) (h' : StandFor nameless ys' us') :
    StandFor nameless (ys ++ ys') (us ++ us') := List.rel_append h h'

mutual

theorem Built.standFor : ∀ {scope : Scope} {t t' : Temporaries} {y : Source.Statement} {x : Expr}
    {h : Hoisted}, Built scope t y x h t' → ("" ∈ scope.map Prod.fst → nameless) →
    ∀ names : Typing, StandFor nameless y.operands (x.uses names)
  | _, _, _, _, _, _, .value ha, hempty, names => by
    rw [Source.Statement.operands, Expr.uses]
    exact .cons (standsFor_of_atom? ha hempty) .nil
  | _, _, _, _, _, _, .branch ha hfirst, hempty, names => by
    rw [Source.Statement.operands, Expr.uses]
    exact .cons (standsFor_of_atom? ha hempty) (hfirst.standFor hempty names)
  | _, _, _, _, _, _, .branchElse ha hfirst hsecond, hempty, names => by
    rw [Source.Statement.operands, Expr.uses]
    exact .cons (standsFor_of_atom? ha hempty)
      ((hfirst.standFor hempty names).append (hsecond.standFor hempty names))
  | _, _, _, _, _, _, .operation hh hop, hempty, names => by
    rw [Source.Statement.operands, Source.uses_of_operation? hop]
    exact List.forall₂_map_right_iff.2 (hh.standsFor hempty)

theorem BlockBuilt.standFor : ∀ {scope : Scope} {t t' : Temporaries} {ys : List Source.Statement}
    {xs : List Expr}, BlockBuilt scope t ys xs t' → ("" ∈ scope.map Prod.fst → nameless) →
    ∀ names : Typing, StandFor nameless (blockOperands ys) (blockUses names xs)
  | _, _, _, _, _, .nil, hempty, names => .nil
  | _, _, _, _, _, .value _ hx hxs, hempty, names => by
    rw [blockOperands, blockUses_append, hx.literals.1.blockUses_eq, List.nil_append, blockUses]
    exact (hx.standFor hempty _).append (hxs.standFor (fun hmem => hempty (hx.mem_of_empty hmem)) _)
  | _, _, _, _, _, .bind hname hplain hx hxs, hempty, names => by
    rw [blockOperands, blockUses_append, hx.literals.1.blockUses_eq, List.nil_append, blockUses,
      Expr.uses, hplain, if_neg Bool.false_ne_true]
    refine (hx.standFor hempty _).append (hxs.standFor (fun hmem => ?_) _)
    exact hempty (hx.mem_of_empty ((List.mem_cons.1 hmem).resolve_left hname.symm))

end

end Build

/-- An atom in its place is what an operand of the source of `f` is resolved to. -/
structure Resolved (f : Func) (y : Source.Operand) (u : Use) : Prop where
  named : ∀ s, y.name? = some s → s ≠ "" →
    u.atom.isVar = true ∧ u.atom.name = s ∧ List.lookup s u.scope = some u.atom.ty
  unnamed : y.name? = some "" →
    (∃ p ∈ f.params, p.name = "") ∧ (u.atom.isVar = false ∨ isTemporary u.atom.name = true)

namespace Source.Func

/-- A name becomes a variable with the type of the nearest binding in front of it, unless it is empty.
The empty name is accepted only if it is that of a parameter, and becomes a literal or the temporary
that one is bound to. -/
theorem build_resolves (src : Source.Func) {f : ExprBackend.Func} (h : src.build = .ok f) :
    List.Forall₂ (Resolved f) src.operands f.uses := by
  obtain ⟨_, _, _, t, hbuilt⟩ := src.of_build h
  have hempty : "" ∈ f.paramTyping.reverse.map Prod.fst → ∃ p ∈ f.params, p.name = "" := by
    simp [ExprBackend.Func.paramTyping]
  have hstand : List.Forall₂ _ _ _ := hbuilt.standFor hempty f.paramTyping
  have hin := inScope_blockUses f.body f.paramTyping (src.loaderForm_build h).toScoped.inScope
  refine List.Forall₂.flip (((List.forall₂_and_left _ _).2 ⟨hin, hstand.flip⟩).imp ?_)
  intro u y hu
  refine ⟨fun s hs hne => ?_, hu.2.unnamed⟩
  obtain ⟨hvar, rfl⟩ := hu.2.named s hs hne
  exact ⟨hvar, rfl, Atom.lookup_of_inScope hu.1 hvar⟩

/-- A parameter is read in the value of a binding, and the binding in a branch and in an operation
behind a literal. -/
theorem build_resolves_branch :
    let src : Source.Func :=
      { name := "f"
        params := [⟨"x", "bool"⟩]
        body := [
          { name := "y"
            cond := some (.scalar 1 .str "x")
            onTrue := [{ name := "z", value := some (.scalar 2 .float "2.5") },
              { value := some (.scalar 3 .str "z") }] },
          { op := "+", args := [.scalar 4 .float "2.5", .scalar 4 .str "y"] }] }
    let f : ExprBackend.Func := ⟨"f", [⟨"x", .bool⟩],
      [.bind "y" (.branch (.var "x" .bool)
          [.bind "z" (.atom (.float 4612811918334230528)), .atom (.var "z" .float)] none),
        .bind "t#0" (.atom (.float 4612811918334230528)),
        .binary .plus (.var "t#0" .float) (.var "y" .float) .float]⟩
    src.build = .ok f ∧ src.operands.map Operand.name? = [some "x", none, some "z", none, some "y"] ∧
      f.uses.map (fun u => (u.atom.name, u.scope.map Prod.fst)) =
        [("x", ["x"]), ("", ["x"]), ("z", ["z", "x"]), ("t#0", ["t#0", "y", "x"]),
          ("y", ["t#0", "y", "x"])] ∧
      List.Forall₂ (Resolved f) src.operands f.uses := by
  intro src f
  have hbuild : src.build = .ok f := rfl
  exact ⟨hbuild, rfl, rfl, build_resolves src hbuild⟩

/-- The parameter is accepted with its empty name, and the body is the literal zero in its place. -/
theorem build_nameless :
    let src : Source.Func :=
      { name := "f"
        params := [⟨"", "int"⟩]
        body := [{ value := some (.scalar 6 .str "") }] }
    let f : ExprBackend.Func := ⟨"f", [⟨"", .int⟩], [.atom (.int 0)]⟩
    src.build = .ok f ∧ src.operands.map Operand.name? = [some ""] ∧
      f.uses.map (fun u => u.atom.isVar) = [false] := by
  intro src f
  exact ⟨rfl, rfl, rfl⟩

end Source.Func

end ExprBackend
