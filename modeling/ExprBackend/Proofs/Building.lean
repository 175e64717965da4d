import ExprBackend.Proofs.Loading

/-!
# How functions are built

The successful runs of a builder as a relation. It says which operands stand for which atoms, which
literals are bound to temporaries and in what order, and what is in scope where. Of the state of the
builder only the supply of temporaries is left, since the names that are bound already decide no more
than whether there is a result.
-/

namespace ExprBackend

namespace Source

/-- The atom that an operand stands for: a literal by its tag, or a name in scope. -/
def Operand.atom? (scope : Typing) : Operand → Option Atom
  | .scalar _ .int text => (Literal.integer text).toOption.map Atom.int
  | .scalar _ .float text => (Literal.float text).toOption.map Atom.float
  | .scalar _ .bool text => (Literal.truth text).toOption.map Atom.bool
  | .scalar _ .str text => (List.lookup text scope).map (Atom.var text)
  | _ => none

def operation? (op : String) : List Atom → Option Expr
  | [x] => some (.unary (UnOp.ofSymbol op) x x.ty)
  | [l, r] => some (.binary (BinOp.ofSymbol op) l r l.ty)
  | _ => none

end Source

namespace Build

/-- The operands of an operation, with the statements in front of it before and after. -/
inductive Hoisting : Hoisted → Temporaries → List Source.Operand → List Atom → Hoisted →
    Temporaries → Prop
  | nil {h : Hoisted} {t : Temporaries} : Hoisting h t [] [] h t
  | keep {h h' : Hoisted} {t t' : Temporaries} {y : Source.Operand} {ys : List Source.Operand}
    {a : Atom} {xs : List Atom} : y.atom? h.scope = some a → a.isOperand = true →
    Hoisting h t ys xs h' t' → Hoisting h t (y :: ys) (a :: xs) h' t'
  | lift {h h' : Hoisted} {t t' : Temporaries} {y : Source.Operand} {ys : List Source.Operand}
    {a : Atom} {xs : List Atom} : y.atom? h.scope = some a → a.isOperand = false →
    Hoisting ⟨h.code ++ [.bind t.next.1 (.atom a)], (t.next.1, a.ty) :: h.scope⟩ t.next.2 ys xs h' t' →
    Hoisting h t (y :: ys) (.var t.next.1 a.ty :: xs) h' t'

mutual

/-- The expression of a statement, and what goes in front of it. -/
inductive Built : Scope → Temporaries → Source.Statement → Expr → Hoisted → Temporaries → Prop
  | value {scope : Scope} {t : Temporaries} {name ty : String} {x : Source.Operand}
    {args : List Source.Operand} {onTrue : List Source.Statement}
    {onFalse : Option (List Source.Statement)} {line : Nat} {a : Atom} : x.atom? scope = some a →
    Built scope t ⟨name, ty, some x, "", args, none, onTrue, onFalse, line⟩ (.atom a) { scope } t
  | branch {scope : Scope} {t t' : Temporaries} {name ty : String} {c : Source.Operand}
    {args : List Source.Operand} {onTrue : List Source.Statement} {line : Nat} {a : Atom}
    {first : List Expr} : c.atom? scope = some a → BlockBuilt scope t onTrue first t' →
    Built scope t ⟨name, ty, none, "", args, some c, onTrue, none, line⟩ (.branch a first none)
      { scope } t'
  | branchElse {scope : Scope} {t t₁ t' : Temporaries} {name ty : String} {c : Source.Operand}
    {args : List Source.Operand} {onTrue onFalse : List Source.Statement} {line : Nat} {a : Atom}
    {first second : List Expr} : c.atom? scope = some a → BlockBuilt scope t onTrue first t₁ →
    BlockBuilt scope t₁ onFalse second t' →
    Built scope t ⟨name, ty, none, "", args, some c, onTrue, some onFalse, line⟩
      (.branch a first (some second)) { scope } t'
  | operation {scope : Scope} {t t' : Temporaries} {name ty op : String}
    {args : List Source.Operand} {onTrue : List Source.Statement}
    {onFalse : Option (List Source.Statement)} {line : Nat} {xs : List Atom} {h : Hoisted}
    {x : Expr} : Hoisting { scope } t args xs h t' → Source.operation? op xs = some x →
    Built scope t ⟨name, ty, none, op, args, none, onTrue, onFalse, line⟩ x h t'

/-- The statements of a block, each behind what goes in front of it. -/
inductive BlockBuilt : Scope → Temporaries → List Source.Statement → List Expr → Temporaries → Prop
  | nil {scope : Scope} {t : Temporaries} : BlockBuilt scope t [] [] t
  | value {scope : Scope} {t t₁ t' : Temporaries} {y : Source.Statement}
    {ys : List Source.Statement} {x : Expr} {h : Hoisted} {xs : List Expr} : y.name = "" →
    Built scope t y x h t₁ → BlockBuilt h.scope t₁ ys xs t' →
    BlockBuilt scope t (y :: ys) (h.code ++ x :: xs) t'
  | bind {scope : Scope} {t t₁ t' : Temporaries} {y : Source.Statement}
    {ys : List Source.Statement} {x : Expr} {h : Hoisted} {xs : List Expr} : y.name ≠ "" →
    isTemporary y.name = false → Built scope t y x h t₁ →
    BlockBuilt ((y.name, tyOf x) :: h.scope) t₁ ys xs t' →
    BlockBuilt scope t (y :: ys) (h.code ++ .bind y.name x :: xs) t'

end

variable {scope : Scope} {s s' : State}

theorem literal_eq_ok {α : Type} {line : Nat} {make : α → Atom} {r : Except Literal.Refusal α}
    {a : Atom} (h : literal line make r s = .ok (a, s')) :
    r.toOption.map make = some a ∧ s' = s := by
  cases r with
  | error why => exact absurd h refuse_ne_ok
  | ok v =>
    obtain ⟨rfl, rfl⟩ := StateT.pure_eq_ok.1 h
    exact ⟨rfl, rfl⟩

theorem atom?_of_atom {y : Source.Operand} {a : Atom} (h : atom scope y s = .ok (a, s')) :
    y.atom? scope = some a ∧ s' = s := by
  cases y with
  | other line => exact absurd h refuse_ne_ok
  | scalar line tag text =>
    cases tag with
    | int => exact literal_eq_ok h
    | float => exact literal_eq_ok h
    | bool => exact literal_eq_ok h
    | str =>
      cases hty : List.lookup text scope with
      | none =>
        simp only [atom, hty] at h
        exact absurd h refuse_ne_ok
      | some ty =>
        simp only [atom, hty] at h
        obtain ⟨rfl, rfl⟩ := StateT.pure_eq_ok.1 h
        exact ⟨by simp [Source.Operand.atom?, hty], rfl⟩
    | _ => exact absurd h refuse_ne_ok

theorem hoisting_of_operands {i : Nat} {ys : List Source.Operand} {h h' : Hoisted} {xs : List Atom}
    (hcode : operands i ys h s = .ok ((xs, h'), s')) :
    Hoisting h s.temporaries ys xs h' s'.temporaries := by
  induction ys generalizing i h s xs with
  | nil =>
    obtain ⟨heq, rfl⟩ := StateT.pure_eq_ok.1 hcode
    obtain ⟨rfl, rfl⟩ := Prod.mk.inj heq
    exact .nil
  | cons y ys ih =>
    obtain ⟨a, _, hatom, hrest⟩ := StateT.bind_eq_ok.1 hcode
    obtain ⟨ha, rfl⟩ := atom?_of_atom (within_eq_ok.1 hatom)
    obtain ⟨⟨x, h₁⟩, s₁, hhoist, hrest'⟩ := StateT.bind_eq_ok.1 hrest
    obtain ⟨⟨xs', h₂⟩, s₂, hmore, hpure⟩ := StateT.bind_eq_ok.1 hrest'
    obtain ⟨heq, rfl⟩ := StateT.pure_eq_ok.1 hpure
    obtain ⟨rfl, rfl⟩ := Prod.mk.inj heq
    unfold hoist at hhoist
    split at hhoist
    next hfloat =>
      obtain ⟨_, _, hget, hnext⟩ := StateT.bind_eq_ok.1 hhoist
      obtain ⟨rfl, rfl⟩ := Prod.mk.inj (Except.ok.inj hget)
      obtain ⟨_, _, hmodify, hpure⟩ := StateT.bind_eq_ok.1 hnext
      obtain ⟨rfl, rfl⟩ := Prod.mk.inj (Except.ok.inj hmodify)
      obtain ⟨heq, rfl⟩ := StateT.pure_eq_ok.1 hpure
      obtain ⟨rfl, rfl⟩ := Prod.mk.inj heq
      have hliteral : a.isOperand = false := by
        simpa [Atom.isOperand, and_comm] using hfloat
      exact .lift ha hliteral (ih hmore)
    next hkeep =>
      obtain ⟨heq, rfl⟩ := StateT.pure_eq_ok.1 hhoist
      obtain ⟨rfl, rfl⟩ := Prod.mk.inj heq
      have htaken : x.isOperand = true := by
        simpa [Atom.isOperand, imp_iff_not_or, or_comm] using hkeep
      exact .keep ha htaken (ih hmore)

theorem operation?_of_operation {op : String} {xs : List Atom} {e : Expr}
    (h : operation op xs s = .ok (e, s')) : Source.operation? op xs = some e ∧ s' = s := by
  match xs with
  | [] => exact absurd h refuse_ne_ok
  | [x] =>
    simp only [operation] at h
    cases hop : UnOp.ofSymbol op with
    | other symbol =>
      simp only [hop] at h
      exact absurd h refuse_ne_ok
    | _ =>
      simp only [hop] at h
      obtain ⟨rfl, rfl⟩ := StateT.pure_eq_ok.1 h
      exact ⟨by rw [Source.operation?, hop], rfl⟩
  | [l, r] =>
    simp only [operation] at h
    cases hop : BinOp.ofSymbol op with
    | other symbol =>
      simp only [hop] at h
      exact absurd h refuse_ne_ok
    | _ =>
      simp only [hop] at h
      split at h
      next =>
        obtain ⟨rfl, rfl⟩ := StateT.pure_eq_ok.1 h
        exact ⟨by rw [Source.operation?, hop], rfl⟩
      next => exact absurd h refuse_ne_ok
  | _ :: _ :: _ :: _ => exact absurd h refuse_ne_ok

mutual

theorem built_of_expr : ∀ (y : Source.Statement) {scope : Scope} {s s' : State} {x : Expr}
    {h : Hoisted}, expr scope y s = .ok ((x, h), s') →
    Built scope s.temporaries y x h s'.temporaries
  | ⟨_, _, some y, op, args, none, onTrue, onFalse, _⟩, scope, s, s', x, h, hcode => by
    simp only [expr] at hcode
    split at hcode
    · exact absurd hcode refuse_ne_ok
    next hop =>
      obtain rfl := not_not.1 hop
      obtain ⟨a, _, hatom, hpure⟩ := StateT.bind_eq_ok.1 hcode
      obtain ⟨ha, rfl⟩ := atom?_of_atom hatom
      obtain ⟨heq, rfl⟩ := StateT.pure_eq_ok.1 hpure
      obtain ⟨rfl, rfl⟩ := Prod.mk.inj heq
      exact .value ha
  | ⟨_, _, none, op, args, some c, onTrue, none, _⟩, scope, s, s', x, h, hcode => by
    simp only [expr] at hcode
    split at hcode
    · exact absurd hcode refuse_ne_ok
    next hop =>
      obtain rfl := not_not.1 hop
      obtain ⟨a, _, hatom, hrest⟩ := StateT.bind_eq_ok.1 hcode
      obtain ⟨ha, rfl⟩ := atom?_of_atom (within_eq_ok.1 hatom)
      obtain ⟨first, s₁, hfirst, hpure⟩ := StateT.bind_eq_ok.1 hrest
      obtain ⟨heq, rfl⟩ := StateT.pure_eq_ok.1 hpure
      obtain ⟨rfl, rfl⟩ := Prod.mk.inj heq
      exact .branch ha (blockBuilt_of_block onTrue (within_eq_ok.1 hfirst))
  | ⟨_, _, none, op, args, some c, onTrue, some ys, _⟩, scope, s, s', x, h, hcode => by
    simp only [expr] at hcode
    split at hcode
    · exact absurd hcode refuse_ne_ok
    next hop =>
      obtain rfl := not_not.1 hop
      obtain ⟨a, _, hatom, hrest⟩ := StateT.bind_eq_ok.1 hcode
      obtain ⟨ha, rfl⟩ := atom?_of_atom (within_eq_ok.1 hatom)
      obtain ⟨first, s₁, hfirst, hrest'⟩ := StateT.bind_eq_ok.1 hrest
      obtain ⟨second, s₂, hsecond, hpure⟩ := StateT.bind_eq_ok.1 hrest'
      obtain ⟨heq, rfl⟩ := StateT.pure_eq_ok.1 hpure
      obtain ⟨rfl, rfl⟩ := Prod.mk.inj heq
      exact .branchElse ha (blockBuilt_of_block onTrue (within_eq_ok.1 hfirst))
        (blockBuilt_of_block ys (within_eq_ok.1 hsecond))
  | ⟨_, _, none, op, args, none, onTrue, onFalse, _⟩, scope, s, s', x, h, hcode => by
    simp only [expr] at hcode
    split at hcode
    · exact absurd hcode refuse_ne_ok
    · obtain ⟨⟨xs, h₁⟩, s₁, hargs, hrest⟩ := StateT.bind_eq_ok.1 hcode
      obtain ⟨e, s₂, hop, hpure⟩ := StateT.bind_eq_ok.1 hrest
      obtain ⟨hoperation, rfl⟩ := operation?_of_operation hop
      obtain ⟨heq, rfl⟩ := StateT.pure_eq_ok.1 hpure
      obtain ⟨rfl, rfl⟩ := Prod.mk.inj heq
      exact .operation (hoisting_of_operands hargs) hoperation
  | ⟨_, _, some y, op, args, some c, onTrue, onFalse, _⟩, scope, s, s', x, h, hcode => by
    exact absurd hcode refuse_ne_ok

theorem blockBuilt_of_block : ∀ (ys : List Source.Statement) {scope : Scope} {s s' : State}
    {xs : List Expr}, block scope ys s = .ok (xs, s') →
    BlockBuilt scope s.temporaries ys xs s'.temporaries
  | [], scope, s, s', xs, hcode => by
    obtain ⟨rfl, rfl⟩ := StateT.pure_eq_ok.1 hcode
    exact .nil
  | y :: ys, scope, s, s', xs, hcode => by
    rw [block] at hcode
    obtain ⟨⟨x, h⟩, s₁, hline, hrest⟩ := StateT.bind_eq_ok.1 hcode
    obtain ⟨rest, s₂, hrest', hpure⟩ := StateT.bind_eq_ok.1 hrest
    obtain ⟨rfl, rfl⟩ := StateT.pure_eq_ok.1 hpure
    obtain ⟨⟨e, h₁⟩, s₃, hexpr, htail⟩ := StateT.bind_eq_ok.1 (within_eq_ok.1 hline)
    obtain ⟨_, s₄, hcheck, hname⟩ := StateT.bind_eq_ok.1 htail
    obtain rfl := of_checkTy hcheck
    have hbuilt := built_of_expr y hexpr
    have hbehind := blockBuilt_of_block ys hrest'
    split at hname
    next hempty =>
      obtain ⟨heq, rfl⟩ := StateT.pure_eq_ok.1 hname
      obtain ⟨rfl, rfl⟩ := Prod.mk.inj heq
      exact .value hempty hbuilt hbehind
    next hnamed =>
      obtain ⟨_, s₅, hbind, hend⟩ := StateT.bind_eq_ok.1 hname
      obtain ⟨hplain, _, rfl⟩ := of_bindName hbind
      obtain ⟨heq, rfl⟩ := StateT.pure_eq_ok.1 hend
      obtain ⟨rfl, rfl⟩ := Prod.mk.inj heq
      exact BlockBuilt.bind (h := h₁) hnamed hplain hbuilt hbehind

end

/-- The parameters and the scope that they make. -/
theorem of_params {ps : List Source.Param} {qs : List Param} {scope' : Scope}
    (h : params ps scope s = .ok ((qs, scope'), s')) :
    ps.mapM (fun p => (Ty.ofName? p.ty).map (Param.mk p.name)) = some qs ∧
      scope' = (qs.map fun p => (p.name, p.ty)).reverse ++ scope ∧
      (∀ p ∈ qs, isTemporary p.name = false) ∧ s'.temporaries = s.temporaries := by
  induction ps generalizing scope s qs with
  | nil =>
    obtain ⟨heq, rfl⟩ := StateT.pure_eq_ok.1 h
    obtain ⟨rfl, rfl⟩ := Prod.mk.inj heq
    exact ⟨rfl, rfl, by simp, rfl⟩
  | cons p ps ih =>
    rw [params] at h
    cases hty : Ty.ofName? p.ty with
    | none =>
      simp only [hty] at h
      exact absurd h refuse_ne_ok
    | some ty =>
      simp only [hty] at h
      obtain ⟨_, s₁, hname, hrest⟩ := StateT.bind_eq_ok.1 h
      obtain ⟨hplain, _, rfl⟩ := of_bindName (within_eq_ok.1 hname)
      obtain ⟨⟨qs', scope₁⟩, s₂, hmore, hpure⟩ := StateT.bind_eq_ok.1 hrest
      obtain ⟨heq, rfl⟩ := StateT.pure_eq_ok.1 hpure
      obtain ⟨rfl, rfl⟩ := Prod.mk.inj heq
      obtain ⟨hqs, hscope, hnames, ht⟩ := ih hmore
      refine ⟨by simp [List.mapM_cons, hty, hqs], ?_, ?_, ht⟩
      · rw [hscope, List.map_cons, List.reverse_cons, List.append_assoc]
        rfl
      · rintro q (_ | ⟨_, hq⟩)
        · exact hplain
        · exact hnames q hq

end Build

/-- A function that is built has its parameters as they are written, and a body in their scope. -/
theorem Source.Func.of_build (src : Source.Func) {f : ExprBackend.Func} (h : src.build = .ok f) :
    f.name = src.name ∧
      src.params.mapM (fun p => (Ty.ofName? p.ty).map (ExprBackend.Param.mk p.name)) =
        some f.params ∧
      (∀ p ∈ f.params, isTemporary p.name = false) ∧
      ∃ t, Build.BlockBuilt f.paramTyping.reverse {} src.body f.body t := by
  unfold build at h
  obtain ⟨⟨_, s'⟩, hfunc, heq⟩ := Except.bind_eq_ok.1 h
  cases heq
  replace hfunc := Build.within_eq_ok.1 hfunc
  unfold Build.func at hfunc
  split at hfunc
  next => exact absurd hfunc Build.refuse_ne_ok
  next =>
    obtain ⟨⟨ps, scope⟩, s₁, hparams, hrest⟩ := StateT.bind_eq_ok.1 hfunc
    obtain ⟨body, s₂, hbody, hpure⟩ := StateT.bind_eq_ok.1 hrest
    obtain ⟨rfl, rfl⟩ := StateT.pure_eq_ok.1 hpure
    obtain ⟨hps, rfl, hnames, ht⟩ := Build.of_params hparams
    have hbuilt := Build.blockBuilt_of_block src.body (Build.within_eq_ok.1 hbody)
    rw [List.append_nil, ht] at hbuilt
    exact ⟨rfl, hps, hnames, _, hbuilt⟩

end ExprBackend
