import ExprBackend.Loader.Load
import ExprBackend.Proofs.Lookup
import ExprBackend.Proofs.Results
import ExprBackend.Proofs.Scoping

/-!
# Loaded functions

What the loader builds is in loader form. It notes every name that it binds: those of the source
have no number sign and are refused if they are bound already, and temporaries are numbered.
-/

namespace ExprBackend

def blockScope : List Expr → Typing → Typing
  | [], names => names
  | x :: xs, names => blockScope xs (x.declares ++ names)

theorem blockScope_append (xs ys : List Expr) (names : Typing) :
    blockScope (xs ++ ys) names = blockScope ys (blockScope xs names) := by
  induction xs generalizing names with
  | nil => rfl
  | cons x xs ih => exact ih _

theorem blockWellFormed_append (xs ys : List Expr) (names : Typing) :
    blockWellFormed (xs ++ ys) names =
      (blockWellFormed xs names && blockWellFormed ys (blockScope xs names)) := by
  induction xs generalizing names with
  | nil => simp [blockWellFormed, blockScope]
  | cons x xs ih => simp only [List.cons_append, blockWellFormed, blockScope, ih, Bool.and_assoc]

theorem blockBindings_append (xs ys : List Expr) :
    blockBindings (xs ++ ys) = blockBindings xs ++ blockBindings ys := by
  induction xs with
  | nil => rfl
  | cons x xs ih => simp only [List.cons_append, blockBindings, ih, List.append_assoc]

namespace Build

variable {α : Type} {scope : Scope} {names : Typing} {s s' : State} {x : Atom}

/-- All names bound so far are different, and the temporaries among them have numbers that are
used. The names in scope are bound, and as they are in a typing. -/
structure Sound (scope : Scope) (names : Typing) (s : State) : Prop where
  nodup : s.bound.Nodup
  numbered : ∀ z ∈ s.bound, isTemporary z = true →
    ∃ k < s.temporaries.used, z = s.temporaries.nameAt k
  known : ∀ z ∈ scope.map Prod.fst, z ∈ s.bound
  agrees : ∀ z ty, List.lookup z scope = some ty → List.lookup z names = some ty

theorem Sound.cons (h : Sound scope names s) {name : String} {ty : Ty} (hfresh : name ∉ s.bound)
    (hbound : s'.bound = name :: s.bound)
    (hnumbered : isTemporary name = true → ∃ k < s'.temporaries.used, name = s'.temporaries.nameAt k)
    (hlater : ∀ k < s.temporaries.used, ∃ j < s'.temporaries.used,
      s.temporaries.nameAt k = s'.temporaries.nameAt j) :
    Sound ((name, ty) :: scope) ((name, ty) :: names) s' := by
  refine ⟨?_, ?_, ?_, ?_⟩
  · rw [hbound]
    exact List.nodup_cons.2 ⟨hfresh, h.nodup⟩
  · intro z hz htemp
    rw [hbound] at hz
    rcases List.mem_cons.1 hz with rfl | hz
    · exact hnumbered htemp
    · obtain ⟨k, hk, rfl⟩ := h.numbered z hz htemp
      exact hlater k hk
  · intro z hz
    rw [hbound]
    rw [List.map_cons] at hz
    rcases List.mem_cons.1 hz with rfl | hz
    · exact List.mem_cons_self
    · exact List.mem_cons_of_mem _ (h.known z hz)
  · intro z ty' hz
    rw [List.lookup_cons] at hz ⊢
    split
    next heq => simpa [heq] using hz
    next heq => exact h.agrees z ty' (by simpa [heq] using hz)

theorem within_eq_ok {place : BuildPlace} {b : Builder α} {r : α × State} :
    within place b s = .ok r ↔ b s = .ok r := by
  unfold within
  split <;> simp_all

theorem refuse_ne_ok {cause : BuildCause} {r : α × State} : (refuse cause : Builder α) s ≠ .ok r := by
  intro h
  cases h

/-- A name of the source is new. -/
theorem of_bindName {name : String} (h : bindName name s = .ok ((), s')) :
    isTemporary name = false ∧ name ∉ s.bound ∧ s' = { s with bound := name :: s.bound } := by
  unfold bindName at h
  split at h
  next => exact absurd h refuse_ne_ok
  next htemp =>
    obtain ⟨_, _, hget, hrest⟩ := StateT.bind_eq_ok.1 h
    obtain ⟨rfl, rfl⟩ := Prod.mk.inj (Except.ok.inj hget)
    split at hrest
    next => exact absurd hrest refuse_ne_ok
    next hfresh =>
      cases hrest
      exact ⟨Bool.eq_false_iff.2 htemp, by simpa using hfresh, rfl⟩

theorem Sound.bindName (h : Sound scope names s) {name : String}
    (hname : bindName name s = .ok ((), s')) (ty : Ty) :
    Sound ((name, ty) :: scope) ((name, ty) :: names) s' ∧ s'.bound = name :: s.bound := by
  obtain ⟨htemp, hfresh, rfl⟩ := of_bindName hname
  exact ⟨h.cons hfresh rfl (fun h => by simp [htemp] at h) fun k hk => ⟨k, hk, rfl⟩, rfl⟩

theorem of_literal {line : Nat} {make : α → Atom} {r : Except Literal.Refusal α}
    (h : literal line make r s = .ok (x, s')) : (∃ v, x = make v) ∧ s' = s := by
  cases r with
  | error why => exact absurd h refuse_ne_ok
  | ok v =>
    obtain ⟨rfl, rfl⟩ := StateT.pure_eq_ok.1 h
    exact ⟨⟨v, rfl⟩, rfl⟩

theorem of_atom {y : Source.Operand} (h : atom scope y s = .ok (x, s')) :
    x.inScope scope = true ∧ s' = s := by
  cases y with
  | other line => exact absurd h refuse_ne_ok
  | scalar line tag text =>
    cases tag with
    | int =>
      obtain ⟨⟨v, rfl⟩, hs⟩ := of_literal h
      exact ⟨rfl, hs⟩
    | float =>
      obtain ⟨⟨v, rfl⟩, hs⟩ := of_literal h
      exact ⟨rfl, hs⟩
    | bool =>
      obtain ⟨⟨v, rfl⟩, hs⟩ := of_literal h
      exact ⟨rfl, hs⟩
    | str =>
      cases hty : List.lookup text scope with
      | none =>
        simp only [atom, hty] at h
        exact absurd h refuse_ne_ok
      | some ty =>
        simp only [atom, hty] at h
        obtain ⟨rfl, rfl⟩ := StateT.pure_eq_ok.1 h
        exact ⟨by simp [Atom.inScope, Atom.var, hty], rfl⟩
    | _ => exact absurd h refuse_ne_ok

theorem Sound.next_notMem (h : Sound scope names s) :
    s.temporaries.nameAt s.temporaries.used ∉ s.bound := by
  intro hmem
  obtain ⟨k, hk, heq⟩ := h.numbered _ hmem (s.temporaries.isTemporary_nameAt _)
  exact absurd (Temporaries.nameAt_inj.1 heq).symm (Nat.ne_of_lt hk)

/-- Statements that were put in front, with the scope behind them. -/
structure Hoists (names : Typing) (s : State) (h : Hoisted) (s' : State) : Prop where
  sound : Sound h.scope (blockScope h.code names) s'
  bound : s'.bound = ((blockBindings h.code).map Prod.fst).reverse ++ s.bound
  wellFormed : blockWellFormed h.code names = true

/-- Names in scope stay what they are when others are bound. -/
def Extends (scope scope' : Scope) : Prop :=
  ∀ z ty, List.lookup z scope = some ty → List.lookup z scope' = some ty

theorem inScope_mono {scope scope' : Typing} (h : Extends scope scope')
    (hx : x.inScope scope = true) : x.inScope scope' = true := by
  by_cases hvar : x.isVar = true
  · simpa [Atom.inScope, hvar] using h _ _ (Atom.lookup_of_inScope hx hvar)
  · simp [Atom.inScope, hvar]

theorem of_hoist {s₀ : State} {h h' : Hoisted} {x' : Atom} (hh : Hoists names s₀ h s)
    (hx : x.inScope h.scope = true) (hcode : hoist h x s = .ok ((x', h'), s')) :
    Hoists names s₀ h' s' ∧ Extends h.scope h'.scope ∧ x'.inScope h'.scope = true ∧
      x'.isOperand = true := by
  unfold hoist at hcode
  split at hcode
  next hfloat =>
    obtain ⟨_, _, hget, hrest⟩ := StateT.bind_eq_ok.1 hcode
    obtain ⟨rfl, rfl⟩ := Prod.mk.inj (Except.ok.inj hget)
    obtain ⟨_, _, hmodify, hpure⟩ := StateT.bind_eq_ok.1 hrest
    obtain ⟨rfl, rfl⟩ := Prod.mk.inj (Except.ok.inj hmodify)
    obtain ⟨heq, rfl⟩ := StateT.pure_eq_ok.1 hpure
    obtain ⟨rfl, rfl⟩ := Prod.mk.inj heq
    have hfresh := hh.sound.next_notMem
    simp only [Bool.and_eq_true, decide_eq_true_eq, Bool.not_eq_true'] at hfloat
    have hne : s.temporaries.nameAt s.temporaries.used ≠ "" := by
      intro hempty
      have htemp := s.temporaries.isTemporary_nameAt s.temporaries.used
      rw [hempty] at htemp
      simp [isTemporary] at htemp
    refine ⟨⟨?_, ?_, ?_⟩, ?_, ?_, ?_⟩
    · rw [blockScope_append]
      refine hh.sound.cons hfresh rfl (fun _ => ⟨_, Nat.lt_succ_self _, rfl⟩) fun k hk => ?_
      exact ⟨k, Nat.lt_succ_of_lt hk, rfl⟩
    · simp [blockBindings_append, blockBindings, Expr.bindings, hh.bound]
    · rw [blockWellFormed_append, hh.wellFormed]
      simp [blockWellFormed, Expr.wellFormed, Expr.isBind, Atom.inScope, hfloat.2]
    · intro z ty hz
      have hz' := hh.sound.known z (List.mem_map.2 ⟨_, mem_of_lookup hz, rfl⟩)
      have hother : z ≠ s.temporaries.nameAt s.temporaries.used := fun heq => hfresh (heq ▸ hz')
      rw [List.lookup_cons, beq_eq_false_iff_ne.2 hother]
      exact hz
    · simp [Atom.inScope, Atom.var]
    · simp [Atom.isOperand, Atom.var, Atom.isVar, hne]
  next hfloat =>
    obtain ⟨heq, rfl⟩ := StateT.pure_eq_ok.1 hcode
    obtain ⟨rfl, rfl⟩ := Prod.mk.inj heq
    refine ⟨hh, fun _ _ h => h, hx, ?_⟩
    simp only [Bool.and_eq_true, decide_eq_true_eq, Bool.not_eq_true', not_and,
      Bool.not_eq_false] at hfloat
    by_cases hty : x'.ty = .float
    · simp [Atom.isOperand, hfloat hty]
    · simp [Atom.isOperand, hty]

theorem of_operands {s₀ : State} {i : Nat} {ys : List Source.Operand} {h h' : Hoisted}
    {xs : List Atom} (hh : Hoists names s₀ h s) (hcode : operands i ys h s = .ok ((xs, h'), s')) :
    Hoists names s₀ h' s' ∧ Extends h.scope h'.scope ∧
      ∀ x ∈ xs, x.inScope h'.scope = true ∧ x.isOperand = true := by
  induction ys generalizing i h s xs with
  | nil =>
    obtain ⟨heq, rfl⟩ := StateT.pure_eq_ok.1 hcode
    obtain ⟨rfl, rfl⟩ := Prod.mk.inj heq
    exact ⟨hh, fun _ _ h => h, by simp⟩
  | cons y ys ih =>
    obtain ⟨x, _, hatom, hrest⟩ := StateT.bind_eq_ok.1 hcode
    obtain ⟨hx, rfl⟩ := of_atom (within_eq_ok.1 hatom)
    obtain ⟨⟨x', h₁⟩, s₁, hhoist, hrest'⟩ := StateT.bind_eq_ok.1 hrest
    obtain ⟨hh₁, hext₁, hx', hoperand⟩ := of_hoist hh hx hhoist
    obtain ⟨⟨xs', h₂⟩, s₂, hmore, hpure⟩ := StateT.bind_eq_ok.1 hrest'
    obtain ⟨heq, rfl⟩ := StateT.pure_eq_ok.1 hpure
    obtain ⟨rfl, rfl⟩ := Prod.mk.inj heq
    obtain ⟨hh₂, hext₂, hxs'⟩ := ih hh₁ hmore
    refine ⟨hh₂, fun z ty hz => hext₂ z ty (hext₁ z ty hz), fun a ha => ?_⟩
    rcases List.mem_cons.1 ha with rfl | ha
    · exact ⟨inScope_mono hext₂ hx', hoperand⟩
    · exact hxs' a ha

theorem of_unary {op : String} {e : Expr} (h : operation op [x] s = .ok (e, s')) :
    ∃ u : UnOp, u.isDeclared = true ∧ e = .unary u x x.ty ∧ s' = s := by
  simp only [operation] at h
  cases hop : UnOp.ofSymbol op with
  | other symbol =>
    simp only [hop] at h
    exact absurd h refuse_ne_ok
  | _ =>
    simp only [hop] at h
    obtain ⟨rfl, rfl⟩ := StateT.pure_eq_ok.1 h
    exact ⟨_, rfl, rfl, rfl⟩

theorem of_binary {op : String} {l r : Atom} {e : Expr} (h : operation op [l, r] s = .ok (e, s')) :
    ∃ b : BinOp, b.isDeclared = true ∧ l.ty = r.ty ∧ e = .binary b l r l.ty ∧ s' = s := by
  simp only [operation] at h
  cases hop : BinOp.ofSymbol op with
  | other symbol =>
    simp only [hop] at h
    exact absurd h refuse_ne_ok
  | _ =>
    simp only [hop] at h
    split at h
    next hty =>
      obtain ⟨rfl, rfl⟩ := StateT.pure_eq_ok.1 h
      exact ⟨_, rfl, hty, rfl, rfl⟩
    next => exact absurd h refuse_ne_ok

theorem of_operation {op : String} {xs : List Atom} {e : Expr}
    (h : operation op xs s = .ok (e, s'))
    (hxs : ∀ x ∈ xs, x.inScope names = true ∧ x.isOperand = true) :
    e.wellFormed names = true ∧ e.isBind = false ∧ e.bindings = [] ∧ s' = s := by
  match xs with
  | [] => exact absurd h refuse_ne_ok
  | [x] =>
    obtain ⟨u, hu, rfl, rfl⟩ := of_unary h
    obtain ⟨hscope, hoperand⟩ := hxs x (by simp)
    exact ⟨by simp [Expr.wellFormed, hu, hscope, hoperand], rfl, rfl, rfl⟩
  | [l, r] =>
    obtain ⟨b, hb, hty, rfl, rfl⟩ := of_binary h
    obtain ⟨hlscope, hloperand⟩ := hxs l (by simp)
    obtain ⟨hrscope, hroperand⟩ := hxs r (by simp)
    refine ⟨?_, rfl, rfl, rfl⟩
    simp [Expr.wellFormed, hb, hlscope, hrscope, hloperand, hroperand, hty]
  | _ :: _ :: _ :: _ => exact absurd h refuse_ne_ok

theorem Sound.restrict {scope' : Scope} {names' : Typing} {zs : List String}
    (h : Sound scope names s) (h' : Sound scope' names' s') (hbound : s'.bound = zs ++ s.bound) :
    Sound scope names s' :=
  ⟨h'.nodup, h'.numbered, fun z hz => hbound ▸ List.mem_append_right _ (h.known z hz), h.agrees⟩

structure Yields (names : Typing) (s : State) (x : Expr) (h : Hoisted) (s' : State) : Prop where
  sound : Sound h.scope (blockScope h.code names) s'
  bound : s'.bound = ((blockBindings h.code ++ x.bindings).map Prod.fst).reverse ++ s.bound
  front : blockWellFormed h.code names = true
  wellFormed : x.wellFormed (blockScope h.code names) = true
  notBind : x.isBind = false

structure Builds (scope : Scope) (names : Typing) (s : State) (xs : List Expr) (s' : State) :
    Prop where
  sound : Sound scope names s'
  bound : s'.bound = ((blockBindings xs).map Prod.fst).reverse ++ s.bound
  wellFormed : blockWellFormed xs names = true

/-- A statement that puts nothing in front. -/
theorem yields_plain {e : Expr} (hsound : Sound scope names s') (hwf : e.wellFormed names = true)
    (hbind : e.isBind = false)
    (hbound : s'.bound = (e.bindings.map Prod.fst).reverse ++ s.bound) :
    Yields names s e { scope } s' :=
  ⟨hsound, hbound, rfl, hwf, hbind⟩

theorem of_checkTy {declared : String} {ty : Ty} (h : checkTy declared ty s = .ok ((), s')) :
    s' = s := by
  unfold checkTy at h
  split at h
  · exact (StateT.pure_eq_ok.1 h).2
  · cases hty : Ty.ofName? declared with
    | none =>
      simp only [hty] at h
      exact absurd h refuse_ne_ok
    | some d =>
      simp only [hty] at h
      split at h
      · exact (StateT.pure_eq_ok.1 h).2
      · exact absurd h refuse_ne_ok

/-- A statement with what is in front of it, before the rest of its block. -/
theorem Builds.cons {s₁ : State} {e : Expr} {h : Hoisted} {rest : List Expr} {scope' : Scope}
    (hs : Sound scope names s) (hfront : blockWellFormed h.code names = true)
    (he : e.wellFormed (blockScope h.code names) = true)
    (hbound : s₁.bound = ((blockBindings h.code ++ e.bindings).map Prod.fst).reverse ++ s.bound)
    (hrest : Builds scope' (e.declares ++ blockScope h.code names) s₁ rest s') :
    Builds scope names s (h.code ++ e :: rest) s' := by
  have hall : s'.bound = ((blockBindings (h.code ++ e :: rest)).map Prod.fst).reverse ++ s.bound := by
    rw [hrest.bound, hbound, blockBindings_append, blockBindings]
    simp only [List.map_append, List.reverse_append, List.append_assoc]
  refine ⟨hs.restrict hrest.sound hall, hall, ?_⟩
  rw [blockWellFormed_append, hfront, blockWellFormed, he, hrest.wellFormed]
  rfl

theorem hoists_nil (h : Sound scope names s) : Hoists names s { scope } s := ⟨h, rfl, rfl⟩

mutual

theorem yields_expr : ∀ (y : Source.Statement) {scope : Scope} {names : Typing} {s s' : State}
    {x : Expr} {h : Hoisted}, Sound scope names s → expr scope y s = .ok ((x, h), s') →
    Yields names s x h s'
  | ⟨_, _, some y, op, args, none, onTrue, onFalse, _⟩, scope, names, s, s', x, h, hs, hcode => by
    simp only [expr] at hcode
    split at hcode
    · exact absurd hcode refuse_ne_ok
    · obtain ⟨a, _, hatom, hpure⟩ := StateT.bind_eq_ok.1 hcode
      obtain ⟨ha, rfl⟩ := of_atom hatom
      obtain ⟨heq, rfl⟩ := StateT.pure_eq_ok.1 hpure
      obtain ⟨rfl, rfl⟩ := Prod.mk.inj heq
      exact yields_plain hs (inScope_mono hs.agrees ha) rfl rfl
  | ⟨_, _, none, op, args, some c, onTrue, none, _⟩, scope, names, s, s', x, h, hs, hcode => by
    simp only [expr] at hcode
    split at hcode
    · exact absurd hcode refuse_ne_ok
    · obtain ⟨a, _, hatom, hrest⟩ := StateT.bind_eq_ok.1 hcode
      obtain ⟨ha, rfl⟩ := of_atom (within_eq_ok.1 hatom)
      obtain ⟨first, s₁, hfirst, hpure⟩ := StateT.bind_eq_ok.1 hrest
      have hbuilt := builds_block onTrue hs (within_eq_ok.1 hfirst)
      obtain ⟨heq, rfl⟩ := StateT.pure_eq_ok.1 hpure
      obtain ⟨rfl, rfl⟩ := Prod.mk.inj heq
      refine yields_plain hbuilt.sound ?_ rfl hbuilt.bound
      simp [Expr.wellFormed, inScope_mono hs.agrees ha, hbuilt.wellFormed]
  | ⟨_, _, none, op, args, some c, onTrue, some ys, _⟩, scope, names, s, s', x, h, hs, hcode => by
    simp only [expr] at hcode
    split at hcode
    · exact absurd hcode refuse_ne_ok
    · obtain ⟨a, _, hatom, hrest⟩ := StateT.bind_eq_ok.1 hcode
      obtain ⟨ha, rfl⟩ := of_atom (within_eq_ok.1 hatom)
      obtain ⟨first, s₁, hfirst, hrest'⟩ := StateT.bind_eq_ok.1 hrest
      have hbuilt := builds_block onTrue hs (within_eq_ok.1 hfirst)
      obtain ⟨second, s₂, hsecond, hpure⟩ := StateT.bind_eq_ok.1 hrest'
      have hbuilt' := builds_block ys hbuilt.sound (within_eq_ok.1 hsecond)
      obtain ⟨heq, rfl⟩ := StateT.pure_eq_ok.1 hpure
      obtain ⟨rfl, rfl⟩ := Prod.mk.inj heq
      refine yields_plain hbuilt'.sound ?_ rfl ?_
      · simp [Expr.wellFormed, inScope_mono hs.agrees ha, hbuilt.wellFormed, hbuilt'.wellFormed]
      · rw [hbuilt'.bound, hbuilt.bound, Expr.bindings, List.map_append, List.reverse_append,
          List.append_assoc]
  | ⟨_, _, none, op, args, none, onTrue, onFalse, _⟩, scope, names, s, s', x, h, hs, hcode => by
    simp only [expr] at hcode
    split at hcode
    · exact absurd hcode refuse_ne_ok
    · obtain ⟨⟨xs, h₁⟩, s₁, hargs, hrest⟩ := StateT.bind_eq_ok.1 hcode
      obtain ⟨hhoists, _, hxs⟩ := of_operands (hoists_nil hs) hargs
      obtain ⟨e, s₂, hop, hpure⟩ := StateT.bind_eq_ok.1 hrest
      obtain ⟨hwf, hbind, hnone, rfl⟩ := of_operation hop fun a ha =>
        ⟨inScope_mono hhoists.sound.agrees (hxs a ha).1, (hxs a ha).2⟩
      obtain ⟨heq, rfl⟩ := StateT.pure_eq_ok.1 hpure
      obtain ⟨rfl, rfl⟩ := Prod.mk.inj heq
      refine ⟨hhoists.sound, ?_, hhoists.wellFormed, hwf, hbind⟩
      rw [hnone, List.append_nil]
      exact hhoists.bound
  | ⟨_, _, some y, op, args, some c, onTrue, onFalse, _⟩, scope, names, s, s', x, h, hs, hcode => by
    exact absurd hcode refuse_ne_ok

theorem builds_block : ∀ (ys : List Source.Statement) {scope : Scope} {names : Typing}
    {s s' : State} {xs : List Expr}, Sound scope names s → block scope ys s = .ok (xs, s') →
    Builds scope names s xs s'
  | [], scope, names, s, s', xs, hs, hcode => by
    obtain ⟨rfl, rfl⟩ := StateT.pure_eq_ok.1 hcode
    exact ⟨hs, rfl, rfl⟩
  | y :: ys, scope, names, s, s', xs, hs, hcode => by
    rw [block] at hcode
    obtain ⟨⟨x, h⟩, s₁, hline, hrest⟩ := StateT.bind_eq_ok.1 hcode
    obtain ⟨rest, s₂, hrest', hpure⟩ := StateT.bind_eq_ok.1 hrest
    obtain ⟨rfl, rfl⟩ := StateT.pure_eq_ok.1 hpure
    obtain ⟨⟨e, h₁⟩, s₃, hexpr, htail⟩ := StateT.bind_eq_ok.1 (within_eq_ok.1 hline)
    have hyields := yields_expr y hs hexpr
    obtain ⟨_, s₄, hcheck, hname⟩ := StateT.bind_eq_ok.1 htail
    obtain rfl := of_checkTy hcheck
    split at hname
    next =>
      obtain ⟨heq, rfl⟩ := StateT.pure_eq_ok.1 hname
      obtain ⟨rfl, rfl⟩ := Prod.mk.inj heq
      have hsound := hyields.sound
      rw [← List.nil_append (blockScope _ _), ← Expr.declares_of_isBind hyields.notBind] at hsound
      exact .cons hs hyields.front hyields.wellFormed hyields.bound (builds_block ys hsound hrest')
    next =>
      obtain ⟨_, s₅, hbind, hend⟩ := StateT.bind_eq_ok.1 hname
      obtain ⟨hsound, hbound⟩ := hyields.sound.bindName hbind (tyOf e)
      obtain ⟨heq, rfl⟩ := StateT.pure_eq_ok.1 hend
      obtain ⟨rfl, rfl⟩ := Prod.mk.inj heq
      refine .cons hs hyields.front ?_ ?_ (builds_block ys hsound hrest')
      · rw [Expr.wellFormed, hyields.notBind, hyields.wellFormed]
        rfl
      · rw [hbound, hyields.bound, Expr.bindings]
        simp

end

theorem sound_params {ps : List Source.Param} {qs : List Param} {scope' : Scope}
    (hs : Sound scope names s) (h : params ps scope s = .ok ((qs, scope'), s')) :
    Sound scope' ((qs.map fun p => (p.name, p.ty)).reverse ++ names) s' ∧
      s'.bound = (qs.map Param.name).reverse ++ s.bound := by
  induction ps generalizing scope names s qs with
  | nil =>
    obtain ⟨heq, rfl⟩ := StateT.pure_eq_ok.1 h
    obtain ⟨rfl, rfl⟩ := Prod.mk.inj heq
    exact ⟨hs, rfl⟩
  | cons p ps ih =>
    rw [params] at h
    cases hty : Ty.ofName? p.ty with
    | none =>
      simp only [hty] at h
      exact absurd h refuse_ne_ok
    | some ty =>
      simp only [hty] at h
      obtain ⟨_, s₁, hname, hrest⟩ := StateT.bind_eq_ok.1 h
      obtain ⟨hs₁, hbound⟩ := hs.bindName (within_eq_ok.1 hname) ty
      obtain ⟨⟨qs', scope₁⟩, s₂, hmore, hpure⟩ := StateT.bind_eq_ok.1 hrest
      obtain ⟨heq, rfl⟩ := StateT.pure_eq_ok.1 hpure
      obtain ⟨rfl, rfl⟩ := Prod.mk.inj heq
      obtain ⟨hs₂, hbound₂⟩ := ih hs₁ hmore
      refine ⟨?_, ?_⟩
      · rw [List.map_cons, List.reverse_cons, List.append_assoc]
        exact hs₂
      · rw [hbound₂, hbound, List.map_cons, List.reverse_cons, List.append_assoc]
        rfl

theorem loaderForm_func {src : Source.Func} {f : Func} (h : func src {} = .ok (f, s')) :
    f.LoaderForm := by
  unfold func at h
  split at h
  next => exact absurd h refuse_ne_ok
  next hnamed =>
    obtain ⟨⟨ps, scope⟩, s₁, hparams, hrest⟩ := StateT.bind_eq_ok.1 h
    obtain ⟨body, s₂, hbody, hpure⟩ := StateT.bind_eq_ok.1 hrest
    obtain ⟨rfl, rfl⟩ := StateT.pure_eq_ok.1 hpure
    have hstart : Sound [] [] {} := ⟨List.nodup_nil, by simp, by simp, by simp⟩
    obtain ⟨hsound, hbound⟩ := sound_params hstart hparams
    rw [List.append_nil] at hsound hbound
    have hnames : (ps.map Param.name).Nodup := by
      rw [← List.nodup_reverse, ← hbound]
      exact hsound.nodup
    -- the scope of a builder has the last parameter first
    have hsound' : Sound scope (ps.map fun p => (p.name, p.ty)) s₁ := by
      refine ⟨hsound.nodup, hsound.numbered, hsound.known, fun z ty hz => ?_⟩
      refine lookup_of_mem ?_ (List.mem_reverse.1 (mem_of_lookup (hsound.agrees z ty hz)))
      rw [List.map_map]
      exact hnames
    have hbuilt := builds_block src.body hsound' (within_eq_ok.1 hbody)
    refine ⟨hnamed, ?_, hbuilt.wellFormed⟩
    have hall : s'.bound = ((Func.bindings ⟨src.name, ps, body⟩).map Prod.fst).reverse := by
      rw [hbuilt.bound, hbound, Func.bindings, Func.paramTyping, List.map_append,
        List.reverse_append, List.map_map]
      rfl
    rw [← List.nodup_reverse, ← hall]
    exact hbuilt.sound.nodup

end Build

theorem Source.Func.loaderForm_build (src : Source.Func) {f : ExprBackend.Func}
    (h : src.build = .ok f) : f.LoaderForm := by
  unfold build at h
  obtain ⟨⟨_, s'⟩, hfunc, heq⟩ := Except.bind_eq_ok.1 h
  cases heq
  exact Build.loaderForm_func (Build.within_eq_ok.1 hfunc)

/-- Every function of a program that is built from descriptions is in loader form. -/
theorem Program.loaderForm_ofSource {srcs : List Source.Func} {p : Program}
    (h : Program.ofSource srcs = .ok p) : ∀ f ∈ p.funcs, f.LoaderForm := by
  intro f hf
  obtain ⟨funcs, hfuncs, hpure⟩ := Except.bind_eq_ok.1 h
  cases hpure
  obtain ⟨src, _, hbuild⟩ := Except.exists_of_mapM hfuncs hf
  exact src.loaderForm_build hbuild

/-- A program that is read from a text is built from descriptions. -/
theorem Program.exists_ofSource {text : String} {p : Program} (h : Program.parse text = .ok p) :
    ∃ srcs, Source.ofText text = .ok srcs ∧ Program.ofSource srcs = .ok p := by
  obtain ⟨srcs, htext, hbuild⟩ := Except.bind_eq_ok.1 h
  exact ⟨srcs, htext, Except.eq_ok_of_mapError hbuild⟩

theorem Program.loaderForm_parse {text : String} {p : Program} (h : Program.parse text = .ok p) :
    ∀ f ∈ p.funcs, f.LoaderForm := by
  obtain ⟨srcs, _, hbuild⟩ := Program.exists_ofSource h
  exact Program.loaderForm_ofSource hbuild

theorem Program.of_parse {text : String} {check : Program → Bool}
    (h : (Program.parse text).toOption.any check = true) :
    ∃ p, Program.parse text = .ok p ∧ check p = true := by
  obtain ⟨p, hp, hcheck⟩ := (Option.any_eq_true _ _).1 h
  exact ⟨p, Except.eq_ok_of_toOption hp, hcheck⟩

end ExprBackend
