import ExprBackend.Proofs.IntLowering
import ExprBackend.Proofs.Scoping

/-!
# Evaluation on demand

What generated code computes, without any mention of where variables are held. Only statements
whose value is wanted are evaluated. The quotient of the last division is carried along, because
it is what the result register holds when no value is made for it.

A definite block is one for which this determines the result. Other blocks read what happens to be
in the storage of a name, or can be run only if a name is held in memory.
-/

namespace ExprBackend

/-- What a value is wanted for: as the result of the function, where a float register holds
something before, or as the value of a name, which may be a float. -/
inductive Want where
  | result
  | floatResult (held : UInt64)
  | name (float : Bool)
deriving DecidableEq, Repr

namespace Want

def isName : Want → Bool
  | .name _ => true
  | _ => false

def isFloatResult : Want → Bool
  | .floatResult _ => true
  | _ => false

def isFloat : Want → Bool
  | .result => false
  | .floatResult _ => true
  | .name float => float

theorem isFloat_of_isFloatResult {want : Want} (h : want.isFloatResult = true) :
    want.isFloat = true := by
  cases want with
  | floatResult held => rfl
  | _ => cases h

/-- What the result register holds if nothing is put there, when `rax` holds a word. -/
def idle (want : Want) (rax : UInt64) : UInt64 :=
  match want with
  | .floatResult held => held
  | _ => rax

end Want

/-- A literal that can not be compared with 0. -/
def Atom.isFloatLiteral (x : Atom) : Bool := !x.isVar && decide (x.ty = .float)

mutual

/-- The value of an expression that is wanted, and what is left in `rax`. -/
def Expr.demand : Expr → Want → Env → UInt64 → Option (UInt64 × UInt64)
  | .atom x, _, env, rax => do return (← x.eval? env, rax)
  | .bind _ init, want, env, rax => init.demand want env rax
  | .unary op x ty, want, env, rax => do
    let w ← op.eval? ty (← x.eval? env)
    if op = .not ∧ want.isFloatResult then none else return (w, rax)
  | .binary op l r ty, want, env, rax => do
    let a ← l.eval? env
    let b ← r.eval? env
    let w ← op.eval? ty a b
    if op.isRelation ∧ want.isFloatResult then none
    else return (w, if ty = .float then rax else op.leftInRax a b rax)
  | .branch cond onTrue onFalse, want, env, rax => do
    if cond.isFloatLiteral then none
    else if (← cond.eval? env) ≠ 0 then blockDemand onTrue want env rax
    else match onFalse with
      | some b => blockDemand b want env rax
      | none => return (want.idle rax, rax)
  | .missing, _, _, _ => none

/-- The value of a block. Of the statements before the last one only the bindings of names that
are read are evaluated. -/
def blockDemand : List Expr → Want → Env → UInt64 → Option (UInt64 × UInt64)
  | [], want, _, rax => some (want.idle rax, rax)
  | [x], want, env, rax => x.demand want env rax
  | x :: y :: xs, want, env, rax =>
    match x with
    | .bind name init =>
      if name ∈ blockReads (y :: xs) then do
        let (w, rax) ← init.demand (.name (decide (init.tyOf = .float))) env rax
        blockDemand (y :: xs) want ((name, w) :: env) rax
      else blockDemand (y :: xs) want env rax
    | _ => blockDemand (y :: xs) want env rax

end

mutual

/-- No condition is a float variable, and where the value of a name is wanted, every branch makes
one that can be made in its storage. -/
def Expr.definite : Expr → Want → Bool
  | .atom _, _ => true
  | .bind _ init, want => init.definite want
  | .unary op _ _, want => !(decide (op = .not) && decide (want = .name true))
  | .binary op _ _ _, want => !(op.isRelation && decide (want = .name true))
  | .branch cond onTrue onFalse, want =>
    !(cond.isVar && decide (cond.ty = .float)) && blockDefinite onTrue want &&
      match onFalse with
      | some b => blockDefinite b want
      | none => !want.isName
  | .missing, _ => true

def blockDefinite : List Expr → Want → Bool
  | [], want => !want.isName
  | [x], want => x.definite want
  | x :: y :: xs, want =>
    (match x with
      | .bind name init =>
        decide (name ∉ blockReads (y :: xs)) ||
          init.definite (.name (decide (init.tyOf = .float)))
      | _ => true) && blockDefinite (y :: xs) want

end

section Equations

variable {name : String} {init x y : Expr} {xs : List Expr} {want : Want} {env : Env}
  {rax : UInt64}

/-- A statement that binds nothing which is read is passed over. -/
theorem blockDemand_skip (hx : ∀ z ∈ x.declares.map Prod.fst, z ∉ blockReads (y :: xs)) :
    blockDemand (x :: y :: xs) want env rax = blockDemand (y :: xs) want env rax := by
  cases x with
  | bind name init =>
    rw [blockDemand]
    exact if_neg (hx name (by simp [Expr.declares]))
  | _ => simp only [blockDemand]

theorem blockDemand_bind (hname : name ∈ blockReads (y :: xs)) :
    blockDemand (.bind name init :: y :: xs) want env rax =
      (init.demand (.name (decide (init.tyOf = .float))) env rax).bind fun p =>
        blockDemand (y :: xs) want ((name, p.1) :: env) p.2 := by
  rw [blockDemand]
  exact if_pos hname

theorem blockDefinite_tail (h : blockDefinite (x :: y :: xs) want = true) :
    blockDefinite (y :: xs) want = true := by
  cases x with
  | bind name init =>
    rw [blockDefinite, Bool.and_eq_true] at h
    exact h.2
  | _ => simpa only [blockDefinite, Bool.true_and] using h

theorem blockDefinite_bind (h : blockDefinite (.bind name init :: y :: xs) want = true)
    (hname : name ∈ blockReads (y :: xs)) :
    init.definite (.name (decide (init.tyOf = .float))) = true := by
  rw [blockDefinite, Bool.and_eq_true, Bool.or_eq_true, decide_eq_true_iff] at h
  exact h.1.resolve_left (not_not_intro hname)

end Equations

def Env.Agree (names : List String) (env env' : Env) : Prop :=
  ∀ z ∈ names, List.lookup z env' = List.lookup z env

theorem Env.Agree.mono {names names' : List String} {env env' : Env} (h : Agree names env env')
    (hsub : names' ⊆ names) : Agree names' env env' := fun z hz => h z (hsub hz)

theorem Atom.eval?_congr {env env' : Env} {x : Atom} (h : Env.Agree x.reads env env') :
    x.eval? env' = x.eval? env := by
  unfold Atom.eval?
  split
  next hvar => exact h x.name (Atom.mem_reads.2 ⟨hvar, rfl⟩)
  next => rfl

theorem Expr.eval?_env {x : Expr} {env env' : Env} {w : UInt64} (hx : x.complete = true)
    (hbind : x.isBind = false) (h : x.eval? env = some (w, env')) : env' = env := by
  cases x with
  | atom x => exact (Expr.eval?_atom.1 h).2
  | bind name init => cases hbind
  | unary op x ty =>
    obtain ⟨_, _, _, henv⟩ := Expr.eval?_unary.1 h
    exact henv
  | binary op l r ty =>
    obtain ⟨_, _, _, _, _, henv⟩ := Expr.eval?_binary.1 h
    exact henv
  | branch cond onTrue onFalse =>
    cases onFalse with
    | none => cases hx
    | some b =>
      obtain ⟨_, _, _, henv⟩ := Expr.eval?_branch.1 h
      exact henv
  | missing => cases hx

mutual

/-- A complete expression that has a value has the same one on demand. -/
theorem Expr.demand_of_eval? : ∀ (x : Expr) {scope : Typing} {want : Want} {env env' env₁ : Env}
    {w : UInt64} (rax : UInt64), x.wellFormed scope = true → x.complete = true →
    (want.isFloat = true → x.ty? = some .float) → Env.Agree x.reads env env' →
    x.eval? env = some (w, env₁) → ∃ rax', x.demand want env' rax = some (w, rax')
  | .atom x, _, want, env, env', env₁, w, rax, _, _, _, hagree, h => by
    rw [Expr.eval?_atom] at h
    rw [Expr.reads] at hagree
    refine ⟨rax, ?_⟩
    rw [Expr.demand, Atom.eval?_congr hagree, h.1]
    rfl
  | .bind name init, _, want, env, env', env₁, w, rax, hwf, hc, hty, hagree, h => by
    rw [Expr.wellFormed, Bool.and_eq_true] at hwf
    rw [Expr.complete] at hc
    rw [Expr.ty?] at hty
    rw [Expr.reads] at hagree
    obtain ⟨env₂, h, _⟩ := Expr.eval?_bind.1 h
    rw [Expr.demand]
    exact init.demand_of_eval? rax hwf.2 hc hty hagree h
  | .unary op x ty, _, want, env, env', env₁, w, rax, _, hc, hty, hagree, h => by
    rw [Expr.reads] at hagree
    obtain ⟨a, ha, hw, _⟩ := Expr.eval?_unary.1 h
    have hplace : ¬ (op = .not ∧ want.isFloatResult = true) := by
      rintro ⟨rfl, hwant⟩
      have hfloat : ty = .float := Option.some.inj (hty (Want.isFloat_of_isFloatResult hwant))
      simp [Expr.complete, hfloat] at hc
    refine ⟨rax, ?_⟩
    simp only [Expr.demand, Atom.eval?_congr hagree, ha, hw, Option.bind_eq_bind, Option.bind_some,
      if_neg hplace]
    rfl
  | .binary op l r ty, _, want, env, env', env₁, w, rax, _, hc, hty, hagree, h => by
    rw [Expr.reads] at hagree
    obtain ⟨a, b, ha, hb, hw, _⟩ := Expr.eval?_binary.1 h
    have hplace : ¬ (op.isRelation = true ∧ want.isFloatResult = true) := by
      rintro ⟨hop, hwant⟩
      have hfloat := hty (Want.isFloat_of_isFloatResult hwant)
      simp [Expr.ty?, hop] at hfloat
    refine ⟨if ty = .float then rax else op.leftInRax a b rax, ?_⟩
    simp only [Expr.demand, Atom.eval?_congr (hagree.mono (List.subset_append_left _ _)),
      Atom.eval?_congr (hagree.mono (List.subset_append_right _ _)), ha, hb, hw,
      Option.bind_eq_bind, Option.bind_some, if_neg hplace]
    rfl
  | .branch cond onTrue none, _, want, env, env', env₁, w, rax, _, hc, _, _, _ => by cases hc
  | .branch cond onTrue (some b), scope, want, env, env', env₁, w, rax, hwf, hc, hty, hagree, h => by
    simp only [Expr.wellFormed, Bool.and_eq_true] at hwf
    simp only [Expr.complete, Bool.and_eq_true, decide_eq_true_eq, beq_iff_eq] at hc
    obtain ⟨⟨⟨⟨⟨hcond, _⟩, _⟩, hfirst⟩, hsecond⟩, hclass⟩ := hc
    rw [Expr.ty?] at hty
    rw [Expr.reads, List.append_assoc] at hagree
    have hreads := hagree.mono (List.subset_append_right _ _)
    obtain ⟨c, hcv, hw, _⟩ := Expr.eval?_branch.1 h
    have hliteral : cond.isFloatLiteral = false := by simp [Atom.isFloatLiteral, hcond]
    simp only [Expr.demand, Atom.eval?_congr (hagree.mono (List.subset_append_left _ _)), hcv,
      hliteral, Bool.false_eq_true, if_false, Option.bind_eq_bind, Option.bind_some]
    by_cases hzero : c ≠ 0
    · rw [if_pos hzero] at hw ⊢
      exact blockDemand_of_eval? onTrue rax hwf.1.2 hfirst hty
        (hreads.mono (List.subset_append_left _ _)) hw
    · rw [if_neg hzero] at hw ⊢
      refine blockDemand_of_eval? b rax hwf.2 hsecond ?_ (hreads.mono (List.subset_append_right _ _)) hw
      intro hfloat
      simpa [blockIsFloat, hty hfloat] using hclass
  | .missing, _, want, env, env', env₁, w, rax, hwf, _, _, _, _ => by simp [Expr.wellFormed] at hwf

theorem blockDemand_of_eval? : ∀ (xs : List Expr) {scope : Typing} {want : Want} {env env' : Env}
    {w : UInt64} (rax : UInt64), blockWellFormed xs scope = true → blockComplete xs = true →
    (want.isFloat = true → blockTy? xs = some .float) → Env.Agree (blockReads xs) env env' →
    blockEval? xs env = some w → ∃ rax', blockDemand xs want env' rax = some (w, rax')
  | [], _, want, env, env', w, rax, _, _, _, _, h => by simp [blockEval?] at h
  | [x], scope, want, env, env', w, rax, hwf, hc, hty, hagree, h => by
    rw [blockWellFormed, Bool.and_eq_true] at hwf
    rw [blockComplete, Bool.and_eq_true] at hc
    rw [blockTy?] at hty
    obtain ⟨env₁, h⟩ := blockEval?_single.1 h
    rw [blockDemand]
    refine x.demand_of_eval? rax hwf.1 hc.1 hty (hagree.mono ?_) h
    rw [blockReads]
    exact List.subset_append_left _ _
  | x :: y :: xs, scope, want, env, env', w, rax, hwf, hc, hty, hagree, h => by
    rw [blockWellFormed, Bool.and_eq_true] at hwf
    rw [blockComplete, Bool.and_eq_true] at hc
    rw [blockTy?] at hty
    rw [blockReads] at hagree
    have hrest := hagree.mono (List.subset_append_right _ _)
    obtain ⟨a, env₁, hx, htail⟩ := blockEval?_cons.1 h
    have hskip (hbind : x.isBind = false) :
        ∃ rax', blockDemand (x :: y :: xs) want env' rax = some (w, rax') := by
      obtain rfl := Expr.eval?_env hc.1 hbind hx
      rw [blockDemand_skip (by rw [Expr.declares_of_isBind hbind]; simp)]
      exact blockDemand_of_eval? (y :: xs) rax hwf.2 hc.2 hty hrest htail
    match x with
    | .bind name init =>
      rw [Expr.wellFormed, Bool.and_eq_true, Bool.not_eq_true'] at hwf
      rw [Expr.complete] at hc
      rw [Expr.reads] at hagree
      obtain ⟨env₂, hinit, rfl⟩ := Expr.eval?_bind.1 hx
      obtain rfl := Expr.eval?_env hc.1 hwf.1.1 hinit
      by_cases hname : name ∈ blockReads (y :: xs)
      · have hfloat : (Want.name (decide (init.tyOf = .float))).isFloat = true →
            init.ty? = some .float := by
          intro h
          rw [Want.isFloat, decide_eq_true_iff, Expr.tyOf] at h
          cases hinit : init.ty? <;> simp_all
        obtain ⟨rax₁, hvalue⟩ := init.demand_of_eval? rax hwf.1.2 hc.1 hfloat
          (hagree.mono (List.subset_append_left _ _)) hinit
        rw [blockDemand_bind hname, hvalue, Option.bind_some]
        refine blockDemand_of_eval? (y :: xs) rax₁ hwf.2 hc.2 hty (fun z hz => ?_) htail
        rw [List.lookup_cons, List.lookup_cons, hrest z hz]
      · rw [blockDemand_skip (by simpa [Expr.declares] using hname)]
        refine blockDemand_of_eval? (y :: xs) rax hwf.2 hc.2 hty (fun z hz => ?_) htail
        have hne : z ≠ name := fun heq => hname (heq ▸ hz)
        rw [List.lookup_cons, beq_eq_false_iff_ne.2 hne]
        exact hrest z hz
    | .atom x => exact hskip rfl
    | .unary op x ty => exact hskip rfl
    | .binary op l r ty => exact hskip rfl
    | .branch cond onTrue onFalse => exact hskip rfl
    | .missing => exact hskip rfl

end

mutual

theorem Expr.definite_of_complete : ∀ (x : Expr) {want : Want}, x.complete = true →
    (want.isFloat = true → x.ty? = some .float) → x.definite want = true
  | .atom x, want, _, _ => rfl
  | .bind name init, want, hc, hty => by
    rw [Expr.complete] at hc
    rw [Expr.ty?] at hty
    rw [Expr.definite]
    exact init.definite_of_complete hc hty
  | .unary op x ty, want, hc, hty => by
    by_cases h : op = .not ∧ want = .name true
    · obtain ⟨rfl, rfl⟩ := h
      have hfloat : ty = .float := Option.some.inj (hty rfl)
      simp [Expr.complete, hfloat] at hc
    · rw [Expr.definite, ← Bool.decide_and, Bool.not_eq_true', decide_eq_false_iff_not]
      exact h
  | .binary op l r ty, want, hc, hty => by
    by_cases h : op.isRelation = true ∧ want = .name true
    · obtain ⟨hop, rfl⟩ := h
      have hfloat := hty rfl
      simp [Expr.ty?, hop] at hfloat
    · rw [Expr.definite, Bool.not_eq_true', Bool.eq_false_iff, ne_eq, Bool.and_eq_true,
        decide_eq_true_iff]
      exact h
  | .branch cond onTrue none, want, hc, hty => by cases hc
  | .branch cond onTrue (some b), want, hc, hty => by
    simp only [Expr.complete, Bool.and_eq_true, decide_eq_true_eq, beq_iff_eq,
      Bool.not_eq_true'] at hc
    obtain ⟨⟨⟨⟨⟨hcond, hfull⟩, hfull'⟩, hfirst⟩, hsecond⟩, hclass⟩ := hc
    rw [Expr.ty?] at hty
    simp only [Expr.definite, Bool.and_eq_true]
    refine ⟨⟨by simp [hcond], blockDefinite_of_complete onTrue hfull hfirst hty⟩,
      blockDefinite_of_complete b hfull' hsecond fun hfloat => ?_⟩
    simpa [blockIsFloat, hty hfloat] using hclass
  | .missing, want, hc, _ => by cases hc

theorem blockDefinite_of_complete : ∀ (xs : List Expr) {want : Want}, xs.isEmpty = false →
    blockComplete xs = true → (want.isFloat = true → blockTy? xs = some .float) →
    blockDefinite xs want = true
  | [], want, hfull, _, _ => by cases hfull
  | [x], want, _, hc, hty => by
    rw [blockComplete, Bool.and_eq_true] at hc
    rw [blockTy?] at hty
    rw [blockDefinite]
    exact x.definite_of_complete hc.1 hty
  | x :: y :: xs, want, _, hc, hty => by
    rw [blockComplete, Bool.and_eq_true] at hc
    rw [blockTy?] at hty
    have hrest := blockDefinite_of_complete (y :: xs) rfl hc.2 hty
    match x with
    | .bind name init =>
      rw [Expr.complete] at hc
      rw [blockDefinite, Bool.and_eq_true, Bool.or_eq_true]
      refine ⟨Or.inr (init.definite_of_complete hc.1 fun h => ?_), hrest⟩
      rw [Want.isFloat, decide_eq_true_iff, Expr.tyOf] at h
      cases hinit : init.ty? <;> simp_all
    | .atom x => simpa only [blockDefinite, Bool.true_and] using hrest
    | .unary op x ty => simpa only [blockDefinite, Bool.true_and] using hrest
    | .binary op l r ty => simpa only [blockDefinite, Bool.true_and] using hrest
    | .branch cond onTrue onFalse => simpa only [blockDefinite, Bool.true_and] using hrest
    | .missing => simpa only [blockDefinite, Bool.true_and] using hrest

end

end ExprBackend
