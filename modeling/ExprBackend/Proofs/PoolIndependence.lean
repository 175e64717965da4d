import ExprBackend.Proofs.Compilation
import ExprBackend.Proofs.Loading

/-!
# Results do not depend on the registers

Two ways to compile a loaded function, with any registers, give codes whose calls have the same
outcome, as long as the function is definite and no call runs out of steps. Functions that are not
definite are loaded and compiled too, and what they return depends on where names are held.
-/

namespace ExprBackend

open Codegen Machine

mutual

theorem Expr.definite_floatResult : ∀ (x : Expr) (held : UInt64),
    x.definite (.floatResult held) = x.definite .result
  | .atom x, _ => rfl
  | .bind name init, held => by
    rw [Expr.definite, Expr.definite]
    exact init.definite_floatResult held
  | .unary op x ty, _ => rfl
  | .binary op l r ty, _ => rfl
  | .branch cond onTrue none, held => by
    simp only [Expr.definite, blockDefinite_floatResult onTrue held]
    rfl
  | .branch cond onTrue (some b), held => by
    simp only [Expr.definite, blockDefinite_floatResult onTrue held,
      blockDefinite_floatResult b held]
  | .missing, _ => rfl

/-- In a result, floats need no more than other values. -/
theorem blockDefinite_floatResult : ∀ (xs : List Expr) (held : UInt64),
    blockDefinite xs (.floatResult held) = blockDefinite xs .result
  | [], _ => rfl
  | [x], held => by
    rw [blockDefinite, blockDefinite]
    exact x.definite_floatResult held
  | x :: y :: xs, held => by
    have hrest := blockDefinite_floatResult (y :: xs) held
    cases x with
    | bind name init => rw [blockDefinite, blockDefinite, hrest]
    | _ => simp only [blockDefinite, hrest]

end

/-- No condition on the way to a value is a float variable, and where the value is that of a name,
every branch makes one, and no truth value for the name of a float. -/
def Func.Definite (f : Func) : Prop := blockDefinite f.body .result = true

instance (f : Func) : Decidable f.Definite := inferInstanceAs (Decidable (_ = _))

theorem Func.Definite.resultWant {f : Func} (h : f.Definite) (ty : Ty) (held : UInt64) :
    blockDefinite f.body (resultWant ty held) = true := by
  unfold Codegen.resultWant
  split
  · rw [blockDefinite_floatResult]
    exact h
  · exact h

namespace CompiledUnit

/-- What a call on a new machine returns for a result of a type; none if it fails. -/
def outcome (u : CompiledUnit) (ty : Ty) (args : List UInt64) : Option UInt64 :=
  match call (.ofList u.code) 0 u.func.name args {} with
  | .ok r _ => some (r.word ty)
  | .error _ _ => none

/-- The code has more instructions than a new machine may take steps, and a call stops for that. -/
def OutOfSteps (u : CompiledUnit) (args : List UInt64) : Prop :=
  stepsOf 0 < u.code.length ∧
    ∃ m, call (.ofList u.code) 0 u.func.name args {} = .error (.failed u.func.name .stepLimit) m

theorem not_outOfSteps {u : CompiledUnit} {ty : Ty} {args : List UInt64} {w : UInt64}
    (h : u.outcome ty args = some w) : ¬ u.OutOfSteps args := by
  rintro ⟨_, m, hm⟩
  rw [outcome, hm] at h
  cases h

end CompiledUnit

/-- The outcome of a call is the value on demand, in which registers do not occur. -/
theorem Func.outcome_eq {f : Func} (hf : f.LoaderForm) (hsize : f.Fitting) (hdefinite : f.Definite)
    {opts : Options} {u : CompiledUnit} (hu : f.compile opts = .ok u) {ty : Ty}
    (hty : f.result? = some ty) {args : List UInt64} (hlen : args.length = f.params.length) :
    u.outcome ty args = onCall f ty args {} ∨ u.OutOfSteps args := by
  obtain ⟨hfunc, hpools, hasg, hcode⟩ := of_compile hu
  have haccepted := Pools.accepted_of_check hpools
  obtain ⟨asg, hasg', hfits⟩ := assignment_ok hf haccepted
  obtain rfl := Except.ok.inj (hasg.symm.trans hasg')
  have hwant := hdefinite.resultWant ty (Machine.cell {} .xmm0)
  rw [CompiledUnit.outcome, CompiledUnit.OutOfSteps, hfunc]
  cases hw : onCall f ty args {} with
  | none =>
    obtain ⟨e, m, herror⟩ := call_fails hf hfits haccepted hsize hcode hty hlen hwant hw 0
    exact Or.inl (by rw [herror])
  | some w =>
    rcases call_returns hf hfits haccepted hsize hcode hty hlen hwant hw 0 with
      ⟨r, m, hreturn, hword⟩ | hlimit
    · refine Or.inl ?_
      rw [hreturn]
      exact congrArg some hword
    · exact Or.inr hlimit

section Pools

variable {p : Program} {f : Func} {opts opts' : Options} {u u' : CompiledUnit} {ty : Ty}
  {args : List UInt64}

theorem Func.outcomes_agree (hf : f.LoaderForm) (hsize : f.Fitting) (hdefinite : f.Definite)
    (hu : f.compile opts = .ok u) (hu' : f.compile opts' = .ok u') (hty : f.result? = some ty)
    (hlen : args.length = f.params.length) :
    u.outcome ty args = u'.outcome ty args ∨ u.OutOfSteps args ∨ u'.OutOfSteps args := by
  rcases f.outcome_eq hf hsize hdefinite hu hty hlen with h | h
  · rcases f.outcome_eq hf hsize hdefinite hu' hty hlen with h' | h'
    · exact Or.inl (h.trans h'.symm)
    · exact Or.inr (Or.inr h')
  · exact Or.inr (Or.inl h)

/-- Calls of a described function that is definite have the same outcome whatever registers it was
compiled for, unless one of them runs out of steps. -/
theorem Program.outcome_independent_of_pools {srcs : List Source.Func}
    (hp : Program.ofSource srcs = .ok p) (hf : f ∈ p.funcs) (hsize : f.Fitting)
    (hdefinite : f.Definite) (hu : f.compile opts = .ok u) (hu' : f.compile opts' = .ok u')
    (hty : f.result? = some ty) (hlen : args.length = f.params.length) :
    u.outcome ty args = u'.outcome ty args ∨ u.OutOfSteps args ∨ u'.OutOfSteps args :=
  f.outcomes_agree (Program.loaderForm_ofSource hp f hf) hsize hdefinite hu hu' hty hlen

/-- The same for a text. -/
theorem Program.outcome_independent_of_parse {text : String}
    (hp : Program.parse text = .ok p) (hf : f ∈ p.funcs) (hsize : f.Fitting)
    (hdefinite : f.Definite) (hu : f.compile opts = .ok u) (hu' : f.compile opts' = .ok u')
    (hty : f.result? = some ty) (hlen : args.length = f.params.length) :
    u.outcome ty args = u'.outcome ty args ∨ u.OutOfSteps args ∨ u'.OutOfSteps args :=
  f.outcomes_agree (Program.loaderForm_parse hp f hf) hsize hdefinite hu hu' hty hlen

end Pools

/-- The outcomes of calls of a function that is compiled in two ways. -/
def Func.outcomes? (f : Func) (opts opts' : Options) (args : List UInt64) :
    Option (Option UInt64 × Option UInt64) := do
  let u ← (f.compile opts).toOption
  let u' ← (f.compile opts').toOption
  let ty ← f.result?
  return (u.outcome ty args, u'.outcome ty args)

theorem Func.of_outcomes? {f : Func} {opts opts' : Options} {args : List UInt64}
    {w w' : Option UInt64} (h : f.outcomes? opts opts' args = some (w, w')) :
    ∃ u u' ty, f.compile opts = .ok u ∧ f.compile opts' = .ok u' ∧ f.result? = some ty ∧
      u.outcome ty args = w ∧ u'.outcome ty args = w' := by
  simp only [outcomes?, Option.bind_eq_bind, Option.bind_eq_some_iff, Option.pure_def,
    Option.some.injEq, Prod.mk.injEq] at h
  obtain ⟨u, hu, u', hu', ty, hty, hw, hw'⟩ := h
  exact ⟨u, u', ty, Except.eq_ok_of_toOption hu, Except.eq_ok_of_toOption hu', hty, hw, hw'⟩

/-- A condition without a second branch leaves the quotient of the division before it. -/
def leftoverText : String := "funcs:
- name: f
  params:
  - name: x
    type: int
  body:
  - let: r
    op: '%'
    args: [x, 3]
  - if: r
    then:
    - value: r
"

theorem outcome_independent_of_pools_leftover :
    ∃ p, Program.parse leftoverText = .ok p ∧ ∃ f ∈ p.funcs, ∃ u u', f.compile {} = .ok u ∧
      f.compile { pools := ⟨[], []⟩ } = .ok u' ∧ u.outcome .int [6] = some 2 ∧
      u.outcome .int [6] = u'.outcome .int [6] := by
  have hcheck : (Program.parse leftoverText).toOption.any (fun p => p.funcs.any fun f =>
      decide (f.Fitting ∧ f.Definite ∧ f.result? = some .int ∧
        ([6] : List UInt64).length = f.params.length ∧
        f.outcomes? {} { pools := ⟨[], []⟩ } [6] = some (some 2, some 2))) = true := by
    decide +kernel
  obtain ⟨p, hp, hfuncs⟩ := Program.of_parse hcheck
  obtain ⟨f, hf, hfacts⟩ := List.any_eq_true.1 hfuncs
  obtain ⟨hsize, hdefinite, hresult, hlen, houtcomes⟩ := of_decide_eq_true hfacts
  obtain ⟨u, u', ty, hu, hu', hty, hw, hw'⟩ := f.of_outcomes? houtcomes
  obtain rfl := Option.some.inj (hresult.symm.trans hty)
  refine ⟨p, hp, f, hf, u, u', hu, hu', hw, ?_⟩
  obtain ⟨srcs, _, hbuild⟩ := Program.exists_ofSource hp
  rcases Program.outcome_independent_of_pools hbuild hf hsize hdefinite hu hu' hty hlen with h | h | h
  · exact h
  · exact absurd h (CompiledUnit.not_outOfSteps hw)
  · exact absurd h (CompiledUnit.not_outOfSteps hw')

/-- A condition on a float, a value of a name that no branch makes, and a comparison as the value of
the name of a float. -/
def indefiniteText : String := "funcs:
- name: f
  params:
  - name: x
    type: float
  body:
  - if: x
- name: g
  body:
  - let: y
    value: 7
  - let: z
    if: y
  - value: z
- name: h
  body:
  - let: y
    if: 0
    then:
    - value: 1.5
    else:
    - op: <
      args: [1.5, 2.5]
  - value: y
"

/-- Loaded functions that are not definite are compiled, and their outcomes do depend on the
registers. -/
theorem outcome_depends_on_pools :
    ∃ p, Program.parse indefiniteText = .ok p ∧ p.funcs.length = 3 ∧ ∀ f ∈ p.funcs,
      ∃ u u' ty, f.compile {} = .ok u ∧ f.compile { pools := ⟨[], []⟩ } = .ok u' ∧
        f.result? = some ty ∧ ∃ args, args.length = f.params.length ∧
          u.outcome ty args ≠ u'.outcome ty args := by
  have hcheck : (Program.parse indefiniteText).toOption.any (fun p =>
      decide (p.funcs.length = 3) && p.funcs.all fun f => (f.outcomes? {} { pools := ⟨[], []⟩ }
        (List.replicate f.params.length 0)).any fun ws => decide (ws.1 ≠ ws.2)) = true := by
    decide +kernel
  obtain ⟨p, hp, hfuncs⟩ := Program.of_parse hcheck
  rw [Bool.and_eq_true, decide_eq_true_iff, List.all_eq_true] at hfuncs
  refine ⟨p, hp, hfuncs.1, fun f hf => ?_⟩
  obtain ⟨⟨w, w'⟩, houtcomes, hne⟩ := (Option.any_eq_true _ _).1 (hfuncs.2 f hf)
  obtain ⟨u, u', ty, hu, hu', hty, hw, hw'⟩ := f.of_outcomes? houtcomes
  refine ⟨u, u', ty, hu, hu', hty, List.replicate f.params.length 0, List.length_replicate, ?_⟩
  rw [hw, hw']
  exact of_decide_eq_true hne

end ExprBackend
