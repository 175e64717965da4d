import ExprBackend.Pipeline
import ExprBackend.Proofs.Outcomes

/-!
# Compilation preserves meaning

A complete function in loader form is compiled whatever registers there are, and a call of its code
returns the value that the function has by evaluation.
-/

namespace ExprBackend

open Codegen Machine

namespace Func

variable {f : Func} {pools : Pools} {asg : Assignment} {code : List Instr}

/-- A function is compiled exactly if its pools are accepted, it can be printed where that is asked
for, and it has locations and code. -/
theorem compile_eq_ok {opts : Options} {u : CompiledUnit} : f.compile opts = .ok u ↔
    u.func = f ∧ opts.pools.check = .ok () ∧ (opts.dumpExprs = true → ∃ text, f.render = .ok text) ∧
      f.assignment opts.pools = .ok u.assignment ∧ f.code u.assignment = .ok u.code := by
  constructor
  · intro h
    obtain ⟨_, hcheck, hrest⟩ := Except.bind_eq_ok.1 h
    have hrender : opts.dumpExprs = true → ∃ text, f.render = .ok text := by
      intro hdump
      simp only [hdump, if_true] at hrest
      obtain ⟨_, hprint, _⟩ := Except.bind_eq_ok.1 hrest
      obtain ⟨text, htext, _⟩ := Except.bind_eq_ok.1 hprint
      exact ⟨text, Except.eq_ok_of_mapError htext⟩
    dsimp only at hrest
    split at hrest
    on_goal 1 => obtain ⟨_, _, hrest⟩ := Except.bind_eq_ok.1 hrest
    all_goals
      obtain ⟨asg, hasg, hcode⟩ := Except.bind_eq_ok.1 hrest
      split at hcode
      next code hcode' =>
        cases hcode
        exact ⟨rfl, Except.eq_ok_of_mapError hcheck, hrender, Except.eq_ok_of_mapError hasg, hcode'⟩
      next => cases hcode
      next => cases hcode
  · obtain ⟨_, asg, code⟩ := u
    rintro ⟨rfl, hcheck, hrender, hasg, hcode⟩
    simp only [compile, hcheck, hasg]
    refine Except.bind_eq_ok.2 ⟨(), rfl, ?_⟩
    split
    next hdump =>
      obtain ⟨text, htext⟩ := hrender hdump
      rw [htext]
      refine Except.bind_eq_ok.2 ⟨(), rfl, Except.bind_eq_ok.2 ⟨asg, rfl, ?_⟩⟩
      rw [hcode]
      rfl
    next =>
      refine Except.bind_eq_ok.2 ⟨asg, rfl, ?_⟩
      rw [hcode]
      rfl

theorem compile_ok (hpools : pools.check = .ok ()) (hasg : f.assignment pools = .ok asg)
    (hcode : f.code asg = .ok code) : f.compile { pools } = .ok ⟨f, asg, code⟩ :=
  compile_eq_ok.2 ⟨rfl, hpools, (by cases ·), hasg, hcode⟩

/-- A function that is compiled has locations and code. -/
theorem of_compile {opts : Options} {u : CompiledUnit} (h : f.compile opts = .ok u) :
    u.func = f ∧ opts.pools.check = .ok () ∧ f.assignment opts.pools = .ok u.assignment ∧
      f.code u.assignment = .ok u.code := by
  obtain ⟨hfunc, hcheck, _, hasg, hcode⟩ := compile_eq_ok.1 h
  exact ⟨hfunc, hcheck, hasg, hcode⟩

theorem isFloat_resultWant {ty : Ty} (hty : f.result? = some ty) {held : UInt64}
    (h : (resultWant ty held).isFloat = true) : blockTy? f.body = some .float := by
  unfold resultWant at h
  split at h
  next hfloat => exact hfloat ▸ hty
  next => cases h

theorem onCall_of_eval? (hf : f.LoaderForm) (hc : f.Complete) {ty : Ty} (hty : f.result? = some ty)
    {args : List UInt64} {w : UInt64} (hw : f.eval? args = some w) (m : Machine) :
    onCall f ty args m = some w := by
  obtain ⟨rax, hdemand⟩ := blockDemand_of_eval? f.body (m.cell .rax) hf.wellFormed hc.2
    (isFloat_resultWant hty) (fun _ _ => rfl) hw
  rw [onCall, hdemand]
  rfl

theorem definite_of_complete (hc : f.Complete) {ty : Ty} (hty : f.result? = some ty)
    (held : UInt64) : blockDefinite f.body (resultWant ty held) = true :=
  blockDefinite_of_complete f.body (List.isEmpty_eq_false_iff.2 hc.1) hc.2 (isFloat_resultWant hty)

/-- A complete function is compiled for any registers. On any machine a call of its code returns the
value of the function, unless the machine may take fewer steps than there are instructions. -/
theorem compile_preserves_meaning (f : Func) (hf : f.LoaderForm) (hc : f.Complete)
    (hsize : f.Fitting) (pools : Pools) (hpools : pools.check = .ok ()) :
    ∃ u ty, f.compile { pools } = .ok u ∧ f.result? = some ty ∧
      ∀ (args : List UInt64) (w : UInt64), args.length = f.params.length → f.eval? args = some w →
        ∀ (m : Machine) (limit : Int64),
          (∃ r m', call (.ofList u.code) limit f.name args m = .ok r m' ∧ r.word ty = w) ∨
            stepsOf limit < u.code.length ∧ ∃ m',
              call (.ofList u.code) limit f.name args m = .error (.failed f.name .stepLimit) m' := by
  have haccepted := Pools.accepted_of_check hpools
  obtain ⟨asg, hasg, hfits⟩ := assignment_ok hf haccepted
  obtain ⟨code, hcode⟩ := Func.exists_code hf hc.wellTyped hfits.suits
  obtain ⟨ty, hty⟩ := Option.isSome_iff_exists.1 (blockTy?_isSome f.body f.paramTyping hf.wellFormed)
  refine ⟨⟨f, asg, code⟩, ty, compile_ok hpools hasg hcode, hty, fun args w hlen hw m limit => ?_⟩
  exact call_returns hf hfits haccepted hsize hcode hty hlen (definite_of_complete hc hty _)
    (onCall_of_eval? hf hc hty hw m) limit

/-- The distance of two numbers, times the first of them. -/
def scaledDistance : Func where
  name := "scaled_distance"
  params := [⟨"x", .int⟩, ⟨"y", .int⟩]
  body := [
    .bind "less" (.binary .less (.var "x" .int) (.var "y" .int) .int),
    .bind "d" (.branch (.var "less" .bool)
      [.binary .minus (.var "y" .int) (.var "x" .int) .int]
      (some [.binary .minus (.var "x" .int) (.var "y" .int) .int])),
    .binary .times (.var "d" .int) (.var "x" .int) .int]

theorem compile_preserves_meaning_scaledDistance :
    ∃ u, scaledDistance.compile { pools := ⟨[.rbx], []⟩ } = .ok u ∧
      ∃ r m', call (.ofList u.code) 0 "scaled_distance" [3, 10] {} = .ok r m' ∧
        r.word .int = 21 := by
  obtain ⟨u, ty, hu, hty, hcall⟩ := compile_preserves_meaning scaledDistance (by decide) (by decide)
    (by decide) ⟨[.rbx], []⟩ rfl
  obtain rfl := Option.some.inj (hty.symm.trans (show scaledDistance.result? = some .int from rfl))
  have hlength : (scaledDistance.compile { pools := ⟨[.rbx], []⟩ }).toOption.map
      (fun u => decide (u.code.length ≤ stepsOf 0)) = some true := by
    decide +kernel
  rw [hu] at hlength
  refine ⟨u, hu, (hcall [3, 10] 21 rfl (by decide +kernel) {} 0).resolve_right fun h => ?_⟩
  exact absurd h.1 (Nat.not_lt_of_le (by simpa [Except.toOption] using hlength))

end Func

end ExprBackend
