import ExprBackend.Proofs.Outcomes

/-!
# Code is legal

The code of a well-typed function is made of instructions that can be encoded, whichever locations
of the right kind its names have: the operands of no operation depend on where it takes them from.
So no run of the code is ended by an illegal instruction, whatever the machine holds.
-/

namespace ExprBackend

namespace Machine

/-- A run over instructions that can be encoded does not end as illegal. -/
theorem isIllegal_run {code : Code} (h : AllEncodable code.instrs.toList) {steps : Nat} {pc : Int}
    {m m' : Machine} {e : RunError} (herror : run code steps pc m = .error e m') :
    isIllegal e = false := by
  induction steps generalizing pc m with
  | zero =>
    rw [run] at herror
    split at herror
    · cases herror
      rfl
    · cases herror
  | succ steps ih =>
    rw [run] at herror
    split at herror
    · split at herror
      · cases herror
        rfl
      · split at herror
        · cases herror
        next x hx =>
          have henc := h x (Array.mem_toList_iff.2 (Array.mem_of_getElem? hx))
          split at herror
          next hstep =>
            cases herror
            exact isIllegal_advance henc hstep
          next => cases herror
          next => exact ih herror
    · cases herror

end Machine

namespace Codegen

variable {name : String} {frame : Nat} {saved : List Reg}

theorem allEncodable_entry (hframe : frame < 2 ^ 31) : AllEncodable (entry name frame saved) := by
  have hpushes : AllEncodable (saved.map .push) := by simp [AllEncodable, Instr.encodable]
  rw [entry, allEncodable_append, allEncodable_append]
  refine ⟨⟨by simp [AllEncodable, Instr.encodable, Machine.encodable], ?_⟩, hpushes⟩
  split
  · exact allEncodable_nil
  · exact allEncodable_cons.2 ⟨encodable_small (d := .reg .rsp) rfl (fitsImm32_ofNat hframe) false,
      allEncodable_nil⟩

end Codegen

open Codegen Machine

/-- A well-typed function has code for every assignment of locations of the right kind, and no
instruction of the code is ever refused as illegal: not by itself, whatever code it stands in and
whatever the machine holds, and not in any run of the code. -/
theorem Func.code_never_illegal (f : Func) (asg : Assignment) (hf : f.LoaderForm)
    (ht : f.WellTyped) (hfew : (blockBindings f.body).length < 2 ^ 20) (hsuits : asg.Suits f .all) :
    ∃ code, f.code asg = .ok code ∧ AllEncodable code ∧
      (∀ x ∈ code, ∀ (c : Code) (pc : Int) (m m' : Machine) (e : RunError),
        advance c pc x m = .error e m' → isIllegal e = false) ∧
      ∀ (steps : Nat) (pc : Int) (m m' : Machine) (e : RunError),
        run (.ofList code) steps pc m = .error e m' → isIllegal e = false := by
  obtain ⟨load, scope, ty, body, supply, hload, hty, hblock, hloadEnc, hbodyEnc⟩ :=
    Func.parts_ok hf ht hsuits
  have hframe : supply.slots.frameSize < 2 ^ 31 := frameSize_lt hblock (by omega)
  obtain ⟨code, hall⟩ : ∃ code, code = [.text, .global f.name] ++
    (entry f.name supply.slots.frameSize (savedRegs asg) ++
      (load ++ (body ++ epilogue (savedRegs asg)))) := ⟨_, rfl⟩
  have hcode : f.code asg = .ok code :=
    code_eq_ok.2 ⟨hf.named, load, scope, ty, body, supply, hload, hty, hblock, hall⟩
  have hdirectives : AllEncodable [.text, .global f.name] := by simp [AllEncodable, Instr.encodable]
  have henc : AllEncodable code := by
    simp only [hall, allEncodable_append]
    exact ⟨hdirectives, allEncodable_entry hframe, hloadEnc, hbodyEnc, allEncodable_epilogue⟩
  refine ⟨code, hcode, henc, fun x hx c pc m m' e herror => ?_, fun steps pc m m' e herror => ?_⟩
  · exact isIllegal_advance (henc x hx) herror
  · exact isIllegal_run henc herror

/-- Operations on wide literals, on floats and on words that are all in memory. -/
def wideRemainder : Func where
  name := "wide_remainder"
  params := [⟨"n", .int⟩, ⟨"x", .float⟩]
  body := [
    .bind "big" (.binary .times (.int 0x123456789a) (.var "n" .int) .int),
    .bind "y" (.binary .times (.var "x" .float) (.var "x" .float) .float),
    .bind "less" (.binary .less (.var "x" .float) (.var "y" .float) .float),
    .branch (.var "less" .bool) [.binary .mod (.var "big" .int) (.var "n" .int) .int]
      (some [.binary .lessEq (.int 0x123456789a) (.var "big" .int) .int])]

/-- Two floats that are needed at once share a register, all else is in memory. The literal on the
left of a comparison goes through a register. -/
theorem Func.code_never_illegal_shared :
    ∃ code, wideRemainder.code [("n", .spill), ("x", .xreg ⟨1⟩), ("big", .spill),
        ("y", .xreg ⟨1⟩), ("less", .spill)] = .ok code ∧
      .cmp (.reg .scratch) (.mem (.slot (-8))) ∈ code ∧ AllEncodable code ∧
      ∀ steps m m' e, run (.ofList code) steps 2 m = .error e m' → isIllegal e = false := by
  obtain ⟨code, hcode, henc, _, hrun⟩ := Func.code_never_illegal wideRemainder
    [("n", .spill), ("x", .xreg ⟨1⟩), ("big", .spill), ("y", .xreg ⟨1⟩), ("less", .spill)]
    (by decide) (by decide) (by decide) (by decide)
  refine ⟨code, hcode, ?_, henc, fun steps => hrun steps 2⟩
  have hcmp : (wideRemainder.code [("n", .spill), ("x", .xreg ⟨1⟩), ("big", .spill),
      ("y", .xreg ⟨1⟩), ("less", .spill)]).toOption.map
      (fun code => decide (.cmp (.reg .scratch) (.mem (.slot (-8))) ∈ code)) = some true := by
    decide +kernel
  rw [hcode] at hcmp
  simpa [Except.toOption] using hcmp

end ExprBackend
