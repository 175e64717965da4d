import ExprBackend.Proofs.Confinement

/-!
# Traps are precise

An instruction looks for everything that may be wrong with it before it changes anything. So one
that traps has no effect, whatever its operands are, and a run that stops with an error leaves the
machine as it was before the instruction that trapped.
-/

namespace ExprBackend

namespace Machine

variable {code : Code} {m m' : Machine} {e : RunError}

/-- A run completes instructions, from one place and machine to another. -/
inductive Passes (code : Code) : List Instr → Int → Machine → Int → Machine → Prop where
  | nil (pc : Int) (m : Machine) : Passes code [] pc m pc m
  | cons {pc : Nat} {x : Instr} {xs : List Instr} {next pc' : Int} {m m₁ m' : Machine}
    (hx : code.instrs[pc]? = some x) (h : advance code pc x m = .ok (.at next) m₁)
    (hrest : Passes code xs next m₁ pc' m') : Passes code (x :: xs) pc m pc' m'

/-- Why a run with so many steps left completes no other instruction: no step is left, its place is
in front of the code, or the instruction at its place traps, whatever machine that one leaves. -/
inductive StopsAt (code : Code) : Nat → Int → Machine → RunError → Prop where
  | limit {pc : Int} {m : Machine} (hpc : pc < code.instrs.size) : StopsAt code 0 pc m .stepLimit
  | outside {steps : Nat} {pc : Int} {m : Machine} (hpc : pc < 0) :
    StopsAt code (steps + 1) pc m (.fault (.index pc code.instrs.size))
  | trap {steps pc : Nat} {x : Instr} {m m₁ : Machine} {e : RunError}
    (hx : code.instrs[pc]? = some x) (h : advance code pc x m = .error e m₁) :
    StopsAt code (steps + 1) pc m e

theorem Passes.run {xs : List Instr} {pc pc' : Int} (h : Passes code xs pc m pc' m')
    (steps : Nat) : run code (xs.length + steps) pc m = Machine.run code steps pc' m' := by
  induction h with
  | nil pc m => rw [List.length_nil, Nat.zero_add]
  | @cons pc x xs next pc' m m₁ m' hx hstep _ ih =>
    rw [List.length_cons, Nat.succ_add, run_succ hx, hstep]
    exact ih

section RegistersExist

variable (hcode : ∀ x ∈ code.instrs, x.RegistersExist) {steps : Nat} {pc : Int}
include hcode

theorem advance_error_eq {pc : Nat} {x : Instr} (hx : code.instrs[pc]? = some x)
    (h : advance code pc x m = .error e m') : m' = m :=
  (advance_error h).2.resolve_right fun hno => hno (hcode x (Array.mem_of_getElem? hx))

/-- A run ends in the state in which it stops. -/
theorem StopsAt.run_eq (h : StopsAt code steps pc m e) : run code steps pc m = .error e m := by
  cases h with
  | limit hpc => rw [run, if_pos hpc]
  | outside hpc =>
    have hlt : pc < code.instrs.size := by omega
    rw [run, if_pos hlt, if_pos hpc]
  | @trap steps pc x m m₁ e hx hstep =>
    rw [run_succ hx, hstep]
    exact congrArg _ (advance_error_eq hcode hx hstep)

/-- A run that ends with an error stops at once in the machine it has, or it completes one
instruction and goes on. -/
theorem run_error_cases (h : run code steps pc m = .error e m') :
    StopsAt code steps pc m e ∧ m' = m ∨
      ∃ (rest i : Nat) (x : Instr) (next : Int) (m₁ : Machine), steps = rest + 1 ∧ pc = i ∧
        code.instrs[i]? = some x ∧ advance code i x m = .ok (.at next) m₁ ∧
          run code rest next m₁ = .error e m' := by
  have hpc : pc < code.instrs.size := by
    by_contra hpc
    cases steps <;> rw [run, if_neg hpc] at h <;> cases h
  cases steps with
  | zero =>
    rw [run, if_pos hpc] at h
    cases h
    exact Or.inl ⟨.limit hpc, rfl⟩
  | succ rest =>
    by_cases hneg : pc < 0
    · rw [run, if_pos hpc, if_pos hneg] at h
      cases h
      exact Or.inl ⟨.outside hneg, rfl⟩
    · obtain ⟨i, rfl⟩ := Int.eq_ofNat_of_zero_le (Int.not_lt.1 hneg)
      obtain ⟨x, hx⟩ : ∃ x, code.instrs[i]? = some x :=
        ⟨_, Array.getElem?_eq_getElem (Int.ofNat_lt.1 hpc)⟩
      rw [run_succ hx] at h
      cases hstep : advance code i x m with
      | error e₁ m₁ =>
        rw [hstep] at h
        cases h
        have hsame := advance_error_eq hcode hx hstep
        exact Or.inl ⟨.trap hx hstep, hsame⟩
      | ok next m₁ =>
        rw [hstep] at h
        cases next with
        | done => cases h
        | «at» next => exact Or.inr ⟨rest, i, x, next, m₁, rfl, rfl, hx, hstep, h⟩

/-- A run that ends with an error has stopped behind the instructions that it completed. -/
theorem exists_stop (h : run code steps pc m = .error e m') :
    ∃ xs rest pc', steps = xs.length + rest ∧ Passes code xs pc m pc' m' ∧
      StopsAt code rest pc' m' e := by
  induction steps using Nat.strongRecOn generalizing pc m with
  | ind steps ih =>
    rcases run_error_cases hcode h with
      ⟨hstops, rfl⟩ | ⟨rest, i, x, next, m₁, rfl, rfl, hx, hstep, hrun⟩
    · exact ⟨[], steps, pc, (Nat.zero_add steps).symm, .nil pc m', hstops⟩
    · obtain ⟨xs, left, pc', hleft, hpasses, hstops⟩ := ih rest (Nat.lt_succ_self rest) hrun
      refine ⟨x :: xs, left, pc', ?_, .cons hx hstep hpasses, hstops⟩
      rw [List.length_cons, hleft, Nat.succ_add]

end RegistersExist

/-- An instruction that traps has no effect: not on a register, not on memory and not on the flags,
whatever its operands are, as long as its registers exist. So a run of such instructions ends with
an error exactly in a machine that the instructions completed before have left, and at which no
other one can be completed for this reason. -/
theorem traps_are_precise :
    (∀ x : Instr, x.RegistersExist → ∀ (m m' : Machine) (why : Trap),
      execute x m = .error why m' → m' = m) ∧
    ∀ code : Code, (∀ x ∈ code.instrs, x.RegistersExist) →
      ∀ (steps : Nat) (pc : Int) (m m' : Machine) (e : RunError),
        run code steps pc m = .error e m' ↔
          ∃ xs rest pc', steps = xs.length + rest ∧ Passes code xs pc m pc' m' ∧
            StopsAt code rest pc' m' e := by
  refine ⟨fun x hx m m' why htrap => execute_error hx htrap,
    fun code hcode steps pc m m' e => ⟨exists_stop hcode, ?_⟩⟩
  rintro ⟨xs, rest, pc', rfl, hpasses, hstops⟩
  exact (hpasses.run rest).trans (hstops.run_eq hcode)

/-- Seven over a word of the stack that was never written. -/
def sevenOverNothing : List Instr :=
  [.mov (.reg .rax) (.imm 7), .push .rax, .cmp (.reg .rax) (.imm 0), .jcc .g "divide", .pop .rax,
    .label "divide", .cqo, .idiv (.mem ⟨.rsp, -8⟩), .pop .rcx]

/-- A byte at an odd address, and a division by zero behind a jump. The dividend is still in `rax`
then, and the stack pointer is where the push has left it. -/
theorem traps_are_precise_quotient :
    (∃ m', execute (.set .l (.mem ⟨.rsp, 3⟩)) { flags := some ⟨false, true⟩ } =
        .error (.unalignedRead 3) m' ∧ m' = { flags := some ⟨false, true⟩ }) ∧
      ∃ m' xs rest pc', run (.ofList sevenOverNothing) 100 0 {} =
          .error (.trap 7 (.idiv (.mem ⟨.rsp, -8⟩)) .divisionByZero) m' ∧
        (m'.cell .rax = 7 ∧ m'.cell .rsp = -8) ∧
        100 = xs.length + rest ∧ Passes (.ofList sevenOverNothing) xs 0 {} pc' m' ∧
          StopsAt (.ofList sevenOverNothing) rest pc' m'
            (.trap 7 (.idiv (.mem ⟨.rsp, -8⟩)) .divisionByZero) := by
  obtain ⟨hexecute, hrun⟩ := traps_are_precise
  constructor
  · obtain ⟨m', htrap⟩ : ∃ m', execute (.set .l (.mem ⟨.rsp, 3⟩))
        { flags := some ⟨false, true⟩ } = .error (.unalignedRead 3) m' := ⟨_, rfl⟩
    exact ⟨m', htrap, hexecute _ (by decide) _ m' _ htrap⟩
  · obtain ⟨m', herror, hheld⟩ : ∃ m', run (.ofList sevenOverNothing) 100 0 {} =
        .error (.trap 7 (.idiv (.mem ⟨.rsp, -8⟩)) .divisionByZero) m' ∧
          (m'.cell .rax = 7 ∧ m'.cell .rsp = -8) := ⟨_, rfl, rfl, rfl⟩
    obtain ⟨xs, rest, pc', hstops⟩ := (hrun _ (by decide) 100 0 {} m' _).1 herror
    exact ⟨m', xs, rest, pc', herror, hheld, hstops⟩

end Machine

end ExprBackend
