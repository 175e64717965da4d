import ExprBackend.Proofs.Aliasing
import ExprBackend.Proofs.Orderly

/-!
# Moves between any two places

A move copies the word of its source, whatever kinds of storage the source and the destination are.
It changes nothing else but the backup register. In particular it keeps the flags, because no
instruction but a comparison changes them, so that a result can be moved before it is tested.
-/

namespace ExprBackend

namespace Operand

/-- What a move can be from: a register that exists, a word at a multiple of eight from the frame
pointer, or an immediate. -/
def isOrigin (x : Operand) : Bool := x.isSound && decide (x ≠ .absent)

/-- What a move can be to: no immediates, none of the registers that hold the stack, and not the
backup register. -/
def isTarget (x : Operand) : Bool :=
  x.isPlace && x.isSound && decide (x ≠ .reg .rsp ∧ x ≠ .reg .rbp ∧ x ≠ .reg .backup)

variable {x : Operand}

theorem isOrigin_iff : x.isOrigin = true ↔ x.isSound = true ∧ x ≠ .absent := by
  rw [isOrigin, Bool.and_eq_true, decide_eq_true_eq]

theorem isTarget_iff : x.isTarget = true ↔ x.isPlace = true ∧ x.isSound = true ∧
    x ≠ .reg .rsp ∧ x ≠ .reg .rbp ∧ x ≠ .reg .backup := by
  rw [isTarget, Bool.and_eq_true, Bool.and_eq_true, decide_eq_true_eq, and_assoc]

end Operand

namespace Machine

variable {m m' : Machine}

theorem flags_of_executeAll {xs : List Instr} (hxs : ∀ x ∈ xs, x.isCompare = false)
    (h : executeAll xs m = .ok () m') : m'.flags = m.flags := by
  induction xs generalizing m with
  | nil =>
    cases h
    rfl
  | cons x xs ih =>
    obtain ⟨hx, hrest⟩ := List.forall_mem_cons.1 hxs
    obtain ⟨_, m₁, hstep, hxs⟩ := EStateM.of_bind_ok h
    exact (ih hrest hxs).trans (flags_of_execute hx hstep)

/-- Code comes to its end with a word in a place, when it is run by itself and at every place of a
program that contains it. Every other register and word of memory but the backup register is as it
was, and so are the flags. -/
structure Copies (m : Machine) (code : List Instr) (dst : Operand) (w : UInt64) (m' : Machine) :
    Prop where
  alone : ∀ steps ≥ code.length, run (.ofList code) steps 0 m = .ok () m'
  within : ∀ (program : Code) (pc : Nat), program.At pc code →
    Reaches program pc m (pc + code.length) m'
  word : read dst m' = .ok w m'
  others : ∀ c, dst.cell? m.base ≠ some c → c ≠ .backup → m'.cell c = m.cell c
  flags : m'.flags = m.flags

theorem Leaves.copies {code : List Instr} {dst : Operand} {c : Cell} {w : UInt64}
    (h : Leaves code m c w {c, .backup}) (hc : dst.cell? m.base = some c) (hrbp : c ≠ .rbp)
    (hcompare : ∀ x ∈ code, x.isCompare = false) : ∃ m', m.Copies code dst w m' := by
  obtain ⟨m', hrun, rfl, hsame⟩ := h
  have hbase : m'.base = m.base := hsame.base_eq (by simp [hrbp.symm]; decide)
  refine ⟨m', fun steps hsteps => run_of_executeAll hrun hsteps,
    fun program pc hat => reaches_of_executeAll hat hrun, read_ok (hbase ▸ hc), ?_,
    flags_of_executeAll hcompare hrun⟩
  intro d hd hback
  refine hsame d ?_
  rintro (rfl | rfl)
  · exact hd hc
  · exact hback rfl

end Machine

namespace Codegen

open Machine

variable {m : Machine} {dst src : Operand} {code : List Instr}

/-- A general register is the only operand of its cell. -/
theorem eq_reg_of_cell? {i : Fin 16} {base : Int64} (h : dst.cell? base = some (.reg i)) :
    dst = .reg ⟨i⟩ := by
  cases dst with
  | reg r =>
    obtain ⟨j, hj, heq⟩ := Option.map_eq_some_iff.1 h
    cases heq
    rw [← eq_of_registerIndex? hj]
  | xreg r =>
    obtain ⟨j, _, heq⟩ := Option.map_eq_some_iff.1 h
    cases heq
  | mem a =>
    simp only [Operand.cell?, Option.ite_none_right_eq_some, Option.some.injEq, reduceCtorEq,
      and_false] at h
  | imm v => cases h
  | fimm bits => cases h
  | absent => cases h

/-- A target has a cell, and it is neither the frame pointer nor the backup register. -/
theorem exists_cell_of_isTarget (h : dst.isTarget = true) (hbase : aligned m.base = true) :
    ∃ c, dst.cell? m.base = some c ∧ c ≠ .backup ∧ c ≠ .rbp := by
  obtain ⟨hplace, hsound, _, hrbp, hback⟩ := Operand.isTarget_iff.1 h
  obtain ⟨c, hc⟩ := exists_cell hsound hplace hbase
  refine ⟨c, hc, ?_, ?_⟩
  · rintro rfl
    exact hback (eq_reg_of_cell? hc)
  · rintro rfl
    exact hrbp (eq_reg_of_cell? hc)

theorem exists_value_of_isOrigin (h : src.isOrigin = true) (hbase : aligned m.base = true) :
    ∃ w, m.value? src = some w ∧ (src = .fimm w ∨ read src m = .ok w m) := by
  obtain ⟨hsound, habsent⟩ := Operand.isOrigin_iff.1 h
  cases hplace : src.isPlace with
  | true =>
    obtain ⟨c, hc⟩ := exists_cell hsound hplace hbase
    exact ⟨m.cell c, value?_of_cell? hc, Or.inr (read_ok hc)⟩
  | false =>
    cases src with
    | imm v => exact ⟨v.toUInt64, rfl, Or.inr rfl⟩
    | fimm bits => exact ⟨bits, rfl, Or.inl rfl⟩
    | absent => exact absurd rfl habsent
    | _ => cases hplace

/-- The code of a move has no comparison. -/
theorem isCompare_of_move (hdst : dst.isSound = true) (hsrc : src.isSound = true)
    (h : move dst src = .ok code) : ∀ x ∈ code, x.isCompare = false := by
  intro x hx
  cases x with
  | cmp l r => cases steady_move hdst hsrc h _ hx
  | _ => rfl

/-- On every machine with an aligned frame, a move from any source to any destination completes and
leaves the word that the source had before. Of registers, memory and flags only the destination and
the backup register can have changed. The one exception is an integer immediate that is moved to a
float register, for which there is no code. -/
theorem move_copies (hdst : dst.isTarget = true) (hsrc : src.isOrigin = true)
    (hbase : aligned m.base = true) :
    (∀ v r, src = .imm v → dst = .xreg r →
      move dst src = .error (.violation (.misplacedImmediate v dst))) ∧
    ((∀ v, src = .imm v → dst.isXReg = false) →
      ∃ code w m', move dst src = .ok code ∧ (src = .fimm w ∨ read src m = .ok w m) ∧
        m.Copies code dst w m') := by
  constructor
  · rintro v r rfl rfl
    rfl
  · intro himm
    obtain ⟨c, hc, hback, hrbp⟩ := exists_cell_of_isTarget hdst hbase
    obtain ⟨w, hvalue, hread⟩ := exists_value_of_isOrigin hsrc hbase
    obtain ⟨hplace, hsound, _⟩ := Operand.isTarget_iff.1 hdst
    obtain ⟨hsound', habsent⟩ := Operand.isOrigin_iff.1 hsrc
    obtain ⟨code, hcode, _⟩ := move_ok hplace habsent himm
    have hleaves : Leaves code m c w {c, .backup} := move_leaves hcode hc hback hvalue
    obtain ⟨m', hcopies⟩ := hleaves.copies hc hrbp (isCompare_of_move hsound hsound' hcode)
    exact ⟨code, w, m', hcode, hread, hcopies⟩

/-- One slot on its way to another between a comparison and the use of its flags, and an integer
that a float register does not take. -/
theorem move_copies_compared :
    (∃ code m', move (.mem (.slot (-16))) (.mem (.slot (-8))) = .ok code ∧
      ((holding 1 7 9).setFlags ⟨false, true⟩).Copies code (.mem (.slot (-16))) 7 m') ∧
    move (.xreg ⟨3⟩) (.imm 0) = .error (.violation (.misplacedImmediate 0 (.xreg ⟨3⟩))) := by
  have hslot : (Operand.mem (.slot (-16))).isTarget = true := by decide
  have hfirst : (Operand.mem (.slot (-8))).isOrigin = true := by decide
  have haligned : aligned ((holding 1 7 9).setFlags ⟨false, true⟩).base = true :=
    aligned_holding 1 7 9
  constructor
  · obtain ⟨code, w, m', hcode, hw, hcopies⟩ :=
      (move_copies hslot hfirst haligned).2 fun _ h => by cases h
    have hread : read (.mem (.slot (-8))) ((holding 1 7 9).setFlags ⟨false, true⟩) =
        .ok 7 ((holding 1 7 9).setFlags ⟨false, true⟩) := by
      have hcell : (holding 1 7 9).cell (.frame 0 (-8)) = 7 := by
        rw [holding, cell_setCell_of_ne _ (by simp [Cell.frame]), cell_setCell_self]
      have hbase : ((holding 1 7 9).setFlags ⟨false, true⟩).base = 0 := base_holding 1 7 9
      rw [read_ok (cell?_slot haligned inFrame_first), cell_setFlags, hbase, hcell]
    rcases hw with hw | hw
    · cases hw
    · obtain rfl : w = 7 := by
        injection hw.symm.trans hread
      exact ⟨code, m', hcode, hcopies⟩
  · have hxreg : (Operand.xreg ⟨3⟩).isTarget = true := by decide
    have himm : (Operand.imm 0).isOrigin = true := by decide
    exact (move_copies hxreg himm haligned).1 0 ⟨3⟩ rfl rfl

end Codegen

end ExprBackend
