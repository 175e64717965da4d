import ExprBackend.Proofs.Emission
import ExprBackend.Proofs.Encoding
import ExprBackend.Proofs.FloatLowering

/-!
# What lowered operations write

The code of an operation runs straight through. It writes its destination and a few registers that
no variable is given, and nothing else.
-/

namespace ExprBackend

def Instr.isPlain : Instr → Bool
  | .label _ | .jmp _ | .jcc _ _ | .ret => false
  | _ => true

/-- Code that runs straight through and writes operands of one kind. -/
def Straight (P : Operand → Prop) (xs : List Instr) : Prop :=
  ∀ x ∈ xs, x.isPlain = true ∧ x.Writes P

section Straight

variable {P : Operand → Prop}

@[simp] theorem straight_nil : Straight P [] := by simp [Straight]

@[simp] theorem straight_cons {x : Instr} {xs : List Instr} :
    Straight P (x :: xs) ↔ (x.isPlain = true ∧ x.Writes P) ∧ Straight P xs :=
  List.forall_mem_cons

@[simp] theorem straight_append {xs ys : List Instr} :
    Straight P (xs ++ ys) ↔ Straight P xs ∧ Straight P ys :=
  List.forall_mem_append

end Straight

namespace Codegen

/-- The registers that generated code keeps for itself. -/
def volatile : List Operand :=
  [.reg .rax, .reg .rdx, backup, scratch, .xreg .xmm0, .xreg .compareScratch, .xreg .scratch]

section Operations

variable {P : Operand → Prop} {l r x dst src : Operand} {code : List Instr}
  (hP : ∀ o ∈ volatile, P o) (hdst : P dst)
include hP

theorem straight_unimm (x : Operand) : Straight P (unimm x).1 := by
  unfold unimm
  split_ifs
  · rw [straight_cons]
    exact ⟨⟨rfl, hP _ (by simp [volatile])⟩, straight_nil⟩
  · exact straight_nil

theorem straight_narrow (x : Operand) : Straight P (narrow x).1 := by
  unfold narrow
  split
  · split_ifs
    · exact straight_nil
    · rw [straight_cons]
      exact ⟨⟨rfl, hP _ (by simp [volatile])⟩, straight_nil⟩
  · exact straight_nil

include hdst

theorem straight_transfer (src : Operand) : Straight P (transfer dst src) := by
  have hbackup : P backup := hP _ (by simp [volatile])
  unfold transfer
  split_ifs <;> simp [Instr.isPlain, Instr.Writes, hdst, hbackup]

theorem straight_move (h : move dst src = .ok code) : Straight P code := by
  have hbackup : P backup := hP _ (by simp [volatile])
  unfold move at h
  split at h
  · cases h
    exact straight_nil
  · split at h
    · cases h
      rw [straight_cons]
      refine ⟨⟨rfl, hbackup⟩, ?_⟩
      split_ifs
      · exact straight_nil
      · exact straight_transfer hP hdst backup
    · split at h
      · cases h
        simp [Instr.isPlain, Instr.Writes, hdst]
      · split at h <;> cases h <;> simp [Instr.isPlain, Instr.Writes, hdst, hbackup]
      · cases h
    · cases h
      exact straight_transfer hP hdst src

theorem straight_viaScratch {op : Operand → Operand → Instr}
    (h : viaScratch op l r dst = .ok code)
    (hop : ∀ x, (op scratch x).isPlain = true ∧ (op scratch x).Writes P) : Straight P code := by
  obtain ⟨rest, hmove, rfl⟩ := viaScratch_eq_ok h
  rw [straight_cons, straight_append, straight_cons]
  exact ⟨⟨rfl, hP _ (by simp [volatile])⟩, straight_narrow hP r, hop _, straight_move hP hdst hmove⟩

theorem straight_multiply (h : multiply l r dst = .ok code) : Straight P code := by
  have hgeneral {l r : Operand}
      (h : viaScratch (fun _ src => .imul .scratch src) l r dst = .ok code) : Straight P code :=
    straight_viaScratch hP hdst h fun _ => ⟨rfl, hP scratch (by simp [volatile])⟩
  unfold multiply at h
  generalize (if l.isImm && !r.isImm then (r, l) else (l, r)) = p at h
  obtain ⟨l, r⟩ := p
  dsimp only at h
  split at h
  · split at h
    · exact hgeneral h
    · split at h
      · split at h
        · cases h
          simp [Instr.isPlain, Instr.Writes, hdst]
        · exact hgeneral h
      · cases h
      · exact hgeneral h
  · exact hgeneral h

theorem straight_divide {result : Reg} (h : divide result l r dst = .ok code) :
    Straight P code := by
  have hrax : P (.reg .rax) := hP _ (by simp [volatile])
  have hrdx : P (.reg .rdx) := hP _ (by simp [volatile])
  obtain ⟨rest, hmove, rfl⟩ := divide_eq_ok h
  rw [straight_append, straight_cons, straight_cons, straight_cons]
  exact ⟨⟨⟨rfl, hrax⟩, ⟨rfl, hrdx⟩, straight_unimm hP r⟩, ⟨rfl, hrax, hrdx⟩,
    straight_move hP hdst hmove⟩

omit hP in
theorem straight_setCond (cond : Cond) : Straight P (setCond cond dst) := by
  simp [setCond, Instr.isPlain, Instr.Writes, hdst]

theorem straight_compare {cond : Cond} (h : compare cond l r dst = .ok code) :
    Straight P code := by
  have hfirst : Straight P (comparable l r).1 := by
    have hscratch : P scratch := hP _ (by simp [volatile])
    unfold comparable
    split_ifs <;> simp [Instr.isPlain, Instr.Writes, hscratch]
  rw [compare_eq_ok h, straight_append, straight_append, straight_cons]
  exact ⟨hfirst, straight_narrow hP r, ⟨rfl, trivial⟩, straight_setCond hdst cond⟩

theorem straight_compareEq {cond : Cond} (h : compareEq cond l r dst = .ok code) :
    Straight P code := by
  unfold compareEq at h
  split at h
  · exact straight_compare hP hdst h
  · exact straight_compare hP hdst h

theorem straight_intBinary {op : BinOp} {ty : Ty} (h : intBinary op ty l r dst = .ok code) :
    Straight P code := by
  have hscratch : P scratch := hP _ (by simp [volatile])
  cases op with
  | plus => exact straight_viaScratch hP hdst h fun _ => ⟨rfl, hscratch⟩
  | minus => exact straight_viaScratch hP hdst h fun _ => ⟨rfl, hscratch⟩
  | times => exact straight_multiply hP hdst h
  | div => exact straight_divide hP hdst h
  | mod => exact straight_divide hP hdst h
  | eq => exact straight_compareEq hP hdst h
  | notEq => exact straight_compareEq hP hdst h
  | other s => cases h
  | _ => exact straight_compare hP hdst h

theorem straight_floatBinary {op : BinOp} {ty : Ty} (h : floatBinary op ty l r dst = .ok code) :
    Straight P code := by
  have hscratch : P (.xreg .scratch) := hP _ (by simp [volatile])
  have hcompared : P (.xreg .compareScratch) := hP _ (by simp [volatile])
  rcases floatBinary_cases h with ⟨fop, hfop, _⟩ | ⟨pred, _, hcompare⟩
  · simp only [floatBinary, hfop] at h
    obtain ⟨rest, hmove, h⟩ := Except.bind_eq_ok.1 h
    obtain rfl := Except.ok.inj h
    rw [straight_cons, straight_cons]
    exact ⟨⟨rfl, hscratch⟩, ⟨rfl, hscratch⟩, straight_move hP hdst hmove⟩
  · obtain ⟨rest, hmove, rfl⟩ := floatCompare_eq_ok hcompare
    have hsecond : Straight P (inFloatReg r).1 := by
      unfold inFloatReg
      split_ifs <;> simp [Instr.isPlain, Instr.Writes, hscratch]
    rw [straight_cons, straight_append, straight_cons, straight_append, straight_cons]
    exact ⟨⟨rfl, hcompared⟩, hsecond, ⟨rfl, hcompared⟩, straight_move hP hdst hmove, ⟨rfl, hdst⟩,
      straight_nil⟩

theorem straight_unary {op : UnOp} {ty : Ty} (h : unary op ty x dst = .ok code) :
    Straight P code := by
  have hscratch : P (.xreg .scratch) := hP _ (by simp [volatile])
  cases op with
  | not =>
    by_cases hty : ty = .float
    · simp only [unary, hty, if_true] at h
      cases h
    · simp only [unary, hty, if_false] at h
      obtain rfl : (unimm x).1 ++ Instr.cmp (unimm x).2 (.imm 0) :: setCond .e dst = code :=
        Except.ok.inj h
      rw [straight_append, straight_cons]
      exact ⟨straight_unimm hP x, ⟨rfl, trivial⟩, straight_setCond hdst .e⟩
  | neg =>
    by_cases hty : ty = .float
    · simp only [unary, hty, if_true] at h
      obtain ⟨y, _, h⟩ := Except.bind_eq_ok.1 h
      obtain ⟨first, hfirst, h⟩ := Except.bind_eq_ok.1 h
      obtain ⟨rest, hrest, h⟩ := Except.bind_eq_ok.1 h
      obtain rfl := Except.ok.inj h
      rw [straight_append, straight_cons]
      exact ⟨straight_move hP hscratch hfirst, ⟨rfl, hscratch⟩, straight_move hP hdst hrest⟩
    · simp only [unary, hty, if_false] at h
      obtain ⟨rest, hmove, h⟩ := Except.bind_eq_ok.1 h
      obtain rfl := Except.ok.inj h
      rw [straight_append, straight_cons]
      exact ⟨straight_move hP hdst hmove, ⟨rfl, hdst⟩, straight_nil⟩
  | other s => cases h

theorem straight_binary {scope : Scope} {op : BinOp} {a b : Atom} {ty : Ty}
    (h : binary scope op a b ty dst = .ok code) : Straight P code := by
  unfold binary at h
  split_ifs at h
  · cases h
  · obtain ⟨_, _, h⟩ := Except.bind_eq_ok.1 h
    obtain ⟨_, _, h⟩ := Except.bind_eq_ok.1 h
    obtain ⟨_, _, h⟩ := Except.bind_eq_ok.1 h
    obtain ⟨_, _, h⟩ := Except.bind_eq_ok.1 h
    exact straight_floatBinary hP hdst h
  · obtain ⟨_, _, h⟩ := Except.bind_eq_ok.1 h
    obtain ⟨_, _, h⟩ := Except.bind_eq_ok.1 h
    exact straight_intBinary hP hdst h

end Operations

theorem straight_deliver {P : Operand → Prop} {dst : Option Operand} {src : Operand}
    {code : List Instr} (hP : ∀ o ∈ volatile, P o) (hdst : ∀ d, dst = some d → P d)
    (h : deliver dst src = .ok code) : Straight P code := by
  cases dst with
  | none =>
    cases h
    exact straight_nil
  | some d => exact straight_move hP (hdst d rfl) h

end Codegen

end ExprBackend
