import ExprBackend.Codegen.Lowering
import ExprBackend.Proofs.Instructions
import Mathlib.Data.Set.Insert

/-!
# Moves

Straight-line code, what it leaves alone, and the moves that lowered operations are built from.
-/

namespace ExprBackend

namespace Machine

def executeAll : List Instr → Exec Unit
  | [] => return ()
  | x :: xs => do
    execute x
    executeAll xs

variable {m m' m'' : Machine}

@[simp] theorem executeAll_nil : executeAll [] m = .ok () m := rfl

theorem executeAll_cons {x : Instr} (h : execute x m = .ok () m') (xs : List Instr) :
    executeAll (x :: xs) m = executeAll xs m' := EStateM.bind_of_ok h

theorem executeAll_cons_error {x : Instr} {e : Trap} (h : execute x m = .error e m')
    (xs : List Instr) : executeAll (x :: xs) m = .error e m' := EStateM.bind_of_error h

theorem executeAll_append {xs ys : List Instr} (h : executeAll xs m = .ok () m') :
    executeAll (xs ++ ys) m = executeAll ys m' := by
  induction xs generalizing m with
  | nil =>
    cases h
    rfl
  | cons x xs ih =>
    rw [List.cons_append]
    cases hx : execute x m with
    | error e m₁ =>
      rw [executeAll_cons_error hx] at h
      cases h
    | ok _ m₁ =>
      rw [executeAll_cons hx] at h ⊢
      exact ih h

/-- Code traps, and not because it has an instruction that changes the order of execution. -/
def Traps (code : List Instr) (m : Machine) : Prop :=
  ∃ e m', executeAll code m = .error e m' ∧ ∀ x, e ≠ .illegal (.unsupported x)

def ChangesOnly (s : Set Cell) (m m' : Machine) : Prop := ∀ c ∉ s, m'.cell c = m.cell c

namespace ChangesOnly

variable {s t : Set Cell}

theorem refl (s : Set Cell) (m : Machine) : ChangesOnly s m m := fun _ _ => rfl

theorem trans (h : ChangesOnly s m m') (h' : ChangesOnly s m' m'') : ChangesOnly s m m'' :=
  fun c hc => (h' c hc).trans (h c hc)

theorem mono (h : ChangesOnly s m m') (hst : s ⊆ t) : ChangesOnly t m m' :=
  fun c hc => h c fun hs => hc (hst hs)

theorem setCell {c : Cell} (hc : c ∈ s) (h : ChangesOnly s m m') (w : UInt64) :
    ChangesOnly s m (m'.setCell c w) := by
  intro d hd
  have hne : c ≠ d := fun hcd => hd (hcd ▸ hc)
  rw [cell_setCell_of_ne _ hne, h d hd]

theorem setFlags (h : ChangesOnly s m m') (f : Flags) : ChangesOnly s m (m'.setFlags f) := by
  intro d hd
  rw [cell_setFlags, h d hd]

theorem base_eq (h : ChangesOnly s m m') (hrbp : Cell.rbp ∉ s) : m'.base = m.base := by
  rw [base, base, h _ hrbp]

end ChangesOnly

/-- Code leaves a word in a cell and changes no cells outside a set. -/
def Leaves (code : List Instr) (m : Machine) (c : Cell) (w : UInt64) (s : Set Cell) : Prop :=
  ∃ m', executeAll code m = .ok () m' ∧ m'.cell c = w ∧ ChangesOnly s m m'

theorem Leaves.mono {code : List Instr} {c : Cell} {w : UInt64} {s t : Set Cell}
    (h : Leaves code m c w s) (hst : s ⊆ t) : Leaves code m c w t := by
  obtain ⟨m', hrun, hw, hsame⟩ := h
  exact ⟨m', hrun, hw, hsame.mono hst⟩

/-- An instruction in front that changes no cells outside the set either. -/
theorem Leaves.cons {x : Instr} {xs : List Instr} {c : Cell} {w : UInt64} {s : Set Cell}
    (hx : execute x m = .ok () m') (hsame : ChangesOnly s m m') (h : Leaves xs m' c w s) :
    Leaves (x :: xs) m c w s := by
  obtain ⟨m'', hrun, hw, hsame'⟩ := h
  exact ⟨m'', (executeAll_cons hx xs).trans hrun, hw, hsame.trans hsame'⟩

theorem Leaves.append {xs ys : List Instr} {c : Cell} {w : UInt64} {s : Set Cell}
    (hxs : executeAll xs m = .ok () m') (hsame : ChangesOnly s m m') (h : Leaves ys m' c w s) :
    Leaves (xs ++ ys) m c w s := by
  obtain ⟨m'', hrun, hw, hsame'⟩ := h
  exact ⟨m'', (executeAll_append hxs).trans hrun, hw, hsame.trans hsame'⟩

theorem leaves_single {x : Instr} {c : Cell} {w : UInt64} {s : Set Cell} (hc : c ∈ s)
    (h : execute x m = .ok () (m.setCell c w)) : Leaves [x] m c w s :=
  ⟨_, executeAll_cons h [], cell_setCell_self m c w, (ChangesOnly.refl s m).setCell hc w⟩

end Machine

/-- The cells that generated code uses on the way. -/
def Cell.temporaries : Set Cell :=
  {.rax, .rdx, .backup, .scratch, .compareScratch, .floatScratch}

/-- An operand stands for a word, and generated code does not change it on the way. -/
structure Machine.Source (m : Machine) (x : Operand) (w : UInt64) : Prop where
  value : m.value? x = some w
  stable : ∀ c, x.cell? m.base = some c → c ∉ Cell.temporaries

theorem Machine.Source.after {m m' : Machine} {x : Operand} {w : UInt64} (h : m.Source x w)
    (hsame : ChangesOnly Cell.temporaries m m') : m'.Source x w := by
  have hbase : m'.base = m.base := hsame.base_eq (by simp [Cell.temporaries]; decide)
  refine ⟨?_, fun c hc => h.stable c (hbase ▸ hc)⟩
  have hcell (hx : (x.cell? m.base).map m.cell = some w) : (x.cell? m'.base).map m'.cell = some w := by
    obtain ⟨c, hc, rfl⟩ := Option.map_eq_some_iff.1 hx
    rw [hbase, hc, Option.map_some, hsame c (h.stable c hc)]
  cases x with
  | imm v => exact h.value
  | fimm bits => exact h.value
  | absent => exact h.value
  | reg r => exact hcell h.value
  | xreg r => exact hcell h.value
  | mem y => exact hcell h.value

/-- Code leaves a word in a cell and, unless that is the cell, another one in `rax`. -/
def Machine.Finishes (code : List Instr) (m : Machine) (c : Cell) (w rax : UInt64) : Prop :=
  ∃ m', executeAll code m = .ok () m' ∧ m'.cell c = w ∧ (c ≠ .rax → m'.cell .rax = rax) ∧
    ChangesOnly (insert c Cell.temporaries) m m'

/-- The same with another set of cells that are used on the way. -/
def Machine.FinishesIn (s : Set Cell) (code : List Instr) (m : Machine) (c : Cell)
    (w rax : UInt64) : Prop :=
  ∃ m', executeAll code m = .ok () m' ∧ m'.cell c = w ∧ (c ≠ .rax → m'.cell .rax = rax) ∧
    ChangesOnly (insert c s) m m'

namespace Machine

variable {m : Machine} {code : List Instr} {c : Cell} {w rax : UInt64} {s t : Set Cell}

theorem FinishesIn.mono (h : FinishesIn s code m c w rax) (hst : s ⊆ t) :
    FinishesIn t code m c w rax := by
  obtain ⟨m', hrun, hw, hrax, hsame⟩ := h
  exact ⟨m', hrun, hw, hrax, hsame.mono (Set.insert_subset_insert hst)⟩

theorem FinishesIn.finishes (h : FinishesIn s code m c w rax) (hs : s ⊆ Cell.temporaries) :
    Finishes code m c w rax := h.mono hs

theorem FinishesIn.leaves (h : FinishesIn s code m c w rax) : Leaves code m c w (insert c s) := by
  obtain ⟨m', hrun, hw, _, hsame⟩ := h
  exact ⟨m', hrun, hw, hsame⟩

theorem Leaves.finishesIn (h : Leaves code m c w (insert c s)) (hrax : Cell.rax ∉ s) :
    FinishesIn s code m c w (m.cell .rax) := by
  obtain ⟨m', hrun, hw, hsame⟩ := h
  refine ⟨m', hrun, hw, fun hc => hsame _ ?_, hsame⟩
  rintro (h | h)
  · exact hc h.symm
  · exact hrax h

theorem Leaves.finishes (h : Leaves code m c w (insert c s)) (hs : s ⊆ Cell.temporaries)
    (hrax : Cell.rax ∉ s) : Finishes code m c w (m.cell .rax) :=
  (h.finishesIn hrax).finishes hs

end Machine

namespace Codegen

open Machine

variable {m : Machine} {dst src : Operand} {c d : Cell} {w : UInt64} {code : List Instr}

theorem cell?_backup (base : Int64) : backup.cell? base = some .backup := rfl

theorem cell?_scratch (base : Int64) : scratch.cell? base = some .scratch := rfl

theorem base_setCell {c : Cell} (h : c ≠ .rbp) (m : Machine) (w : UInt64) :
    (m.setCell c w).base = m.base := by
  rw [base, base, cell_setCell_of_ne m h]

/-- A move between registers and memory, by one instruction or through the backup register. -/
theorem transfer_leaves (hc : dst.cell? m.base = some c) (hd : src.cell? m.base = some d) :
    Leaves (transfer dst src) m c (m.cell d) {c, .backup} := by
  have hmem : c ∈ ({c, .backup} : Set Cell) := Set.mem_insert c _
  have hvalue := value?_of_cell? hd
  cases dst with
  | imm v => cases hc
  | fimm bits => cases hc
  | absent => cases hc
  | reg r =>
    cases src with
    | imm v => cases hd
    | fimm bits => cases hd
    | absent => cases hd
    | reg r' => exact leaves_single hmem (execute_mov rfl hc hvalue)
    | xreg r' => exact leaves_single hmem (execute_movq rfl (by simp [Operand.isXReg]) hc hd)
    | mem x => exact leaves_single hmem (execute_mov rfl hc hvalue)
  | xreg r =>
    cases src with
    | imm v => cases hd
    | fimm bits => cases hd
    | absent => cases hd
    | reg r' => exact leaves_single hmem (execute_movq rfl (by simp [Operand.isXReg]) hc hd)
    | xreg r' => exact leaves_single hmem (execute_movsd rfl rfl hc hd)
    | mem x => exact leaves_single hmem (execute_movsd rfl rfl hc hd)
  | mem x =>
    cases src with
    | imm v => cases hd
    | fimm bits => cases hd
    | absent => cases hd
    | reg r' => exact leaves_single hmem (execute_mov rfl hc hvalue)
    | xreg r' => exact leaves_single hmem (execute_movsd rfl rfl hc hd)
    | mem y =>
      have hbase : (m.setCell .backup (m.cell d)).base = m.base := base_setCell (by decide) m _
      have hfirst : execute (.mov backup (.mem y)) m = .ok () (m.setCell .backup (m.cell d)) :=
        execute_mov rfl (cell?_backup _) hvalue
      refine .cons hfirst ?_ (leaves_single hmem (execute_mov rfl (hbase ▸ hc) ?_))
      · exact (ChangesOnly.refl _ m).setCell (by simp) _
      · rw [value?_of_cell? (cell?_backup _), cell_setCell_self]

/-- A move leaves the word of the source in the destination. -/
theorem move_leaves (hcode : move dst src = .ok code) (hc : dst.cell? m.base = some c)
    (hback : c ≠ .backup) (hw : m.value? src = some w) :
    Leaves code m c w {c, .backup} := by
  have hmem : c ∈ ({c, .backup} : Set Cell) := Set.mem_insert c _
  have hbase (v : UInt64) : (m.setCell .backup v).base = m.base := base_setCell (by decide) m v
  have hfirst (v : Int64) :
      execute (.mov backup (.imm v)) m = .ok () (m.setCell .backup v.toUInt64) :=
    execute_mov (by simp [encodable, backup]) (cell?_backup _) rfl
  have hsame (v : UInt64) : ChangesOnly {c, .backup} m (m.setCell .backup v) :=
    (ChangesOnly.refl _ m).setCell (by simp) v
  have hne : dst ≠ backup := by
    rintro rfl
    exact hback (Option.some.inj (hc.symm.trans (cell?_backup _)))
  by_cases heq : dst = src
  · subst heq
    have hsrc : m.cell c = w := Option.some.inj ((value?_of_cell? hc).symm.trans hw)
    simp only [move, if_true] at hcode
    cases hcode
    exact ⟨m, executeAll_nil, hsrc, .refl _ m⟩
  · simp only [move, heq, if_false] at hcode
    cases src with
    | fimm bits =>
      simp only [hne, if_false] at hcode
      cases hcode
      obtain rfl : bits = w := Option.some.inj hw
      have hmov := hfirst bits.toInt64
      rw [UInt64.toUInt64_toInt64] at hmov
      have hthen := transfer_leaves (m := m.setCell .backup bits) ((hbase _).symm ▸ hc)
        (cell?_backup _)
      rw [cell_setCell_self] at hthen
      exact .cons hmov (hsame _) hthen
    | imm v =>
      obtain rfl : v.toUInt64 = w := Option.some.inj hw
      cases dst with
      | reg r =>
        cases hcode
        exact leaves_single hmem (execute_mov (by simp [encodable]) hc rfl)
      | mem x =>
        dsimp only at hcode
        split at hcode
        next hv =>
          cases hcode
          exact leaves_single hmem (execute_mov hv hc rfl)
        next hv =>
          cases hcode
          refine .cons (hfirst v) (hsame _) (leaves_single hmem ?_)
          refine execute_mov rfl ((hbase _).symm ▸ hc) ?_
          rw [value?_of_cell? (cell?_backup _), cell_setCell_self]
      | xreg r => cases hcode
      | imm v => cases hc
      | fimm bits => cases hc
      | absent => cases hc
    | absent => cases hw
    | reg r =>
      cases hcode
      obtain ⟨d, hd, rfl⟩ := Option.map_eq_some_iff.1 hw
      exact transfer_leaves hc hd
    | xreg r =>
      cases hcode
      obtain ⟨d, hd, rfl⟩ := Option.map_eq_some_iff.1 hw
      exact transfer_leaves hc hd
    | mem x =>
      cases hcode
      obtain ⟨d, hd, rfl⟩ := Option.map_eq_some_iff.1 hw
      exact transfer_leaves hc hd

end Codegen

end ExprBackend
