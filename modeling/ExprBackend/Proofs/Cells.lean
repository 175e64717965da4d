import ExprBackend.Machine.Execute
import ExprBackend.Proofs.Results

/-!
# The machine as a collection of cells

A cell is a register or a word of memory. Operands of generated code stand for cells relative to
the frame pointer, and an instruction is described by the cells that it changes.
-/

namespace ExprBackend

inductive Cell where
  | reg (i : Fin 16)
  | xreg (i : Fin 16)
  | word (a : Int64)
deriving DecidableEq, Repr

namespace Cell

def rax : Cell := .reg 0
def rdx : Cell := .reg 2
def rsp : Cell := .reg 4
def rbp : Cell := .reg 5
def backup : Cell := .reg 10
def scratch : Cell := .reg 11
def xmm0 : Cell := .xreg 0
def compareScratch : Cell := .xreg 14
def floatScratch : Cell := .xreg 15

end Cell

namespace Machine

def cell (m : Machine) : Cell → UInt64
  | .reg i => m.r.get i
  | .xreg i => m.x.get i
  | .word a => m.load a

def setCell (m : Machine) : Cell → UInt64 → Machine
  | .reg i, w => { m with r := m.r.setIfInBounds i w }
  | .xreg i, w => { m with x := m.x.setIfInBounds i w }
  | .word a, w => m.store a w

def setFlags (m : Machine) (f : Flags) : Machine := { m with flags := some f }

theorem get_setIfInBounds (v : Vector UInt64 16) (i j : Fin 16) (w : UInt64) :
    (v.setIfInBounds i w).get j = if i = j then w else v.get j := by
  simp only [Fin.ext_iff]
  exact Vector.getElem_setIfInBounds j.isLt

theorem cell_setCell (m : Machine) (c d : Cell) (w : UInt64) :
    (m.setCell c w).cell d = if c = d then w else m.cell d := by
  cases c <;> cases d <;>
    simp [cell, setCell, store, load, get_setIfInBounds, Std.TreeMap.getD_insert,
      Std.LawfulEqCmp.compare_eq_iff_eq]

@[simp] theorem cell_setCell_self (m : Machine) (c : Cell) (w : UInt64) :
    (m.setCell c w).cell c = w := by
  rw [cell_setCell, if_pos rfl]

theorem cell_setCell_of_ne (m : Machine) {c d : Cell} (h : c ≠ d) (w : UInt64) :
    (m.setCell c w).cell d = m.cell d := by
  rw [cell_setCell, if_neg h]

@[simp] theorem flags_setCell (m : Machine) (c : Cell) (w : UInt64) :
    (m.setCell c w).flags = m.flags := by
  cases c <;> rfl

@[simp] theorem cell_setFlags (m : Machine) (f : Flags) (c : Cell) :
    (m.setFlags f).cell c = m.cell c := by
  cases c <;> rfl

@[simp] theorem flags_setFlags (m : Machine) (f : Flags) : (m.setFlags f).flags = some f := rfl

def base (m : Machine) : Int64 := (m.cell .rbp).toInt64

end Machine

open Machine

/-- The cell of an operand in a frame. Memory is only reached by the frame pointer. -/
def Operand.cell? (base : Int64) : Operand → Option Cell
  | .reg r => (registerIndex? r.number).map .reg
  | .xreg r => (registerIndex? r.number).map .xreg
  | .mem x =>
    if x.base = .rbp ∧ aligned (base + x.offset.toInt64) = true then
      some (.word (base + x.offset.toInt64))
    else none
  | _ => none

namespace Machine

variable {m : Machine} {x : Operand} {c : Cell}

theorem getReg_ok {r : Reg} {i : Fin 16} (h : registerIndex? r.number = some i) (m : Machine) :
    getReg r m = .ok (m.cell (.reg i)) m := by
  simp only [getReg, registerIndex, h]
  rfl

theorem setReg_ok {r : Reg} {i : Fin 16} (h : registerIndex? r.number = some i) (w : UInt64)
    (m : Machine) : setReg r w m = .ok () (m.setCell (.reg i) w) := by
  simp only [setReg, registerIndex, h]
  rfl

theorem getXReg_ok {r : XReg} {i : Fin 16} (h : registerIndex? r.number = some i) (m : Machine) :
    getXReg r m = .ok (m.cell (.xreg i)) m := by
  simp only [getXReg, registerIndex, h]
  rfl

theorem setXReg_ok {r : XReg} {i : Fin 16} (h : registerIndex? r.number = some i) (w : UInt64)
    (m : Machine) : setXReg r w m = .ok () (m.setCell (.xreg i) w) := by
  simp only [setXReg, registerIndex, h]
  rfl

theorem address_ok {x : Mem} (h : x.base = .rbp) (m : Machine) :
    address x m = .ok (m.base + x.offset.toInt64) m := by
  have hreg : getReg x.base m = .ok (m.cell .rbp) m := getReg_ok (by rw [h]; rfl) m
  rw [address, EStateM.bind_of_ok hreg]
  rfl

theorem read_ok (h : x.cell? m.base = some c) : read x m = .ok (m.cell c) m := by
  cases x with
  | reg r =>
    obtain ⟨i, hi, rfl⟩ := Option.map_eq_some_iff.1 h
    exact getReg_ok hi m
  | xreg r =>
    obtain ⟨i, hi, rfl⟩ := Option.map_eq_some_iff.1 h
    exact getXReg_ok hi m
  | mem x =>
    simp only [Operand.cell?, Option.ite_none_right_eq_some, Option.some.injEq] at h
    obtain ⟨⟨hbase, haligned⟩, rfl⟩ := h
    rw [read, EStateM.bind_of_ok (address_ok hbase m), if_pos haligned]
    rfl
  | imm v => cases h
  | fimm bits => cases h
  | absent => cases h

theorem write_ok (h : x.cell? m.base = some c) (w : UInt64) :
    write x w m = .ok () (m.setCell c w) := by
  cases x with
  | reg r =>
    obtain ⟨i, hi, rfl⟩ := Option.map_eq_some_iff.1 h
    exact setReg_ok hi w m
  | xreg r =>
    obtain ⟨i, hi, rfl⟩ := Option.map_eq_some_iff.1 h
    exact setXReg_ok hi w m
  | mem x =>
    simp only [Operand.cell?, Option.ite_none_right_eq_some, Option.some.injEq] at h
    obtain ⟨⟨hbase, haligned⟩, rfl⟩ := h
    rw [write, EStateM.bind_of_ok (address_ok hbase m), if_pos haligned]
    rfl
  | imm v => cases h
  | fimm bits => cases h
  | absent => cases h

end Machine

end ExprBackend
