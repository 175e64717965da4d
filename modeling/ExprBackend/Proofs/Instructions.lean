import ExprBackend.Proofs.Cells
import ExprBackend.Proofs.Evaluation

/-!
# What instructions do to cells

One lemma for each instruction that generated code is made of: on operands that it can be encoded
with, it does not trap and changes the one cell it is to change.
-/

namespace ExprBackend.Machine

def value? (m : Machine) : Operand → Option UInt64
  | .imm v => some v.toUInt64
  | .fimm bits => some bits
  | x => (x.cell? m.base).map m.cell

/-- The operands that the instructions with a destination and a source take. -/
def encodable (dst src : Operand) (isMove : Bool) : Bool :=
  match dst, src with
  | .reg _, .reg _ | .reg _, .mem _ | .mem _, .reg _ => true
  | .reg _, .imm v => fitsImm32 v || isMove
  | .mem _, .imm v => fitsImm32 v
  | _, _ => false

theorem checkOperands_ok {dst src : Operand} {isMove : Bool} (h : encodable dst src isMove = true)
    (m : Machine) : checkOperands dst src isMove m = .ok () m := by
  cases dst <;> cases src <;> try cases h
  case reg.imm r v =>
    have hv : (fitsImm32 v || (isMove && !(Operand.reg r).isMem)) = true := by
      simpa [encodable, Operand.isMem] using h
    simp only [checkOperands, hv]
    rfl
  case mem.imm x v =>
    have hv : (fitsImm32 v || (isMove && !(Operand.mem x).isMem)) = true := by
      rw [show fitsImm32 v = true from h, Bool.true_or]
    simp only [checkOperands, hv]
    rfl
  all_goals rfl

section Values

variable {m : Machine} {x : Operand} {c : Cell} {w : UInt64}

theorem value?_of_cell? (h : x.cell? m.base = some c) : m.value? x = some (m.cell c) := by
  cases x with
  | imm v => cases h
  | fimm bits => cases h
  | absent => cases h
  | _ => simp only [value?, h, Option.map_some]

/-- An operand is read as its word, except that float immediates are never read. -/
theorem read_value (h : m.value? x = some w) (hfimm : ∀ bits, x ≠ .fimm bits) :
    read x m = .ok w m := by
  cases x with
  | imm v => cases h; rfl
  | fimm bits => exact absurd rfl (hfimm bits)
  | absent => cases h
  | _ =>
    obtain ⟨c, hc, rfl⟩ := Option.map_eq_some_iff.1 h
    exact read_ok hc

end Values

section Execute

-- the lemmas below are what is to be used outside instead of the definition
attribute [local simp] execute

variable {m : Machine} {dst src : Operand} {c d : Cell} {w : UInt64}

theorem ne_fimm_of_encodable {isMove : Bool} (h : encodable dst src isMove = true)
    (bits : UInt64) : src ≠ .fimm bits := by
  rintro rfl
  cases dst <;> cases h

theorem execute_mov (henc : encodable dst src true = true) (hc : dst.cell? m.base = some c)
    (hw : m.value? src = some w) : execute (.mov dst src) m = .ok () (m.setCell c w) := by
  rw [execute, EStateM.bind_of_ok (checkOperands_ok henc m),
    EStateM.bind_of_ok (read_value hw (ne_fimm_of_encodable henc)), write_ok hc]

theorem combine_ok (f : UInt64 → UInt64 → UInt64) (henc : encodable dst src false = true)
    (hc : dst.cell? m.base = some c) (hw : m.value? src = some w) :
    combine f dst src m = .ok () (m.setCell c (f (m.cell c) w)) := by
  rw [combine, EStateM.bind_of_ok (checkOperands_ok henc m), EStateM.bind_of_ok (read_ok hc),
    EStateM.bind_of_ok (read_value hw (ne_fimm_of_encodable henc)), write_ok hc]

theorem transfer_ok (hmem : (dst.isMem && src.isMem) = false) (hc : dst.cell? m.base = some c)
    (hd : src.cell? m.base = some d) :
    transfer dst src m = .ok () (m.setCell c (m.cell d)) := by
  simp only [transfer, hmem]
  refine (EStateM.bind_of_ok (read_ok hd)).trans ?_
  rw [write_ok hc]

theorem execute_movsd (hmem : (dst.isMem && src.isMem) = false)
    (hx : (dst.isXReg || src.isXReg) = true) (hc : dst.cell? m.base = some c)
    (hd : src.cell? m.base = some d) :
    execute (.movsd dst src) m = .ok () (m.setCell c (m.cell d)) := by
  have hnone : (!dst.isXReg && !src.isXReg) = false := by
    rw [← Bool.not_or, hx]
    rfl
  simp only [execute, hnone]
  exact transfer_ok hmem hc hd

theorem execute_movq (hmem : (dst.isMem && src.isMem) = false) (hx : dst.isXReg ≠ src.isXReg)
    (hc : dst.cell? m.base = some c) (hd : src.cell? m.base = some d) :
    execute (.movq dst src) m = .ok () (m.setCell c (m.cell d)) := by
  simp only [execute, hx]
  exact transfer_ok hmem hc hd

theorem execute_imul {r : Reg} {i : Fin 16} (henc : encodable (.reg r) src false = true)
    (hr : registerIndex? r.number = some i) (hw : m.value? src = some w) :
    execute (.imul r src) m = .ok () (m.setCell (.reg i) (m.cell (.reg i) * w)) := by
  rw [execute, EStateM.bind_of_ok (checkOperands_ok henc m),
    EStateM.bind_of_ok (read_value hw (ne_fimm_of_encodable henc)),
    EStateM.bind_of_ok (getReg_ok hr m), setReg_ok hr]

theorem execute_imul3 {r : Reg} {i : Fin 16} {v : Int64} (himm : src.isImm = false)
    (hv : fitsImm32 v = true) (hr : registerIndex? r.number = some i)
    (hd : src.cell? m.base = some d) :
    execute (.imul3 r src v) m = .ok () (m.setCell (.reg i) (m.cell d * v.toUInt64)) := by
  simp only [execute, himm, hv]
  refine (EStateM.bind_of_ok (read_ok hd)).trans ?_
  rw [setReg_ok hr]

theorem execute_cqo : execute .cqo m = .ok () (m.setCell .rdx (signWord (m.cell .rax))) := by
  rw [execute, EStateM.bind_of_ok (getReg_ok (r := .rax) rfl m)]
  exact setReg_ok (r := .rdx) rfl _ m

theorem execute_neg (hc : dst.cell? m.base = some c) :
    execute (.neg dst) m = .ok () (m.setCell c (-(m.cell c))) := by
  rw [execute, EStateM.bind_of_ok (read_ok hc), write_ok hc]

theorem execute_idiv (himm : src.isImm = false) (hd : src.cell? m.base = some d)
    (hne : (m.cell d).toInt64 ≠ 0) (hsign : m.cell .rdx = signWord (m.cell .rax)) :
    execute (.idiv src) m = .ok ()
      ((m.setCell .rax ((m.cell .rax).toInt64 / (m.cell d).toInt64).toUInt64).setCell .rdx
        ((m.cell .rax).toInt64 % (m.cell d).toInt64).toUInt64) := by
  simp only [execute, divide, himm, Bool.false_eq_true, if_false]
  refine (EStateM.bind_of_ok (read_ok hd)).trans ?_
  have hrax : getReg .rax m = .ok (m.cell .rax) m := getReg_ok rfl m
  have hrdx : getReg .rdx m = .ok (m.cell .rdx) m := getReg_ok rfl m
  simp only [hne, if_false]
  refine (EStateM.bind_of_ok hrax).trans ((EStateM.bind_of_ok hrdx).trans ?_)
  simp only [hsign, ne_eq, not_true_eq_false, if_false]
  refine (EStateM.bind_of_ok (setReg_ok (r := .rax) rfl _ m)).trans ?_
  exact setReg_ok (r := .rdx) rfl _ _

theorem execute_idiv_zero (himm : src.isImm = false) (hd : src.cell? m.base = some d)
    (hzero : (m.cell d).toInt64 = 0) :
    execute (.idiv src) m = .error .divisionByZero m := by
  simp only [execute, divide, himm, Bool.false_eq_true, if_false]
  refine (EStateM.bind_of_ok (read_ok hd)).trans ?_
  simp only [hzero, if_true]
  rfl

end Execute

end ExprBackend.Machine

namespace ExprBackend

def Flags.ofWords (a b : UInt64) : Flags := ⟨a = b, a.toInt64 < b.toInt64⟩

def Cond.test? (f : Flags) : Cond → Option Bool
  | .e => some f.eq
  | .ne => some (!f.eq)
  | .l => some f.lt
  | .le => some (f.lt || f.eq)
  | .g => some (!f.lt && !f.eq)
  | .ge => some (!f.lt)
  | .other _ => none

namespace Machine

variable {m : Machine} {dst src : Operand} {c d : Cell} {w : UInt64}

theorem execute_cmp {l r : Operand} (himm : l.isImm = false) (henc : encodable l r false = true)
    (hc : l.cell? m.base = some c) (hw : m.value? r = some w) :
    execute (.cmp l r) m = .ok () (m.setFlags (.ofWords (m.cell c) w)) := by
  simp only [execute, compare, himm, Bool.false_eq_true, if_false]
  refine (EStateM.bind_of_ok (checkOperands_ok henc m)).trans ?_
  refine (EStateM.bind_of_ok (read_ok hc)).trans ?_
  refine (EStateM.bind_of_ok (read_value hw (ne_fimm_of_encodable henc))).trans ?_
  rfl

theorem holds_ok {cond : Cond} {f : Flags} {b : Bool} (hf : m.flags = some f)
    (hb : cond.test? f = some b) : holds cond m = .ok b m := by
  have hget : (get : Exec Machine) m = .ok m m := rfl
  rw [holds, EStateM.bind_of_ok hget, hf]
  cases cond <;> cases hb <;> rfl

/-- The lowest byte of a word that is 0 becomes the truth value. -/
theorem execute_set {cond : Cond} {f : Flags} {b : Bool} (hf : m.flags = some f)
    (hb : cond.test? f = some b) (hc : dst.cell? m.base = some c) (hzero : m.cell c = 0) :
    execute (.set cond dst) m = .ok () (m.setCell c (truthWord b)) := by
  rw [execute, EStateM.bind_of_ok (holds_ok hf hb), EStateM.bind_of_ok (read_ok hc), hzero,
    write_ok hc]
  simp [truthWord]

theorem execute_farith {op : FloatOp} {f : UInt64 → UInt64 → UInt64} {r : XReg} {i : Fin 16}
    (hsrc : isFloatSource src = true) (hr : registerIndex? r.number = some i)
    (hd : src.cell? m.base = some d) (hf : floatFunction? op = some f) :
    execute (.farith op r src) m =
      .ok () (m.setCell (.xreg i) (f (m.cell (.xreg i)) (m.cell d))) := by
  simp only [execute, floatCombine, hsrc, Bool.not_true, Bool.false_eq_true, if_false, hf]
  refine (EStateM.bind_of_ok (read_ok hd)).trans ?_
  refine (EStateM.bind_of_ok (getXReg_ok hr m)).trans ?_
  exact setXReg_ok hr _ m

theorem execute_cmpsd {pred : Predicate} {rel : UInt64 → UInt64 → Bool} {r : XReg} {i : Fin 16}
    (hsrc : isFloatSource src = true) (hr : registerIndex? r.number = some i)
    (hd : src.cell? m.base = some d) (hrel : relation? pred = some rel) :
    execute (.cmpsd r src pred) m =
      .ok () (m.setCell (.xreg i) (maskOf (rel (m.cell (.xreg i)) (m.cell d)))) := by
  simp only [execute, floatCompare, hsrc, Bool.not_true, Bool.false_eq_true, if_false, hrel]
  refine (EStateM.bind_of_ok (read_ok hd)).trans ?_
  refine (EStateM.bind_of_ok (getXReg_ok hr m)).trans ?_
  exact setXReg_ok hr _ m

theorem execute_push {r : Reg} {i : Fin 16} (hr : registerIndex? r.number = some i) (m : Machine) :
    execute (.push r) m = .ok () ((m.setCell .rsp (m.cell .rsp - 8)).setCell
      (.word (m.cell .rsp - 8).toInt64) (m.cell (.reg i))) := by
  rw [execute, EStateM.bind_of_ok (getReg_ok hr m)]
  refine (EStateM.bind_of_ok (getReg_ok (r := .rsp) rfl m)).trans ?_
  refine (EStateM.bind_of_ok (setReg_ok (r := .rsp) rfl _ m)).trans ?_
  rfl

theorem pop_ok (m : Machine) :
    pop m = .ok (m.cell (.word (m.cell .rsp).toInt64)) (m.setCell .rsp (m.cell .rsp + 8)) := by
  rw [pop, EStateM.bind_of_ok (getReg_ok (r := .rsp) rfl m)]
  refine (EStateM.bind_of_ok (setReg_ok (r := .rsp) rfl _ m)).trans ?_
  rfl

theorem execute_pop {r : Reg} {i : Fin 16} (hr : registerIndex? r.number = some i) (m : Machine) :
    execute (.pop r) m = .ok () ((m.setCell .rsp (m.cell .rsp + 8)).setCell (.reg i)
      (m.cell (.word (m.cell .rsp).toInt64))) := by
  rw [execute, EStateM.bind_of_ok (pop_ok m), setReg_ok hr]

end Machine

end ExprBackend
