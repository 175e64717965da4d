import ExprBackend.Proofs.Move

/-!
# Instructions that can be encoded

The forms of instructions that the hardware has an encoding for, and what these say of the operands.
-/

namespace ExprBackend

namespace Operand

def isPlace : Operand → Bool
  | .reg _ | .xreg _ | .mem _ => true
  | _ => false

def isWord : Operand → Bool
  | .reg _ | .mem _ => true
  | _ => false

def isReadable : Operand → Bool
  | .fimm _ | .absent => false
  | _ => true

end Operand

namespace Instr

/-- The forms that the hardware has an encoding for. -/
def encodable : Instr → Bool
  | .mov dst src => Machine.encodable dst src true
  | .add dst src | .sub dst src | .and dst src | .cmp dst src => Machine.encodable dst src false
  | .imul dst src => Machine.encodable (.reg dst) src false
  | .imul3 _ src factor => src.isWord && fitsImm32 factor
  | .idiv src => src.isWord
  | .neg dst | .set _ dst => dst.isWord
  | .movsd dst src => dst.isXReg && Machine.isFloatSource src || dst.isMem && src.isXReg
  | .movq dst src => dst.isXReg && src.isWord || dst.isWord && src.isXReg
  | .farith _ _ src | .cmpsd _ src _ => Machine.isFloatSource src
  | .absent => false
  | _ => true

def jumpTarget? : Instr → Option String
  | .jmp target | .jcc _ target => some target
  | _ => none

/-- All operands that an instruction writes are of one kind. Those that move the stack pointer
are left out. -/
def Writes (P : Operand → Prop) : Instr → Prop
  | .mov dst _ | .movsd dst _ | .movq dst _ | .add dst _ | .sub dst _ | .and dst _ | .neg dst
  | .set _ dst => P dst
  | .imul dst _ | .imul3 dst _ _ => P (.reg dst)
  | .farith _ dst _ | .cmpsd dst _ _ => P (.xreg dst)
  | .cqo => P (.reg .rdx)
  | .idiv _ => P (.reg .rax) ∧ P (.reg .rdx)
  | .push _ | .pop _ | .ret => False
  | _ => True

end Instr

section AllEncodable

variable {x : Instr} {xs ys : List Instr}

def AllEncodable (xs : List Instr) : Prop := ∀ x ∈ xs, x.encodable = true

theorem allEncodable_nil : AllEncodable [] := by simp [AllEncodable]

theorem allEncodable_cons : AllEncodable (x :: xs) ↔ x.encodable = true ∧ AllEncodable xs :=
  List.forall_mem_cons

theorem allEncodable_append : AllEncodable (xs ++ ys) ↔ AllEncodable xs ∧ AllEncodable ys :=
  List.forall_mem_append

end AllEncodable

namespace Machine

variable {o dst src : Operand} {isMove : Bool}

theorem isPlace_of_isWord (h : o.isWord = true) : o.isPlace = true := by
  cases o <;> first | rfl | cases h

theorem not_isWord_of_isPlace (h : o.isPlace = false) : o.isWord = false := by
  cases o <;> first | rfl | cases h

theorem not_isWord_of_isReadable (h : o.isReadable = false) : o.isWord = false := by
  cases o <;> first | rfl | cases h

theorem not_isPlace_of_isReadable (h : o.isReadable = false) : o.isPlace = false := by
  cases o <;> first | rfl | cases h

theorem not_isWord_of_isImm (h : o.isImm = true) : o.isWord = false := by
  cases o <;> first | rfl | cases h

theorem not_isFloatSource_of_isReadable (h : o.isReadable = false) : isFloatSource o = false := by
  cases o <;> first | rfl | cases h

theorem not_encodable_of_isWord (h : dst.isWord = false) : encodable dst src isMove = false := by
  cases dst <;> first | rfl | cases h

theorem not_encodable_of_isReadable (h : src.isReadable = false) :
    encodable dst src isMove = false := by
  cases src with
  | fimm bits => cases dst <;> rfl
  | absent => cases dst <;> rfl
  | _ => cases h

theorem not_encodable_movsd (h : (!dst.isXReg && !src.isXReg) = true ∨
    (dst.isMem && src.isMem) = true ∨ src.isReadable = false ∨ dst.isPlace = false) :
    (Instr.movsd dst src).encodable = false := by
  cases dst with
  | xreg r =>
    cases src with
    | xreg q => rcases h with h | h | h | h <;> cases h
    | mem a => rcases h with h | h | h | h <;> cases h
    | _ => rfl
  | mem a =>
    cases src with
    | xreg q => rcases h with h | h | h | h <;> cases h
    | _ => rfl
  | _ => rfl

theorem not_encodable_movq (h : dst.isXReg = src.isXReg ∨
    (dst.isMem && src.isMem) = true ∨ src.isReadable = false ∨ dst.isPlace = false) :
    (Instr.movq dst src).encodable = false := by
  cases dst with
  | xreg r =>
    cases src with
    | reg q => rcases h with h | h | h | h <;> cases h
    | mem a => rcases h with h | h | h | h <;> cases h
    | _ => rfl
  | reg r =>
    cases src with
    | xreg q => rcases h with h | h | h | h <;> cases h
    | _ => rfl
  | mem a =>
    cases src with
    | xreg q => rcases h with h | h | h | h <;> cases h
    | _ => rfl
  | _ => rfl

theorem checkOperands_illegal (h : encodable dst src isMove = false) (m : Machine) :
    ∃ why, checkOperands dst src isMove m = .error (.illegal why) m ∧
      ∀ x, why ≠ .unsupported x := by
  have himm (v : Int64) (hv : (fitsImm32 v || (isMove && !dst.isMem)) = false)
      (hdst : dst.isWord = true) : checkOperands dst (.imm v) isMove m =
        .error (.illegal (.wideImmediate v)) m := by
    cases dst <;> try cases hdst
    all_goals
      simp only [checkOperands, hv]
      rfl
  cases dst with
  | reg r =>
    cases src with
    | imm v => exact ⟨_, himm v (by simpa [encodable, Operand.isMem] using h) rfl, by simp⟩
    | xreg r' => exact ⟨_, rfl, by simp⟩
    | fimm bits => exact ⟨_, rfl, by simp⟩
    | absent => exact ⟨_, rfl, by simp⟩
    | _ => cases h
  | mem a =>
    cases src with
    | imm v => exact ⟨_, himm v (by simpa [encodable, Operand.isMem] using h) rfl, by simp⟩
    | mem a' => exact ⟨_, rfl, by simp⟩
    | xreg r' => exact ⟨_, rfl, by simp⟩
    | fimm bits => exact ⟨_, rfl, by simp⟩
    | absent => exact ⟨_, rfl, by simp⟩
    | _ => cases h
  | _ => exact ⟨_, rfl, by simp⟩

end Machine

end ExprBackend
