import ExprBackend.Failure

/-!
# Assembly text

Instructions in the syntax with the destination first and no register marks, one on a line.
-/

namespace ExprBackend

/-- An address between brackets; a negative offset is subtracted. -/
def Mem.address (m : Mem) : String :=
  let n := m.offset.toInt
  if n > 0 then "[" ++ m.base.name ++ " + " ++ toString n ++ "]"
  else if n < 0 then "[" ++ m.base.name ++ " - " ++ toString (-n) ++ "]"
  else "[" ++ m.base.name ++ "]"

/-- An operand of 64 bits. -/
def Operand.render : Operand → Except Fault String
  | .reg r => .ok r.name
  | .xreg r => .ok r.name
  | .imm v => .ok (toString v.toInt)
  | .fimm bits => .ok (Text.markedHex bits.toNat)
  | .mem m => .ok ("qword ptr " ++ m.address)
  | .absent => .error .missingPart

/-- The lowest byte of an operand. -/
def Operand.renderByte : Operand → Except Fault String
  | .reg r => .ok r.byteName
  | .mem m => .ok ("byte ptr " ++ m.address)
  | .xreg r => .error (.byteless r.name)
  | .imm v => .error (.byteless (toString v.toInt))
  | .fimm bits => .error (.byteless (Binary64.text bits))
  | .absent => .error .missingPart

namespace Instr

/-- A mnemonic and one operand. -/
def line1 (mnemonic : String) (x : Operand) : Except Fault String := do
  return "\t" ++ mnemonic ++ "\t" ++ (← x.render)

/-- A mnemonic and two operands. -/
def line2 (mnemonic : String) (dst src : Operand) : Except Fault String := do
  return "\t" ++ mnemonic ++ "\t" ++ (← dst.render) ++ ", " ++ (← src.render)

/-- The line of an instruction. -/
def render : Instr → Except Fault String
  | .text => .ok ".text"
  | .global name => .ok (".globl " ++ name)
  | .label name => .ok (name ++ ":")
  | .mov dst src => line2 "mov" dst src
  | .movsd dst src => line2 "movsd" dst src
  | .movq dst src => line2 "movq" dst src
  | .add dst src => line2 "add" dst src
  | .sub dst src => line2 "sub" dst src
  | .and dst src => line2 "and" dst src
  | .imul dst src => line2 "imul" (.reg dst) src
  | .imul3 dst src factor => do
    return (← line2 "imul" (.reg dst) src) ++ ", " ++ toString factor.toInt
  | .cqo => .ok "\tcqo"
  | .idiv src => line1 "idiv" src
  | .neg dst => line1 "neg" dst
  | .cmp l r => line2 "cmp" l r
  | .set cond dst => do return "\tset" ++ cond.suffix ++ "\t" ++ (← dst.renderByte)
  | .farith op dst src => line2 op.mnemonic (.xreg dst) src
  | .cmpsd dst src pred => do
    return (← line2 "cmpsd" (.xreg dst) src) ++ ", " ++ toString pred.code
  | .jmp target => .ok ("\tjmp\t" ++ target)
  | .jcc cond target => .ok ("\tj" ++ cond.suffix ++ "\t" ++ target)
  | .push src => line1 "push" (.reg src)
  | .pop dst => line1 "pop" (.reg dst)
  | .ret => .ok "\tret"
  | .absent => .error .missingPart

/-- The text of a list of instructions, each ended by a line break. -/
def renderAll : List Instr → Except Fault String
  | [] => .ok ""
  | x :: xs => do
    let line ← x.render
    return line ++ "\n" ++ (← renderAll xs)

end Instr

end ExprBackend
