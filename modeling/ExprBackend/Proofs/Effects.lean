import ExprBackend.Machine.Run
import ExprBackend.Proofs.Encoding

/-!
# What an instruction can do

An instruction looks for everything that may be wrong with it before it changes anything. It is said
once, for every instruction and whatever its operands are, which cells it changes, that only a
comparison changes the flags, that only forms without an encoding are refused as illegal, and that
one that traps has no effect as long as its registers exist.
-/

namespace ExprBackend

def Operand.registers : Operand → List Int
  | .reg r => [r.number]
  | .xreg r => [r.number]
  | .mem a => [a.base.number]
  | .imm _ | .fimm _ | .absent => []

theorem exists_registerIndex {n : Int} (h : 0 ≤ n ∧ n < 16) : ∃ i, registerIndex? n = some i :=
  ⟨_, dif_pos h⟩

namespace Instr

def registers : Instr → List Int
  | .mov dst src | .movsd dst src | .movq dst src | .add dst src | .sub dst src | .and dst src
  | .cmp dst src => dst.registers ++ src.registers
  | .imul dst src | .imul3 dst src _ => dst.number :: src.registers
  | .farith _ dst src | .cmpsd dst src _ => dst.number :: src.registers
  | .idiv x | .neg x | .set _ x => x.registers
  | .push r | .pop r => [r.number]
  | _ => []

def RegistersExist (x : Instr) : Prop := ∀ n ∈ x.registers, 0 ≤ n ∧ n < 16

instance (x : Instr) : Decidable x.RegistersExist := List.decidableBAll _ x.registers

def isCompare : Instr → Bool
  | .cmp _ _ => true
  | _ => false

/-- Whether an instruction changes the order of execution, which a run does and not the machine. -/
def redirects : Instr → Bool
  | .jmp _ | .jcc _ _ | .ret => true
  | _ => false

/-- The operands that an instruction writes. A push writes the word below the stack pointer. -/
def written : Instr → List Operand
  | .mov dst _ | .movsd dst _ | .movq dst _ | .add dst _ | .sub dst _ | .and dst _ | .neg dst
  | .set _ dst => [dst]
  | .imul dst _ | .imul3 dst _ _ => [.reg dst]
  | .farith _ dst _ | .cmpsd dst _ _ => [.xreg dst]
  | .cqo => [.reg .rdx]
  | .idiv _ => [.reg .rax, .reg .rdx]
  | .push _ => [.reg .rsp, .mem ⟨.rsp, -8⟩]
  | .pop dst => [.reg .rsp, .reg dst]
  | _ => []

theorem Writes.written {P : Operand → Prop} {x : Instr} (h : x.Writes P) :
    ∀ o ∈ x.written, P o := by
  cases x <;> simp_all [Writes, Instr.written]

end Instr

namespace Machine

variable {α β : Type} {m m' : Machine} {o dst src : Operand}

/-- A trap that is not about the encoding of the instruction. -/
def Legal (e : Trap) : Prop := ∀ why, e ≠ .illegal why

/-- A step changes nothing, and it is refused as illegal only under a condition. -/
def Looks (refused : Prop) (step : Exec α) (m : Machine) : Prop :=
  (∃ a, step m = .ok a m) ∨ ∃ e, step m = .error e m ∧ (Legal e ∨ refused)

section Looks

variable {refused : Prop}

theorem Looks.bind {step : Exec α} {f : α → Exec β} (h : Looks refused step m)
    (hf : ∀ a, Looks refused (f a) m) : Looks refused (step >>= f) m := by
  rcases h with ⟨a, ha⟩ | ⟨e, he, hlegal⟩
  · unfold Looks
    rw [EStateM.bind_of_ok ha]
    exact hf a
  · exact Or.inr ⟨e, EStateM.bind_of_error he, hlegal⟩

theorem Looks.eq_of_ok {step : Exec α} {a : α} (h : Looks refused step m)
    (hstep : step m = .ok a m') : m' = m := by
  rcases h with ⟨b, hb⟩ | ⟨e, he, _⟩
  · cases hb.symm.trans hstep
    rfl
  · cases he.symm.trans hstep

theorem looks_registerIndex (n : Int) : Looks refused (registerIndex n) m := by
  unfold registerIndex
  split
  · exact Or.inl ⟨_, rfl⟩
  · exact Or.inr ⟨_, rfl, Or.inl fun _ h => by cases h⟩

theorem looks_getReg (r : Reg) : Looks refused (getReg r) m :=
  (looks_registerIndex r.number).bind fun _ => Or.inl ⟨_, rfl⟩

theorem looks_getXReg (r : XReg) : Looks refused (getXReg r) m :=
  (looks_registerIndex r.number).bind fun _ => Or.inl ⟨_, rfl⟩

theorem looks_address (a : Mem) : Looks refused (address a) m :=
  (looks_getReg a.base).bind fun _ => Or.inl ⟨_, rfl⟩

theorem looks_read (h : o.isReadable = false → refused) : Looks refused (read o) m := by
  cases o with
  | reg r => exact looks_getReg r
  | xreg r => exact looks_getXReg r
  | imm v => exact Or.inl ⟨_, rfl⟩
  | mem a =>
    refine (looks_address a).bind fun b => ?_
    split
    · exact Or.inl ⟨_, rfl⟩
    · exact Or.inr ⟨_, rfl, Or.inl fun _ h => by cases h⟩
  | fimm bits => exact Or.inr ⟨_, rfl, Or.inr (h rfl)⟩
  | absent => exact Or.inr ⟨_, rfl, Or.inr (h rfl)⟩

theorem looks_holds (c : Cond) : Looks refused (holds c) m := by
  have hget : (get : Exec Machine) m = .ok m m := rfl
  unfold Looks holds
  rw [EStateM.bind_of_ok hget]
  cases m.flags with
  | none => exact Or.inr ⟨_, rfl, Or.inl fun _ h => by cases h⟩
  | some f =>
    cases c with
    | other suffix => exact Or.inr ⟨_, rfl, Or.inl fun _ h => by cases h⟩
    | _ => exact Or.inl ⟨_, rfl⟩

theorem looks_check {isMove : Bool} (h : encodable dst src isMove = false → refused) :
    Looks refused (checkOperands dst src isMove) m := by
  cases henc : encodable dst src isMove with
  | true => exact Or.inl ⟨(), checkOperands_ok henc m⟩
  | false =>
    obtain ⟨why, hwhy, _⟩ := checkOperands_illegal henc m
    exact Or.inr ⟨_, hwhy, Or.inr (h henc)⟩

end Looks

def target? (m : Machine) : Operand → Option Cell
  | .reg r => (registerIndex? r.number).map .reg
  | .xreg r => (registerIndex? r.number).map .xreg
  | .mem a => (registerIndex? a.base.number).map fun i =>
      .word ((m.cell (.reg i)).toInt64 + a.offset.toInt64)
  | _ => none

/-- What a step may do: change some cells, change the flags, be refused as illegal, and trap when it
has changed something already. -/
structure Permit where
  cells : Set Cell
  flags : Prop
  illegal : Prop
  partly : Prop

/-- An outcome within a permit. -/
inductive Permit.Allows (p : Permit) (m : Machine) : EStateM.Result Trap Machine α → Prop where
  | done {a : α} {m' : Machine} (cells : ChangesOnly p.cells m m')
    (flags : m'.flags = m.flags ∨ p.flags) : Allows p m (.ok a m')
  | trap {e : Trap} {m' : Machine} (legal : Legal e ∨ p.illegal) (same : m' = m ∨ p.partly) :
    Allows p m (.error e m')

namespace Permit

variable {p : Permit}

theorem allows_self (a : α) : p.Allows m (.ok a m) := .done (.refl _ m) (Or.inl rfl)

theorem allows_throw {e : Trap} (h : Legal e ∨ p.illegal) : p.Allows m ((throw e : Exec α) m) :=
  .trap h (Or.inl rfl)

/-- A step that may be refused beforehand. -/
theorem Allows.unless {c : Prop} [Decidable c] {e : Trap} {f : β → Exec α} {step : Exec α}
    (he : c → Legal e ∨ p.illegal) (h : p.Allows m (step m)) :
    p.Allows m ((if c then throw e >>= f else step) m) := by
  split
  next hc => exact .trap (he hc) (Or.inl rfl)
  next => exact h

theorem of_looks {step : Exec α} {f : α → Exec β} (h : Looks p.illegal step m)
    (hf : ∀ a, p.Allows m (f a m)) : p.Allows m ((step >>= f) m) := by
  rcases h with ⟨a, ha⟩ | ⟨e, he, hlegal⟩
  · rw [EStateM.bind_of_ok ha]
    exact hf a
  · rw [EStateM.bind_of_error he]
    exact .trap hlegal (Or.inl rfl)

theorem allows_setCell {a : α} {c : Cell} (hc : c ∈ p.cells) (w : UInt64) :
    p.Allows m (.ok a (m.setCell c w)) :=
  .done ((ChangesOnly.refl _ m).setCell hc w) (Or.inl (flags_setCell m c w))

theorem allows_setReg {r : Reg} (h : ∀ c, m.target? (.reg r) = some c → c ∈ p.cells) (w : UInt64) :
    p.Allows m (setReg r w m) := by
  cases hi : registerIndex? r.number with
  | none =>
    simp only [setReg, registerIndex, hi]
    exact .trap (Or.inl fun _ h => by cases h) (Or.inl rfl)
  | some i =>
    rw [setReg_ok hi]
    exact allows_setCell (h _ (by rw [target?, hi]; rfl)) w

theorem allows_setXReg {r : XReg} (h : ∀ c, m.target? (.xreg r) = some c → c ∈ p.cells)
    (w : UInt64) : p.Allows m (setXReg r w m) := by
  cases hi : registerIndex? r.number with
  | none =>
    simp only [setXReg, registerIndex, hi]
    exact .trap (Or.inl fun _ h => by cases h) (Or.inl rfl)
  | some i =>
    rw [setXReg_ok hi]
    exact allows_setCell (h _ (by rw [target?, hi]; rfl)) w

theorem allows_write (ho : o.isPlace = false → p.illegal)
    (h : ∀ c, m.target? o = some c → c ∈ p.cells) (w : UInt64) : p.Allows m (write o w m) := by
  cases o with
  | reg r => exact allows_setReg h w
  | xreg r => exact allows_setXReg h w
  | mem a =>
    cases hi : registerIndex? a.base.number with
    | none =>
      simp only [write, address, getReg, registerIndex, hi]
      exact .trap (Or.inl fun _ h => by cases h) (Or.inl rfl)
    | some i =>
      have haddress : address a m =
          .ok ((m.cell (.reg i)).toInt64 + a.offset.toInt64) m := by
        rw [address, EStateM.bind_of_ok (getReg_ok hi m)]
        rfl
      rw [write, EStateM.bind_of_ok haddress]
      split
      · exact allows_setCell (h _ (by rw [target?, hi]; rfl)) w
      · exact allows_throw (Or.inl fun _ h => by cases h)
  | imm v => exact allows_throw (Or.inr (ho rfl))
  | fimm bits => exact allows_throw (Or.inr (ho rfl))
  | absent => exact allows_throw (Or.inr (ho rfl))

theorem allows_combine (f : UInt64 → UInt64 → UInt64)
    (h : encodable dst src false = false → p.illegal)
    (hdst : ∀ c, m.target? dst = some c → c ∈ p.cells) : p.Allows m (combine f dst src m) := by
  have hword (hno : dst.isWord = false) : p.illegal := h (not_encodable_of_isWord hno)
  apply of_looks (looks_check h)
  intro _
  apply of_looks (looks_read fun hno => hword (not_isWord_of_isReadable hno))
  intro a
  apply of_looks (looks_read fun hno => h (not_encodable_of_isReadable hno))
  intro b
  exact allows_write (fun hno => hword (not_isWord_of_isPlace hno)) hdst _

theorem allows_transfer (hmem : (dst.isMem && src.isMem) = true → p.illegal)
    (hsrc : src.isReadable = false → p.illegal) (hplace : dst.isPlace = false → p.illegal)
    (hdst : ∀ c, m.target? dst = some c → c ∈ p.cells) : p.Allows m (transfer dst src m) := by
  apply Allows.unless fun hboth => Or.inr (hmem hboth)
  apply of_looks (looks_read hsrc)
  intro w
  exact allows_write hplace hdst w

theorem allows_compare {l r : Operand} (h : encodable l r false = false → p.illegal)
    (hflags : p.flags) : p.Allows m (compare l r m) := by
  have hword (hno : l.isWord = false) : p.illegal := h (not_encodable_of_isWord hno)
  apply Allows.unless fun himm => Or.inr (hword (not_isWord_of_isImm himm))
  apply of_looks (looks_check h)
  intro _
  apply of_looks (looks_read fun hno => hword (not_isWord_of_isReadable hno))
  intro a
  apply of_looks (looks_read fun hno => h (not_encodable_of_isReadable hno))
  intro b
  exact .done ((ChangesOnly.refl _ m).setFlags _) (Or.inr hflags)

/-- Both registers exist, so that nothing goes wrong between the two changes. -/
theorem allows_setResults (hrax : Cell.rax ∈ p.cells) (hrdx : Cell.rdx ∈ p.cells) (v w : UInt64) :
    p.Allows m ((do setReg .rax v; setReg .rdx w : Exec Unit) m) := by
  rw [EStateM.bind_of_ok (setReg_ok (r := .rax) rfl v m), setReg_ok (r := .rdx) rfl]
  refine .done (((ChangesOnly.refl _ m).setCell hrax v).setCell hrdx w) (Or.inl ?_)
  rw [flags_setCell, flags_setCell]

theorem allows_divide (h : src.isWord = false → p.illegal)
    (hrax : Cell.rax ∈ p.cells) (hrdx : Cell.rdx ∈ p.cells) : p.Allows m (divide src m) := by
  apply Allows.unless fun himm => Or.inr (h (not_isWord_of_isImm himm))
  apply of_looks (looks_read fun hno => h (not_isWord_of_isReadable hno))
  intro d
  apply Allows.unless fun _ => Or.inl fun _ he => by cases he
  apply of_looks (looks_getReg .rax)
  intro n
  apply of_looks (looks_getReg .rdx)
  intro sign
  apply Allows.unless fun _ => Or.inl fun _ he => by cases he
  exact allows_setResults hrax hrdx _ _

theorem allows_floatOperands {r : XReg} {f : UInt64 → UInt64 → Exec α}
    (h : isFloatSource src = false → p.illegal) (hf : ∀ a b, p.Allows m (f a b m)) :
    p.Allows m ((do let b ← read src; let a ← getXReg r; f a b : Exec α) m) := by
  apply of_looks (looks_read fun hno => h (not_isFloatSource_of_isReadable hno))
  intro b
  apply of_looks (looks_getXReg r)
  intro a
  exact hf a b

theorem allows_floatCombine {op : FloatOp} {r : XReg} (h : isFloatSource src = false → p.illegal)
    (hr : ∀ c, m.target? (.xreg r) = some c → c ∈ p.cells) :
    p.Allows m (floatCombine op r src m) := by
  apply Allows.unless fun hno => Or.inr (h (Bool.not_eq_true' _ ▸ hno))
  apply allows_floatOperands h
  intro a b
  cases floatFunction? op with
  | some f => exact allows_setXReg hr _
  | none => exact allows_throw (Or.inl fun _ he => by cases he)

theorem allows_floatCompare {pred : Predicate} {r : XReg}
    (h : isFloatSource src = false → p.illegal)
    (hr : ∀ c, m.target? (.xreg r) = some c → c ∈ p.cells) :
    p.Allows m (floatCompare r src pred m) := by
  apply Allows.unless fun hno => Or.inr (h (Bool.not_eq_true' _ ▸ hno))
  apply allows_floatOperands h
  intro a b
  cases relation? pred with
  | some rel => exact allows_setXReg hr _
  | none => exact allows_throw (Or.inl fun _ he => by cases he)

theorem allows_neg (h : dst.isPlace = false → p.illegal)
    (hdst : ∀ c, m.target? dst = some c → c ∈ p.cells) : p.Allows m (execute (.neg dst) m) := by
  apply of_looks (looks_read fun hno => h (not_isPlace_of_isReadable hno))
  intro a
  exact allows_write h hdst _

theorem allows_push {r : Reg} (hrsp : Cell.rsp ∈ p.cells)
    (hword : Cell.word (m.cell .rsp - 8).toInt64 ∈ p.cells) : p.Allows m (execute (.push r) m) := by
  cases hi : registerIndex? r.number with
  | none =>
    simp only [execute, getReg, registerIndex, hi]
    exact .trap (Or.inl fun _ h => by cases h) (Or.inl rfl)
  | some i =>
    rw [execute_push hi]
    refine .done (((ChangesOnly.refl _ m).setCell hrsp _).setCell hword _) (Or.inl ?_)
    rw [flags_setCell, flags_setCell]

/-- The stack pointer moves before the destination is looked at. -/
theorem allows_pop {r : Reg} (hpartly : registerIndex? r.number = none → p.partly)
    (hrsp : Cell.rsp ∈ p.cells) (hr : ∀ c, m.target? (.reg r) = some c → c ∈ p.cells) :
    p.Allows m (execute (.pop r) m) := by
  cases hi : registerIndex? r.number with
  | none =>
    rw [execute, EStateM.bind_of_ok (pop_ok m)]
    simp only [setReg, registerIndex, hi]
    exact .trap (Or.inl fun _ h => by cases h) (Or.inr (hpartly hi))
  | some i =>
    rw [execute_pop hi]
    have hcell := hr _ (by rw [target?, hi]; rfl)
    refine .done (((ChangesOnly.refl _ m).setCell hrsp _).setCell hcell _) (Or.inl ?_)
    rw [flags_setCell, flags_setCell]

end Permit

end Machine

open Machine Permit

def Instr.permit (x : Instr) (m : Machine) : Permit where
  cells := {c | ∃ o ∈ x.written, m.target? o = some c}
  flags := x.isCompare = true
  illegal := x.encodable = false ∨ x.redirects = true
  partly := ¬ x.RegistersExist

namespace Machine

variable {code : Code} {pc : Int} {s : Set Cell} {m m' : Machine} {x : Instr}

/-- No instruction does more than it may. -/
theorem execute_allowed (x : Instr) (m : Machine) : (x.permit m).Allows m (execute x m) := by
  have hcells {o : Operand} (ho : o ∈ x.written) (c : Cell) (hc : m.target? o = some c) :
      c ∈ (x.permit m).cells := ⟨o, ho, hc⟩
  cases x with
  | text => exact allows_self ()
  | global name => exact allows_self ()
  | label name => exact allows_self ()
  | mov dst src =>
    apply of_looks (looks_check Or.inl)
    intro _
    apply of_looks (looks_read fun hno => Or.inl (not_encodable_of_isReadable hno))
    intro w
    refine allows_write (fun hno => Or.inl ?_) (hcells List.mem_cons_self) w
    exact not_encodable_of_isWord (not_isWord_of_isPlace hno)
  | movsd dst src =>
    apply Allows.unless fun hnone => Or.inr (Or.inl (not_encodable_movsd (Or.inl hnone)))
    exact allows_transfer (fun h => Or.inl (not_encodable_movsd (Or.inr (Or.inl h))))
      (fun h => Or.inl (not_encodable_movsd (Or.inr (Or.inr (Or.inl h)))))
      (fun h => Or.inl (not_encodable_movsd (Or.inr (Or.inr (Or.inr h)))))
      (hcells List.mem_cons_self)
  | movq dst src =>
    apply Allows.unless fun hone => Or.inr (Or.inl (not_encodable_movq (Or.inl hone)))
    exact allows_transfer (fun h => Or.inl (not_encodable_movq (Or.inr (Or.inl h))))
      (fun h => Or.inl (not_encodable_movq (Or.inr (Or.inr (Or.inl h)))))
      (fun h => Or.inl (not_encodable_movq (Or.inr (Or.inr (Or.inr h)))))
      (hcells List.mem_cons_self)
  | add dst src => exact allows_combine _ Or.inl (hcells List.mem_cons_self)
  | sub dst src => exact allows_combine _ Or.inl (hcells List.mem_cons_self)
  | and dst src => exact allows_combine _ Or.inl (hcells List.mem_cons_self)
  | imul dst src =>
    apply of_looks (looks_check Or.inl)
    intro _
    apply of_looks (looks_read fun hno => Or.inl (not_encodable_of_isReadable hno))
    intro b
    apply of_looks (looks_getReg dst)
    intro a
    exact allows_setReg (hcells List.mem_cons_self) _
  | imul3 dst src factor =>
    have hword (hno : src.isWord = false) : ((Instr.imul3 dst src factor).permit m).illegal :=
      Or.inl (by rw [Instr.encodable, hno, Bool.false_and])
    have hwide (hno : (!fitsImm32 factor) = true) :
        ((Instr.imul3 dst src factor).permit m).illegal :=
      Or.inl (by rw [Instr.encodable, Bool.eq_false_of_not_eq_true' hno, Bool.and_false])
    apply Allows.unless fun himm => Or.inr (hword (not_isWord_of_isImm himm))
    apply Allows.unless fun hno => Or.inr (hwide hno)
    apply of_looks (looks_read fun hno => hword (not_isWord_of_isReadable hno))
    intro b
    exact allows_setReg (hcells List.mem_cons_self) _
  | cqo =>
    apply of_looks (looks_getReg .rax)
    intro a
    exact allows_setReg (hcells List.mem_cons_self) _
  | idiv src =>
    exact allows_divide Or.inl (hcells List.mem_cons_self _ rfl)
      (hcells (List.mem_cons_of_mem _ List.mem_cons_self) _ rfl)
  | neg dst =>
    exact allows_neg (fun hno => Or.inl (not_isWord_of_isPlace hno)) (hcells List.mem_cons_self)
  | cmp l r => exact allows_compare Or.inl rfl
  | set cond dst =>
    apply of_looks (looks_holds cond)
    intro b
    apply of_looks (looks_read fun hno => Or.inl (not_isWord_of_isReadable hno))
    intro w
    exact allows_write (fun hno => Or.inl (not_isWord_of_isPlace hno)) (hcells List.mem_cons_self) _
  | farith op r src => exact allows_floatCombine Or.inl (hcells List.mem_cons_self)
  | cmpsd r src pred => exact allows_floatCompare Or.inl (hcells List.mem_cons_self)
  | push r =>
    refine allows_push (hcells List.mem_cons_self _ rfl) ?_
    refine hcells (List.mem_cons_of_mem _ List.mem_cons_self) _ ?_
    have haddress : (m.cell .rsp - 8).toInt64 = (m.cell .rsp).toInt64 + Int32.toInt64 (-8) := by
      rw [UInt64.toInt64_sub, Int64.sub_eq_add_neg]
      rfl
    rw [haddress]
    rfl
  | pop r =>
    refine allows_pop (fun hnone hexist => ?_) (hcells List.mem_cons_self _ rfl)
      (hcells (List.mem_cons_of_mem _ List.mem_cons_self))
    obtain ⟨i, hi⟩ := exists_registerIndex (hexist r.number (List.mem_singleton.2 rfl))
    cases hnone.symm.trans hi
  | jmp target => exact allows_throw (Or.inr (Or.inr rfl))
  | jcc cond target => exact allows_throw (Or.inr (Or.inr rfl))
  | ret => exact allows_throw (Or.inr (Or.inr rfl))
  | absent => exact allows_throw (Or.inr (Or.inl rfl))

/-- An instruction that leaves the stack alone changes only what it writes. -/
theorem changesOnly_of_execute (hw : x.Writes fun o => ∀ c, m.target? o = some c → c ∈ s)
    (h : execute x m = .ok () m') : ChangesOnly s m m' := by
  have hallowed := execute_allowed x m
  rw [h] at hallowed
  cases hallowed with
  | done hcells =>
    apply hcells.mono
    rintro c ⟨o, ho, hc⟩
    exact hw.written o ho c hc

/-- No instruction but an integer comparison changes the flags. -/
theorem flags_of_execute (hx : x.isCompare = false) (h : execute x m = .ok () m') :
    m'.flags = m.flags := by
  have hallowed := execute_allowed x m
  rw [h] at hallowed
  cases hallowed with
  | done _ hflags => exact hflags.resolve_right fun hcompare => by cases hx.symm.trans hcompare

/-- An instruction that traps has no effect. -/
theorem execute_error {e : Trap} (hx : x.RegistersExist) (h : execute x m = .error e m') :
    m' = m := by
  have hallowed := execute_allowed x m
  rw [h] at hallowed
  cases hallowed with
  | trap _ hsame => exact hsame.resolve_right fun hpartly => hpartly hx

-- without the register, the stack pointer moves all the same
example : ∃ m', execute (.pop ⟨16⟩) {} = .error (.fault (.index 16 16)) m' ∧ m'.cell .rsp = 8 :=
  ⟨_, rfl, rfl⟩

def isIllegal : RunError → Bool
  | .trap _ _ (.illegal _) => true
  | _ => false

theorem isIllegal_ofTrap {e : Trap} (h : Legal e) (pc : Int) (x : Instr) :
    isIllegal (RunError.ofTrap pc x e) = false := by
  cases e with
  | illegal why => exact absurd rfl (h why)
  | _ => rfl

variable {α : Type} {e : RunError}

theorem of_attempt_ok {step : Exec α} {a : α} (h : attempt pc x step m = .ok a m') :
    step m = .ok a m' := by
  unfold attempt at h
  cases hstep : step m with
  | ok b m₁ =>
    rw [hstep] at h
    cases h
    rfl
  | error why m₁ =>
    rw [hstep] at h
    cases h

theorem of_attempt_error {step : Exec α} (h : attempt pc x step m = .error e m') :
    ∃ why, step m = .error why m' ∧ e = RunError.ofTrap pc x why := by
  unfold attempt at h
  cases hstep : step m with
  | ok b m₁ =>
    rw [hstep] at h
    cases h
  | error why m₁ =>
    rw [hstep] at h
    cases h
    exact ⟨why, rfl, rfl⟩

theorem Permit.Allows.of_attempt {p : Permit} {step : Exec α} (h : p.Allows m (step m))
    (herror : attempt pc x step m = .error e m') :
    (isIllegal e = false ∨ p.illegal) ∧ (m' = m ∨ p.partly) := by
  obtain ⟨why, hstep, rfl⟩ := of_attempt_error herror
  rw [hstep] at h
  cases h with
  | trap hlegal hsame => exact ⟨hlegal.imp_left fun hlegal => isIllegal_ofTrap hlegal pc x, hsame⟩

theorem jump_error {target : String} (h : jump code x target m = .error e m') :
    isIllegal e = false ∧ m' = m := by
  cases hlabel : code.labels[target]? with
  | none =>
    simp only [jump, hlabel] at h
    cases h
    exact ⟨rfl, rfl⟩
  | some i =>
    simp only [jump, hlabel] at h
    cases h

/-- Jumps, returns and all other instructions end a run only within what they may do, and those
that can be encoded never as illegal ones. -/
theorem advance_error (h : advance code pc x m = .error e m') :
    (isIllegal e = false ∨ x.encodable = false) ∧ (m' = m ∨ ¬ x.RegistersExist) := by
  have hplain (hstep : advance code pc x = do attempt pc x (execute x); return .at (pc + 1))
      (hx : x.redirects = false) :
      (isIllegal e = false ∨ x.encodable = false) ∧ (m' = m ∨ ¬ x.RegistersExist) := by
    rw [hstep] at h
    rcases EStateM.of_bind_error h with htrap | ⟨_, m₁, _, hend⟩
    · obtain ⟨hlegal, hsame⟩ := (execute_allowed x m).of_attempt htrap
      refine ⟨hlegal.imp_right fun hillegal => hillegal.resolve_right fun hredirects => ?_, hsame⟩
      cases hx.symm.trans hredirects
    · cases hend
  cases x with
  | ret =>
    rcases EStateM.of_bind_error h with htrap | ⟨w, m₁, _, hend⟩
    · rw [attempt, pop_ok] at htrap
      cases htrap
    · split at hend <;> cases hend
  | jmp target => exact ⟨Or.inl (jump_error h).1, Or.inl (jump_error h).2⟩
  | jcc cond target =>
    have hlooks : Looks False (holds cond) m := looks_holds cond
    rcases EStateM.of_bind_error h with htrap | ⟨taken, m₁, hheld, hend⟩
    · obtain ⟨why, hwhy, rfl⟩ := of_attempt_error htrap
      rcases hlooks with ⟨taken, htaken⟩ | ⟨_, hstep, hlegal⟩
      · cases htaken.symm.trans hwhy
      · cases hstep.symm.trans hwhy
        exact ⟨Or.inl (isIllegal_ofTrap (hlegal.resolve_right id) pc _), Or.inl rfl⟩
    · obtain rfl := hlooks.eq_of_ok (of_attempt_ok hheld)
      split at hend
      · exact ⟨Or.inl (jump_error hend).1, Or.inl (jump_error hend).2⟩
      · cases hend
  | _ => exact hplain rfl rfl

theorem isIllegal_advance (hx : x.encodable = true) (h : advance code pc x m = .error e m') :
    isIllegal e = false :=
  (advance_error h).1.resolve_right fun hno => by cases hx.symm.trans hno

end Machine

end ExprBackend
