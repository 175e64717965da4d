import ExprBackend.Proofs.Confinement
import ExprBackend.Proofs.Parameters

/-!
# Orderly code

The code of a function is made of a few patterns. Flags are only used right behind the comparison
that sets them, a dividend gets its sign before it is divided, and a condition jumps to labels
behind it. Whatever the types of its operands, an instruction of such code completes or is refused,
and nothing else can happen to it.
-/

namespace ExprBackend

open Machine

/-- The operand can be reached in every frame: its register exists, or its word stands at a multiple
of eight from the frame pointer. -/
def Operand.isSound : Operand → Bool
  | .reg r => (registerIndex? r.number).isSome
  | .xreg r => (registerIndex? r.number).isSome
  | .mem a => decide (a.base = .rbp ∧ 8 ∣ a.offset.toInt)
  | _ => true

/-- Instructions on operands that can be reached, which do not depend on what comes before them. -/
def Instr.isSteady : Instr → Bool
  | .mov dst src | .movsd dst src | .movq dst src | .add dst src | .sub dst src | .and dst src =>
    dst.isSound && src.isSound
  | .imul dst src | .imul3 dst src _ => (Operand.reg dst).isSound && src.isSound
  | .neg dst => dst.isSound
  | .cqo => true
  | .farith op dst src =>
    (floatFunction? op).isSome && (Operand.xreg dst).isSound && src.isSound
  | .cmpsd dst src pred => (relation? pred).isSome && (Operand.xreg dst).isSound && src.isSound
  | _ => false

/-- An instruction does not take its operands, or it divides by 0. -/
def Trap.isRefusal : Trap → Bool
  | .illegal (.unsupported _) => false
  | .illegal _ | .divisionByZero => true
  | _ => false

theorem Trap.isRefusal_illegal {why : Illegal} (h : ∀ x, why ≠ .unsupported x) :
    (Trap.illegal why).isRefusal = true := by
  cases why with
  | unsupported x => exact absurd rfl (h x)
  | _ => rfl

theorem Operand.isSound_slot {offset : Int} (h : 8 ∣ offset) :
    (Operand.mem (.slot offset)).isSound = true := by
  have hmod : offset.bmod Int32.size % 8 = offset % 8 := by
    rw [← Int.emod_emod_of_dvd _ (show (8 : Int) ∣ (Int32.size : Int) by decide), Int.bmod_emod,
      Int.emod_emod_of_dvd _ (by decide)]
  have hoffset : 8 ∣ offset.bmod Int32.size := by omega
  simpa [isSound, Mem.slot] using hoffset

namespace Machine

variable {α β : Type} {m : Machine} {o l r : Operand}

theorem exists_cell (h : o.isSound = true) (hplace : o.isPlace = true)
    (hbase : aligned m.base = true) : ∃ c, o.cell? m.base = some c := by
  cases o with
  | reg r =>
    obtain ⟨i, hi⟩ := Option.isSome_iff_exists.1 h
    exact ⟨.reg i, by rw [Operand.cell?, hi]; rfl⟩
  | xreg r =>
    obtain ⟨i, hi⟩ := Option.isSome_iff_exists.1 h
    exact ⟨.xreg i, by rw [Operand.cell?, hi]; rfl⟩
  | mem a =>
    obtain ⟨hrbp, hoffset⟩ := of_decide_eq_true h
    have hslot : a = .slot a.offset.toInt := by
      rw [Mem.slot, Int32.ofInt_toInt, ← hrbp]
    have hframe : InFrame a.offset.toInt :=
      ⟨Int32.le_toInt a.offset, Int32.toInt_lt a.offset, hoffset⟩
    rw [hslot]
    exact ⟨_, cell?_slot hbase hframe⟩
  | imm v => cases hplace
  | fimm bits => cases hplace
  | absent => cases hplace

/-- A step changes nothing, and if it traps the instruction is refused. -/
def Answers (step : Exec α) (m : Machine) : Prop :=
  (∃ a, step m = .ok a m) ∨ ∃ e m', step m = .error e m' ∧ e.isRefusal = true

theorem answers_checkOperands (dst src : Operand) (isMove : Bool) :
    Answers (checkOperands dst src isMove) m := by
  cases henc : encodable dst src isMove with
  | true => exact Or.inl ⟨(), checkOperands_ok henc m⟩
  | false =>
    obtain ⟨why, hwhy, hknown⟩ := checkOperands_illegal henc m
    exact Or.inr ⟨_, m, hwhy, Trap.isRefusal_illegal hknown⟩

theorem answers_read (h : o.isSound = true) (hbase : aligned m.base = true) :
    Answers (read o) m := by
  cases hplace : o.isPlace with
  | true =>
    obtain ⟨c, hc⟩ := exists_cell h hplace hbase
    exact Or.inl ⟨_, read_ok hc⟩
  | false =>
    cases o with
    | imm v => exact Or.inl ⟨_, rfl⟩
    | fimm bits => exact Or.inr ⟨_, m, rfl, rfl⟩
    | absent => exact Or.inr ⟨_, m, rfl, rfl⟩
    | _ => cases hplace

theorem answers_getReg {q : Reg} (h : (Operand.reg q).isSound = true) : Answers (getReg q) m := by
  obtain ⟨i, hi⟩ := Option.isSome_iff_exists.1 h
  exact Or.inl ⟨_, getReg_ok hi m⟩

theorem answers_getXReg {q : XReg} (h : (Operand.xreg q).isSound = true) :
    Answers (getXReg q) m := by
  obtain ⟨i, hi⟩ := Option.isSome_iff_exists.1 h
  exact Or.inl ⟨_, getXReg_ok hi m⟩

/-- A step completes with a property, or the instruction is refused. -/
def Settles (P : Machine → Prop) (r : EStateM.Result Trap Machine α) : Prop :=
  (∃ a m', r = .ok a m' ∧ P m') ∨ ∃ e m', r = .error e m' ∧ e.isRefusal = true

variable {P Q : Machine → Prop}

theorem Answers.settles {step : Exec α} {f : α → Exec β} (h : Answers step m)
    (hf : ∀ a, Settles P (f a m)) : Settles P ((step >>= f) m) := by
  rcases h with ⟨a, ha⟩ | ⟨e, m', he, hrefusal⟩
  · rw [EStateM.bind_of_ok ha]
    exact hf a
  · exact Or.inr ⟨e, m', EStateM.bind_of_error he, hrefusal⟩

theorem settles_throw {e : Trap} (h : e.isRefusal = true) :
    Settles P ((throw e : Exec α) m) := Or.inr ⟨e, m, rfl, h⟩

/-- A step that may be refused beforehand. -/
theorem Settles.unless {c : Prop} [Decidable c] {e : Trap} {f : β → Exec α} {step : Exec α}
    (h : Settles P (step m)) (he : e.isRefusal = true) :
    Settles P ((if c then throw e >>= f else step) m) := by
  split
  · exact Or.inr ⟨e, m, rfl, he⟩
  · exact h

def SameFlags (m m' : Machine) : Prop := m'.flags = m.flags

theorem settles_write (h : o.isSound = true) (hbase : aligned m.base = true) (w : UInt64) :
    Settles (SameFlags m) (write o w m) := by
  cases hplace : o.isPlace with
  | true =>
    obtain ⟨c, hc⟩ := exists_cell h hplace hbase
    exact Or.inl ⟨(), _, write_ok hc w, flags_setCell m c w⟩
  | false =>
    cases o with
    | imm v => exact settles_throw rfl
    | fimm bits => exact settles_throw rfl
    | absent => exact settles_throw rfl
    | _ => cases hplace

theorem settles_setReg {q : Reg} (h : (Operand.reg q).isSound = true) (w : UInt64) :
    Settles (SameFlags m) (setReg q w m) := by
  obtain ⟨i, hi⟩ := Option.isSome_iff_exists.1 h
  exact Or.inl ⟨(), _, setReg_ok hi w m, flags_setCell m (.reg i) w⟩

theorem settles_setXReg {q : XReg} (h : (Operand.xreg q).isSound = true) (w : UInt64) :
    Settles (SameFlags m) (setXReg q w m) := by
  obtain ⟨i, hi⟩ := Option.isSome_iff_exists.1 h
  exact Or.inl ⟨(), _, setXReg_ok hi w m, flags_setCell m (.xreg i) w⟩

/-- The upper half of the dividend is its sign. -/
def Signed (m : Machine) : Prop := m.cell .rdx = signWord (m.cell .rax)

theorem settles_cqo : Settles Signed (execute .cqo m) := by
  refine Or.inl ⟨(), _, execute_cqo, ?_⟩
  rw [Signed, cell_setCell_self, cell_setCell_of_ne _ (by decide)]

theorem settles_mov_scratch (hsign : m.Signed) (ho : o.isImm = true) :
    Settles Signed (execute (.mov Codegen.scratch o) m) := by
  cases o with
  | imm v =>
    have hmov : execute (.mov Codegen.scratch (.imm v)) m =
        .ok () (m.setCell .scratch v.toUInt64) :=
      execute_mov (by simp [encodable, Codegen.scratch]) rfl rfl
    refine Or.inl ⟨(), _, hmov, ?_⟩
    rw [Signed, cell_setCell_of_ne _ (by decide), cell_setCell_of_ne _ (by decide)]
    exact hsign
  | fimm bits => exact Or.inr ⟨_, m, rfl, rfl⟩
  | _ => cases ho

section Execute

variable (hbase : aligned m.base = true)
include hbase

theorem settles_combine (f : UInt64 → UInt64 → UInt64) (hl : l.isSound = true)
    (hr : r.isSound = true) : Settles (SameFlags m) (combine f l r m) := by
  apply (answers_checkOperands l r false).settles
  intro _
  apply (answers_read hl hbase).settles
  intro a
  apply (answers_read hr hbase).settles
  intro b
  exact settles_write hl hbase _

theorem settles_transfer (hl : l.isSound = true) (hr : r.isSound = true) :
    Settles (SameFlags m) (transfer l r m) := by
  refine Settles.unless ?_ rfl
  apply (answers_read hr hbase).settles
  intro a
  exact settles_write hl hbase _

theorem settles_floatCombine {op : FloatOp} {q : XReg} (hop : (floatFunction? op).isSome = true)
    (hq : (Operand.xreg q).isSound = true) (hr : r.isSound = true) :
    Settles (SameFlags m) (floatCombine op q r m) := by
  refine Settles.unless ?_ rfl
  apply (answers_read hr hbase).settles
  intro b
  apply (answers_getXReg hq).settles
  intro a
  cases hf : floatFunction? op with
  | some f => exact settles_setXReg hq _
  | none =>
    rw [hf] at hop
    cases hop

theorem settles_floatCompare {pred : Predicate} {q : XReg}
    (hpred : (relation? pred).isSome = true) (hq : (Operand.xreg q).isSound = true)
    (hr : r.isSound = true) : Settles (SameFlags m) (floatCompare q r pred m) := by
  refine Settles.unless ?_ rfl
  apply (answers_read hr hbase).settles
  intro b
  apply (answers_getXReg hq).settles
  intro a
  cases hrel : relation? pred with
  | some rel => exact settles_setXReg hq _
  | none =>
    rw [hrel] at hpred
    cases hpred

theorem settles_steady {x : Instr} (hx : x.isSteady = true) :
    Settles (SameFlags m) (execute x m) := by
  cases x with
  | mov dst src =>
    obtain ⟨hl, hr⟩ := Bool.and_eq_true_iff.1 hx
    apply (answers_checkOperands dst src true).settles
    intro _
    apply (answers_read hr hbase).settles
    intro b
    exact settles_write hl hbase b
  | movsd dst src =>
    obtain ⟨hl, hr⟩ := Bool.and_eq_true_iff.1 hx
    exact Settles.unless (settles_transfer hbase hl hr) rfl
  | movq dst src =>
    obtain ⟨hl, hr⟩ := Bool.and_eq_true_iff.1 hx
    exact Settles.unless (settles_transfer hbase hl hr) rfl
  | add dst src =>
    obtain ⟨hl, hr⟩ := Bool.and_eq_true_iff.1 hx
    exact settles_combine hbase _ hl hr
  | sub dst src =>
    obtain ⟨hl, hr⟩ := Bool.and_eq_true_iff.1 hx
    exact settles_combine hbase _ hl hr
  | and dst src =>
    obtain ⟨hl, hr⟩ := Bool.and_eq_true_iff.1 hx
    exact settles_combine hbase _ hl hr
  | imul q src =>
    obtain ⟨hq, hr⟩ := Bool.and_eq_true_iff.1 hx
    apply (answers_checkOperands (.reg q) src false).settles
    intro _
    apply (answers_read hr hbase).settles
    intro b
    apply (answers_getReg hq).settles
    intro a
    exact settles_setReg hq _
  | imul3 q src factor =>
    obtain ⟨hq, hr⟩ := Bool.and_eq_true_iff.1 hx
    refine Settles.unless ?_ rfl
    refine Settles.unless ?_ rfl
    apply (answers_read hr hbase).settles
    intro b
    exact settles_setReg hq _
  | cqo => exact Or.inl ⟨(), _, execute_cqo, flags_setCell _ _ _⟩
  | neg dst =>
    apply (answers_read hx hbase).settles
    intro a
    exact settles_write hx hbase _
  | farith op q src =>
    obtain ⟨hq, hr⟩ := Bool.and_eq_true_iff.1 hx
    obtain ⟨hop, hq⟩ := Bool.and_eq_true_iff.1 hq
    exact settles_floatCombine hbase hop hq hr
  | cmpsd q src pred =>
    obtain ⟨hq, hr⟩ := Bool.and_eq_true_iff.1 hx
    obtain ⟨hpred, hq⟩ := Bool.and_eq_true_iff.1 hq
    exact settles_floatCompare hbase hpred hq hr
  | _ => cases hx

/-- A comparison sets the flags. -/
theorem settles_cmp (hl : l.isSound = true) (hr : r.isSound = true) :
    Settles (fun m' => ∃ f, m'.flags = some f) (execute (.cmp l r) m) := by
  refine Settles.unless ?_ rfl
  apply (answers_checkOperands l r false).settles
  intro _
  apply (answers_read hl hbase).settles
  intro a
  apply (answers_read hr hbase).settles
  intro b
  exact Or.inl ⟨(), _, rfl, _, rfl⟩

theorem settles_set {cond : Cond} {f : Flags} {t : Bool} (hf : m.flags = some f)
    (ht : cond.test? f = some t) (ho : o.isSound = true) :
    Settles (SameFlags m) (execute (.set cond o) m) := by
  have hholds : Answers (holds cond) m := Or.inl ⟨t, holds_ok hf ht⟩
  apply hholds.settles
  intro b
  apply (answers_read ho hbase).settles
  intro w
  exact settles_write ho hbase _

/-- A dividend with its sign can be divided. -/
theorem settles_idiv (hsign : m.Signed) (ho : o.isSound = true) :
    Settles (fun _ => True) (execute (.idiv o) m) := by
  cases hplace : o.isPlace with
  | true =>
    have himm : o.isImm = false := by
      cases o <;> first | rfl | cases hplace
    obtain ⟨d, hd⟩ := exists_cell ho hplace hbase
    by_cases hzero : (m.cell d).toInt64 = 0
    · exact Or.inr ⟨_, m, execute_idiv_zero himm hd hzero, rfl⟩
    · exact Or.inl ⟨(), _, execute_idiv himm hd hzero hsign, trivial⟩
  | false =>
    cases o with
    | imm v => exact settles_throw rfl
    | fimm bits => exact settles_throw rfl
    | absent => exact settles_throw rfl
    | _ => cases hplace

end Execute

end Machine

open Codegen

/-- Code of the patterns that statements are made of. -/
inductive Orderly : List Instr → Prop where
  | nil : Orderly []
  | steady {x : Instr} {xs : List Instr} (hx : x.isSteady = true) (h : Orderly xs) :
    Orderly (x :: xs)
  | compare {l r d : Operand} {cond : Cond} {xs : List Instr} (hl : l.isSound = true)
    (hr : r.isSound = true) (hd : d.isSound = true) (hcond : ∀ f, ∃ t, cond.test? f = some t)
    (h : Orderly xs) : Orderly (.cmp l r :: (setCond cond d ++ xs))
  | divide {r : Operand} {xs : List Instr} (hr : r.isSound = true) (h : Orderly xs) :
    Orderly (.cqo :: ((unimm r).1 ++ .idiv (unimm r).2 :: xs))
  | branch {c : Operand} {onFalse behind : String} {first second xs : List Instr}
    (hc : c.isSound = true) (hfirst : Orderly first) (hsecond : Orderly second) (h : Orderly xs) :
    Orderly (.cmp c (.imm 0) :: .jcc .e onFalse ::
      (first ++ .jmp behind :: .label onFalse :: (second ++ .label behind :: xs)))

theorem Orderly.append {xs ys : List Instr} (hxs : Orderly xs) (hys : Orderly ys) :
    Orderly (xs ++ ys) := by
  induction hxs with
  | nil => exact hys
  | steady hx _ ih => exact .steady hx ih
  | compare hl hr hd hcond _ ih =>
    rw [List.cons_append, List.append_assoc]
    exact .compare hl hr hd hcond ih
  | divide hr _ ih =>
    rw [List.cons_append, List.append_assoc, List.cons_append]
    exact .divide hr ih
  | branch hc hfirst hsecond _ _ _ ih =>
    simp only [List.cons_append, List.append_assoc]
    exact .branch hc hfirst hsecond ih

theorem Orderly.of_steady {xs : List Instr} (h : ∀ x ∈ xs, x.isSteady = true) : Orderly xs := by
  induction xs with
  | nil => exact .nil
  | cons x xs ih =>
    obtain ⟨hx, hxs⟩ := List.forall_mem_cons.1 h
    exact .steady hx (ih hxs)

namespace Codegen

section Operations

variable {l r x dst src : Operand} {code : List Instr}

theorem steady_unimm (hx : x.isSound = true) :
    (∀ y ∈ (unimm x).1, y.isSteady = true) ∧ (unimm x).2.isSound = true := by
  have hscratch : scratch.isSound = true := rfl
  unfold unimm
  split_ifs <;> simp [Instr.isSteady, hx, hscratch]

theorem steady_narrow (hx : x.isSound = true) :
    (∀ y ∈ (narrow x).1, y.isSteady = true) ∧ (narrow x).2.isSound = true := by
  have hbackup : backup.isSound = true := rfl
  unfold narrow
  split
  · split_ifs <;> simp [Instr.isSteady, hx, hbackup]
  · simp [hx]

theorem steady_transfer (hdst : dst.isSound = true) (hsrc : src.isSound = true) :
    ∀ y ∈ transfer dst src, y.isSteady = true := by
  have hbackup : backup.isSound = true := rfl
  unfold transfer
  split_ifs <;> simp [Instr.isSteady, hdst, hsrc, hbackup]

theorem steady_move (hdst : dst.isSound = true) (hsrc : src.isSound = true)
    (h : move dst src = .ok code) : ∀ y ∈ code, y.isSteady = true := by
  have hbackup : backup.isSound = true := rfl
  have himm (v : Int64) : (Operand.imm v).isSound = true := rfl
  unfold move at h
  split at h
  · cases h
    exact List.forall_mem_nil _
  · split at h
    · cases h
      refine List.forall_mem_cons.2 ⟨rfl, ?_⟩
      split_ifs
      · exact List.forall_mem_nil _
      · exact steady_transfer hdst hbackup
    · split at h
      · cases h
        simp [Instr.isSteady, hdst, himm]
      · split at h <;> cases h <;> simp [Instr.isSteady, hdst, himm, hbackup]
      · cases h
    · cases h
      exact steady_transfer hdst hsrc

theorem orderly_move (hdst : dst.isSound = true) (hsrc : src.isSound = true)
    (h : move dst src = .ok code) : Orderly code := .of_steady (steady_move hdst hsrc h)

theorem orderly_viaScratch {op : Operand → Operand → Instr}
    (hop : ∀ x : Operand, x.isSound = true → (op scratch x).isSteady = true)
    (hl : l.isSound = true) (hr : r.isSound = true) (hdst : dst.isSound = true)
    (h : viaScratch op l r dst = .ok code) : Orderly code := by
  obtain ⟨rest, hmove, rfl⟩ := viaScratch_eq_ok h
  obtain ⟨hbefore, hnarrow⟩ := steady_narrow hr
  have hfirst : (Instr.mov scratch l).isSteady = true := hl
  exact .steady hfirst (.append (.of_steady hbefore)
    (.steady (hop _ hnarrow) (orderly_move hdst rfl hmove)))

theorem orderly_multiply (hl : l.isSound = true) (hr : r.isSound = true)
    (hdst : dst.isSound = true) (h : multiply l r dst = .ok code) : Orderly code := by
  have hgeneral {l r : Operand} (hl : l.isSound = true) (hr : r.isSound = true)
      (h : viaScratch (fun _ src => .imul .scratch src) l r dst = .ok code) : Orderly code := by
    refine orderly_viaScratch ?_ hl hr hdst h
    exact fun _ hx => hx
  have hpair : ∀ p, (if l.isImm && !r.isImm then (r, l) else (l, r)) = p →
      p.1.isSound = true ∧ p.2.isSound = true := by
    rintro p rfl
    split
    · exact ⟨hr, hl⟩
    · exact ⟨hl, hr⟩
  unfold multiply at h
  generalize hp : (if l.isImm && !r.isImm then (r, l) else (l, r)) = p at h
  obtain ⟨hl, hr⟩ := hpair p hp
  obtain ⟨l, r⟩ := p
  dsimp only at h
  split at h
  · split at h
    · exact hgeneral hl hr h
    · split at h
      · split at h
        · cases h
          exact .steady (by simp [Instr.isSteady, hdst, hl]) .nil
        · exact hgeneral hl hr h
      · cases h
      · exact hgeneral hl hr h
  · exact hgeneral hl hr h

theorem orderly_divide {result : Reg} (hresult : (Operand.reg result).isSound = true)
    (hl : l.isSound = true) (hr : r.isSound = true) (hdst : dst.isSound = true)
    (h : divide result l r dst = .ok code) : Orderly code := by
  obtain ⟨rest, hmove, rfl⟩ := divide_eq_ok h
  have hfirst : (Instr.mov (.reg .rax) l).isSteady = true := hl
  simp only [List.cons_append]
  exact .steady hfirst (.divide hr (orderly_move hdst hresult hmove))

theorem orderly_compare {cond : Cond} (hcond : ∀ f, ∃ t, cond.test? f = some t)
    (hl : l.isSound = true) (hr : r.isSound = true) (hdst : dst.isSound = true)
    (h : compare cond l r dst = .ok code) : Orderly code := by
  have hfirst : (∀ y ∈ (comparable l r).1, y.isSteady = true) ∧
      (comparable l r).2.isSound = true := by
    have hscratch : scratch.isSound = true := rfl
    unfold comparable
    split_ifs <;> simp [Instr.isSteady, hl, hscratch]
  obtain ⟨hbefore, hnarrow⟩ := steady_narrow hr
  rw [compare_eq_ok h, ← List.append_nil (setCond cond dst)]
  exact .append (.of_steady hfirst.1) (.append (.of_steady hbefore)
    (.compare hfirst.2 hnarrow hdst hcond .nil))

theorem orderly_compareEq {cond : Cond} (hcond : ∀ f, ∃ t, cond.test? f = some t)
    (hl : l.isSound = true) (hr : r.isSound = true) (hdst : dst.isSound = true)
    (h : compareEq cond l r dst = .ok code) : Orderly code := by
  unfold compareEq at h
  split at h
  · exact orderly_compare hcond hr hl hdst h
  · exact orderly_compare hcond hl hr hdst h

theorem orderly_intBinary {op : BinOp} {ty : Ty} (hl : l.isSound = true) (hr : r.isSound = true)
    (hdst : dst.isSound = true) (h : intBinary op ty l r dst = .ok code) : Orderly code := by
  cases op with
  | plus =>
    refine orderly_viaScratch ?_ hl hr hdst h
    exact fun _ hx => hx
  | minus =>
    refine orderly_viaScratch ?_ hl hr hdst h
    exact fun _ hx => hx
  | times => exact orderly_multiply hl hr hdst h
  | div => exact orderly_divide rfl hl hr hdst h
  | mod => exact orderly_divide rfl hl hr hdst h
  | less => exact orderly_compare (fun _ => ⟨_, rfl⟩) hl hr hdst h
  | lessEq => exact orderly_compare (fun _ => ⟨_, rfl⟩) hl hr hdst h
  | greater => exact orderly_compare (fun _ => ⟨_, rfl⟩) hr hl hdst h
  | greaterEq => exact orderly_compare (fun _ => ⟨_, rfl⟩) hr hl hdst h
  | eq => exact orderly_compareEq (fun _ => ⟨_, rfl⟩) hl hr hdst h
  | notEq => exact orderly_compareEq (fun _ => ⟨_, rfl⟩) hl hr hdst h
  | other s => cases h

theorem orderly_floatCompare {pred : Predicate} (hpred : (relation? pred).isSome = true)
    (hl : l.isSound = true) (hr : r.isSound = true) (hdst : dst.isSound = true)
    (h : floatCompare pred l r dst = .ok code) : Orderly code := by
  obtain ⟨rest, hmove, rfl⟩ := floatCompare_eq_ok h
  have hfirst : (Instr.movsd (.xreg .compareScratch) l).isSteady = true := hl
  have hsecond : (∀ y ∈ (inFloatReg r).1, y.isSteady = true) ∧
      (inFloatReg r).2.isSound = true := by
    have hscratch : (Operand.xreg .scratch).isSound = true := rfl
    unfold inFloatReg
    split_ifs <;> simp [Instr.isSteady, hr, hscratch]
  have hcmp : (Instr.cmpsd .compareScratch (inFloatReg r).2 pred).isSteady = true := by
    rw [Instr.isSteady, hpred, hsecond.2]
    rfl
  have hlast : (Instr.and dst (.imm 1)).isSteady = true := by
    rw [Instr.isSteady, hdst]
    rfl
  exact .steady hfirst (.append (.of_steady hsecond.1)
    (.steady hcmp (.append (orderly_move hdst rfl hmove) (.steady hlast .nil))))

theorem orderly_floatBinary {op : BinOp} {ty : Ty} (hl : l.isSound = true) (hr : r.isSound = true)
    (hdst : dst.isSound = true) (h : floatBinary op ty l r dst = .ok code) : Orderly code := by
  rcases floatBinary_cases h with ⟨fop, hfop, _⟩ | ⟨pred, hpred, hcompare⟩
  · obtain ⟨f, hf, _⟩ := floatOp?_eval hfop
    simp only [floatBinary, hfop] at h
    obtain ⟨rest, hmove, h⟩ := Except.bind_eq_ok.1 h
    obtain rfl := Except.ok.inj h
    have hfirst : (Instr.movsd (.xreg .scratch) l).isSteady = true := hl
    have harith : (Instr.farith fop .scratch r).isSteady = true := by
      rw [Instr.isSteady, hf, hr]
      rfl
    exact .steady hfirst (.steady harith (orderly_move hdst rfl hmove))
  · obtain ⟨rel, hrel, _⟩ := predicate?_eval hpred
    exact orderly_floatCompare (by rw [hrel]; rfl) hl hr hdst hcompare

theorem orderly_unary {op : UnOp} {ty : Ty} (hx : x.isSound = true) (hdst : dst.isSound = true)
    (h : unary op ty x dst = .ok code) : Orderly code := by
  cases op with
  | not =>
    by_cases hty : ty = .float
    · simp only [unary, hty, if_true] at h
      cases h
    · simp only [unary, hty, if_false] at h
      obtain rfl : (unimm x).1 ++ Instr.cmp (unimm x).2 (.imm 0) :: setCond .e dst = code :=
        Except.ok.inj h
      obtain ⟨hbefore, hunimm⟩ := steady_unimm hx
      rw [← List.append_nil (setCond .e dst)]
      exact .append (.of_steady hbefore) (.compare hunimm rfl hdst (fun _ => ⟨_, rfl⟩) .nil)
  | neg =>
    by_cases hty : ty = .float
    · simp only [unary, hty, if_true] at h
      obtain ⟨y, hy, h⟩ := Except.bind_eq_ok.1 h
      obtain ⟨first, hfirst, h⟩ := Except.bind_eq_ok.1 h
      obtain ⟨rest, hrest, h⟩ := Except.bind_eq_ok.1 h
      obtain rfl := Except.ok.inj h
      obtain ⟨rfl, _⟩ := floatOperand_eq_ok hy
      have harith : (Instr.farith .mul .scratch y).isSteady = true := hx
      exact .append (orderly_move rfl rfl hfirst) (.steady harith (orderly_move hdst rfl hrest))
    · simp only [unary, hty, if_false] at h
      obtain ⟨rest, hmove, h⟩ := Except.bind_eq_ok.1 h
      obtain rfl := Except.ok.inj h
      have hlast : (Instr.neg dst).isSteady = true := hdst
      exact .append (orderly_move hdst hx hmove) (.steady hlast .nil)
  | other s => cases h

theorem orderly_deliver {dst : Option Operand} (hdst : ∀ d, dst = some d → d.isSound = true)
    (hsrc : src.isSound = true) (h : deliver dst src = .ok code) : Orderly code := by
  cases dst with
  | none =>
    cases h
    exact .nil
  | some d => exact orderly_move (hdst d rfl) hsrc h

theorem orderly_branchCode (func : String) (n : Nat) {c : Operand} (hc : c.isSound = true)
    {first second : List Instr} (hfirst : Orderly first) (hsecond : Orderly second) :
    Orderly (branchCode func n c first second) := by
  obtain ⟨hbefore, hunimm⟩ := steady_unimm hc
  simp only [branchCode, List.append_assoc, List.cons_append]
  exact .append (.of_steady hbefore) (.branch hunimm hfirst hsecond .nil)

end Operations

end Codegen

def JumpsForward : List Instr → Prop
  | [] => True
  | x :: xs => (∀ target, x.jumpTarget? = some target → target ∈ labelNames xs) ∧ JumpsForward xs

section JumpsForward

variable {x : Instr} {xs ys : List Instr}

theorem JumpsForward.cons_of_none (hx : x.jumpTarget? = none) (h : JumpsForward xs) :
    JumpsForward (x :: xs) :=
  ⟨fun _ htarget => absurd (hx.symm.trans htarget) (by simp), h⟩

theorem jumpsForward_of_none (h : ∀ x ∈ xs, x.jumpTarget? = none) : JumpsForward xs := by
  induction xs with
  | nil => trivial
  | cons x xs ih =>
    obtain ⟨hx, hxs⟩ := List.forall_mem_cons.1 h
    exact .cons_of_none hx (ih hxs)

theorem JumpsForward.append (hxs : JumpsForward xs) (hys : JumpsForward ys) :
    JumpsForward (xs ++ ys) := by
  induction xs with
  | nil => exact hys
  | cons x xs ih =>
    refine ⟨fun target htarget => ?_, ih hxs.2⟩
    exact (labelNames_append xs ys).symm ▸ List.mem_append_left _ (hxs.1 target htarget)

theorem JumpsForward.exists_label {i : Nat} {target : String} (h : JumpsForward xs)
    (hx : xs[i]? = some x) (htarget : x.jumpTarget? = some target) :
    ∃ j, i < j ∧ xs[j]? = some (.label target) := by
  induction xs generalizing i with
  | nil => cases hx
  | cons y ys ih =>
    cases i with
    | zero =>
      obtain rfl := Option.some.inj hx
      obtain ⟨j, _, hj⟩ := exists_label_of_mem (h.1 target htarget)
      exact ⟨j + 1, Nat.succ_pos j, hj⟩
    | succ i =>
      obtain ⟨j, hlt, hj⟩ := ih h.2 hx
      exact ⟨j + 1, Nat.succ_lt_succ hlt, hj⟩

end JumpsForward

theorem Instr.jumpTarget?_of_isSteady {x : Instr} (h : x.isSteady = true) :
    x.jumpTarget? = none := by
  cases x with
  | jmp target => cases h
  | jcc cond target => cases h
  | _ => rfl

theorem Orderly.jumpsForward {xs : List Instr} (h : Orderly xs) : JumpsForward xs := by
  induction h with
  | nil => trivial
  | steady hx _ ih => exact ih.cons_of_none (Instr.jumpTarget?_of_isSteady hx)
  | compare hl hr hd hcond _ ih => exact ((ih.cons_of_none rfl).cons_of_none rfl).cons_of_none rfl
  | divide hr _ ih =>
    have hbefore := jumpsForward_of_none fun x hx =>
      Instr.jumpTarget?_of_isSteady ((steady_unimm hr).1 x hx)
    exact (hbefore.append (ih.cons_of_none rfl)).cons_of_none rfl
  | branch hc _ _ _ hfirst hsecond ih =>
    refine .cons_of_none rfl ⟨?_, hfirst.append ⟨?_, ?_⟩⟩
    · rintro _ ⟨⟩
      simp [labelNames]
    · rintro _ ⟨⟩
      simp [labelNames]
    · exact .cons_of_none rfl (hsecond.append (.cons_of_none rfl ih))

/-- A register that is given to a name exists and has no other purpose. -/
def Location.isFree : Location → Bool
  | .reg r => (Operand.reg r).isSound && decide (r ∉ Reg.reserved)
  | .xreg r => (Operand.xreg r).isSound && decide (r ∉ XReg.reserved)
  | _ => true

def Assignment.UsesFree (asg : Assignment) : Prop := ∀ e ∈ asg, e.2.isFree = true

instance (asg : Assignment) : Decidable asg.UsesFree :=
  inferInstanceAs (Decidable (∀ e ∈ asg, e.2.isFree = true))

namespace Assignment.UsesFree

variable {asg : Assignment} {name : String} (h : asg.UsesFree)
include h

theorem reg {r : Reg} (hr : asg.find? name = some (.reg r)) :
    (Operand.reg r).isSound = true ∧ r ∉ Reg.reserved := by
  obtain ⟨hsound, hfree⟩ := Bool.and_eq_true_iff.1 (h _ (mem_of_lookup hr))
  exact ⟨hsound, of_decide_eq_true hfree⟩

theorem xreg {r : XReg} (hr : asg.find? name = some (.xreg r)) :
    (Operand.xreg r).isSound = true :=
  (Bool.and_eq_true_iff.1 (h _ (mem_of_lookup hr))).1

end Assignment.UsesFree

namespace Codegen

def Scope.Sound (scope : Scope) : Prop := ∀ e ∈ scope, e.2.isSound = true

section Statements

variable {func : String} {asg : Assignment} {scope scope' : Scope} {o d : Operand} {s s' : Supply}
  {code : List Instr}

theorem Scope.Sound.operand (h : scope.Sound) {x : Atom} (hx : scope.operand x = .ok o) :
    o.isSound = true := by
  unfold Scope.operand at hx
  split_ifs at hx
  · unfold Scope.find at hx
    split at hx
    next p hp =>
      cases hx
      exact h _ (mem_of_lookup hp)
    next => cases hx
  · cases hx
    rfl
  · cases hx
    rfl

theorem isSound_argumentSlot (i : Nat) : (Operand.mem (argumentSlot i)).isSound = true :=
  Operand.isSound_slot (by omega)

theorem isSound_of_location (hasg : asg.UsesFree) {name : String}
    (h : location asg name s = .ok (some o, s')) : o.isSound = true := by
  rcases location_cases h with ⟨_, hplace, _⟩ | ⟨r, hfind, hplace, _⟩ | ⟨r, hfind, hplace, _⟩ |
    ⟨_, hplace, _⟩
  · cases hplace
  · cases hplace
    exact (hasg.reg hfind).1
  · cases hplace
    exact hasg.xreg hfind
  · cases hplace
    exact Operand.isSound_slot ⟨-s.slots.next.used, by rw [Slots.offset]; omega⟩

theorem isSound_of_paramPlace (hasg : asg.UsesFree) {i : Nat} {name : String}
    (h : paramPlace asg i name = .ok o) : o.isSound = true := by
  rcases paramPlace_cases h with ⟨r, hfind, rfl⟩ | ⟨r, hfind, rfl⟩ | rfl
  · exact (hasg.reg hfind).1
  · exact hasg.xreg hfind
  · exact isSound_argumentSlot i

theorem orderly_binary (hscope : scope.Sound) (hd : d.isSound = true) {op : BinOp} {l r : Atom}
    {ty : Ty} (h : binary scope op l r ty d = .ok code) : Orderly code := by
  unfold binary at h
  split_ifs at h
  · cases h
  · obtain ⟨p, hp, hrest⟩ := Except.bind_eq_ok.1 h
    obtain ⟨p', hfirst, hrest'⟩ := Except.bind_eq_ok.1 hrest
    obtain ⟨q, hq, hlast⟩ := Except.bind_eq_ok.1 hrest'
    obtain ⟨q', hsecond, hcode⟩ := Except.bind_eq_ok.1 hlast
    obtain ⟨rfl, _⟩ := floatOperand_eq_ok hfirst
    obtain ⟨rfl, _⟩ := floatOperand_eq_ok hsecond
    exact orderly_floatBinary (hscope.operand hp) (hscope.operand hq) hd hcode
  · obtain ⟨p, hp, hrest⟩ := Except.bind_eq_ok.1 h
    obtain ⟨q, hq, hcode⟩ := Except.bind_eq_ok.1 hrest
    exact orderly_intBinary (hscope.operand hp) (hscope.operand hq) hd hcode

mutual

theorem statement_orderly (hasg : asg.UsesFree) : ∀ (x : Expr) {scope scope' : Scope}
    {dst : Option Operand} {s s' : Supply} {code : List Instr},
    statement func asg x scope dst s = .ok ((code, scope'), s') → scope.Sound →
    (∀ d, dst = some d → d.isSound = true) → Orderly code ∧ scope'.Sound
  | .atom x, _, _, _, _, _, _, h, hscope, hdst => by
    obtain ⟨_, hsrc, hcode, rfl, _⟩ := statement_atom.1 h
    exact ⟨orderly_deliver hdst (hscope.operand hsrc) hcode, hscope⟩
  | .bind name init, _, _, _, _, _, _, h, hscope, hdst => by
    obtain ⟨place, s₁, hloc⟩ := statement_bind h
    cases place with
    | none =>
      rw [statement_bind_none hloc] at h
      exact statement_orderly hasg init h hscope hdst
    | some p =>
      obtain ⟨first, scope₁, last, hinit, hlast, rfl, rfl⟩ := (statement_bind_some hloc).1 h
      have hp : p.isSound = true := isSound_of_location hasg hloc
      obtain ⟨hfirst, hscope₁⟩ := statement_orderly hasg init hinit hscope (by
        rintro _ ⟨⟩
        exact hp)
      exact ⟨hfirst.append (orderly_deliver hdst hp hlast), List.forall_mem_cons.2 ⟨hp, hscope₁⟩⟩
  | .unary op x ty, _, _, none, _, _, _, h, hscope, _ => by
    obtain ⟨_, _, hx⟩ | ⟨rfl, rfl, _⟩ := statement_unwanted h
    · cases hx
    · exact ⟨.nil, hscope⟩
  | .unary op x ty, _, _, some d, _, _, _, h, hscope, hdst => by
    obtain ⟨_, hsrc, hcode, rfl, _⟩ := statement_unary.1 h
    exact ⟨orderly_unary (hscope.operand hsrc) (hdst d rfl) hcode, hscope⟩
  | .binary op l r ty, _, _, none, _, _, _, h, hscope, _ => by
    obtain ⟨_, _, hx⟩ | ⟨rfl, rfl, _⟩ := statement_unwanted h
    · cases hx
    · exact ⟨.nil, hscope⟩
  | .binary op l r ty, _, _, some d, _, _, _, h, hscope, hdst => by
    obtain ⟨hcode, rfl, _⟩ := statement_binary.1 h
    exact ⟨orderly_binary hscope (hdst d rfl) hcode, hscope⟩
  | .branch cond onTrue none, _, _, none, _, _, _, h, hscope, _ => by
    obtain ⟨_, _, hx⟩ | ⟨rfl, rfl, _⟩ := statement_unwanted h
    · cases hx
    · exact ⟨.nil, hscope⟩
  | .branch cond onTrue (some b), _, _, none, _, _, _, h, hscope, _ => by
    obtain ⟨_, _, hx⟩ | ⟨rfl, rfl, _⟩ := statement_unwanted h
    · cases hx
    · exact ⟨.nil, hscope⟩
  | .branch cond onTrue none, _, _, some d, _, _, _, h, hscope, hdst => by
    obtain ⟨c, first, _, second, hc, hfirst, hsecond, rfl, rfl⟩ := statement_branch.1 h
    obtain ⟨rfl, rfl⟩ := StateT.pure_eq_ok.1 hsecond
    exact ⟨orderly_branchCode _ _ (hscope.operand hc)
      (block_orderly hasg onTrue hfirst hscope hdst) .nil, hscope⟩
  | .branch cond onTrue (some b), _, _, some d, _, _, _, h, hscope, hdst => by
    obtain ⟨c, first, _, second, hc, hfirst, hsecond, rfl, rfl⟩ := statement_branch.1 h
    exact ⟨orderly_branchCode _ _ (hscope.operand hc)
      (block_orderly hasg onTrue hfirst hscope hdst)
      (block_orderly hasg b hsecond hscope hdst), hscope⟩
  | .missing, _, _, _, _, _, _, h, _, _ => by cases h

theorem block_orderly (hasg : asg.UsesFree) : ∀ (xs : List Expr) {scope : Scope}
    {dst : Option Operand} {s s' : Supply} {code : List Instr},
    block func asg xs scope dst s = .ok (code, s') → scope.Sound →
    (∀ d, dst = some d → d.isSound = true) → Orderly code
  | [], _, _, _, _, _, h, _, _ => by
    obtain ⟨rfl, _⟩ := block_nil.1 h
    exact .nil
  | [x], _, _, _, _, _, h, hscope, hdst => by
    obtain ⟨_, hx⟩ := block_single.1 h
    exact (statement_orderly hasg x hx hscope hdst).1
  | x :: y :: xs, _, _, _, _, _, h, hscope, hdst => by
    obtain ⟨first, _, _, rest, hx, hrest, rfl⟩ := block_cons.1 h
    obtain ⟨hfirst, hscope₁⟩ := statement_orderly hasg x hx hscope (by
      rintro _ ⟨⟩)
    exact hfirst.append (block_orderly hasg (y :: xs) hrest hscope₁ hdst)

end

theorem loadParams_orderly (hasg : asg.UsesFree) {n : Nat} {ps : List Param} (hscope : scope.Sound)
    (h : loadParams asg n ps scope = .ok (code, scope')) : Orderly code ∧ scope'.Sound := by
  induction ps generalizing n scope code with
  | nil =>
    obtain ⟨rfl, rfl⟩ := Prod.mk.inj (Except.ok.inj h)
    exact ⟨.nil, hscope⟩
  | cons p ps ih =>
    obtain ⟨o, first, rest, ho, hfirst, hrest, rfl⟩ := loadParams_cons.1 h
    have hsound : o.isSound = true := isSound_of_paramPlace hasg ho
    obtain ⟨horderly, hscope'⟩ := ih (List.forall_mem_cons.2 ⟨hsound, hscope⟩) hrest
    exact ⟨(orderly_move hsound (isSound_argumentSlot n) hfirst).append horderly, hscope'⟩

end Statements

theorem orderly_body {f : Func} {asg : Assignment} {load body : List Instr} {scope : Scope}
    {ty : Ty} {supply : Supply} (hasg : asg.UsesFree)
    (hload : loadParams asg 0 f.params [] = .ok (load, scope))
    (hblock : block f.name asg f.body scope (some (resultPlace ty)) {} = .ok (body, supply)) :
    Orderly (load ++ body) := by
  have hresult : (resultPlace ty).isSound = true := by
    unfold resultPlace
    split <;> rfl
  obtain ⟨horderly, hscope⟩ := loadParams_orderly hasg (List.forall_mem_nil _) hload
  refine horderly.append (block_orderly hasg f.body hblock hscope ?_)
  rintro _ ⟨⟩
  exact hresult

end Codegen

end ExprBackend
