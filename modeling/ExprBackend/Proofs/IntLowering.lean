import ExprBackend.Proofs.Move

/-!
# Integer operations

The code of an integer operation leaves its value in the destination, whichever of the operands
the destination may be.
-/

namespace ExprBackend

/-- General registers, memory and integer immediates. -/
def Operand.isInt : Operand → Bool
  | .reg _ | .mem _ | .imm _ => true
  | _ => false

/-- An operand that is no immediate stands for a cell. -/
theorem Machine.Source.cell {m : Machine} {x : Operand} {w : UInt64} (hx : m.Source x w)
    (hint : x.isInt = true) (himm : x.isImm = false) :
    ∃ d, x.cell? m.base = some d ∧ m.cell d = w := by
  cases x with
  | reg s => exact Option.map_eq_some_iff.1 hx.value
  | mem y => exact Option.map_eq_some_iff.1 hx.value
  | xreg s => cases hint
  | imm v => cases himm
  | fimm bits => cases hint
  | absent => cases hint

def Cell.intTemporaries : Set Cell := {.rax, .rdx, .backup, .scratch}

theorem Cell.intTemporaries_subset : intTemporaries ⊆ temporaries := by
  simp [Set.insert_subset_iff, intTemporaries, temporaries]

/-- What an operation leaves in `rax`, where all quotients are made. -/
def BinOp.leftInRax (op : BinOp) (a b rax : UInt64) : UInt64 :=
  match op with
  | .div | .mod => quotientWord a b
  | _ => rax

namespace Codegen

open Machine

variable {m : Machine} {l r dst : Operand} {a b w : UInt64} {c : Cell} {code : List Instr}

theorem encodable_reg_move (s : Reg) {x : Operand} (h : x.isInt = true) :
    encodable (.reg s) x true = true := by
  cases x with
  | imm v => simp [encodable]
  | reg s => rfl
  | mem y => rfl
  | xreg s => cases h
  | fimm bits => cases h
  | absent => cases h

theorem execute_mov_scratch {x : Operand} (hx : m.Source x w) (hint : x.isInt = true) :
    execute (.mov scratch x) m = .ok () (m.setCell .scratch w) :=
  execute_mov (encodable_reg_move _ hint) (cell?_scratch _) hx.value

theorem changesOnly_scratch (m : Machine) (w : UInt64) :
    ChangesOnly Cell.temporaries m (m.setCell .scratch w) :=
  (ChangesOnly.refl _ m).setCell (by simp [Cell.temporaries]) w

/-- What an instruction with narrow immediates takes in place of an operand. -/
structure Narrowed (m : Machine) (x : Operand) (w : UInt64) (wasMem : Bool) : Prop where
  value : m.value? x = some w
  reg : ∀ s, encodable (.reg s) x false = true
  mem : wasMem = false → ∀ y, encodable (.mem y) x false = true

theorem narrow_ok (hr : m.Source r b) (hint : r.isInt = true) :
    ∃ m', executeAll (narrow r).1 m = .ok () m' ∧ ChangesOnly {.backup} m m' ∧
      Narrowed m' (narrow r).2 b r.isMem := by
  cases r with
  | reg s => exact ⟨m, rfl, .refl _ m, hr.value, fun _ => rfl, fun _ _ => rfl⟩
  | mem y => exact ⟨m, rfl, .refl _ m, hr.value, fun _ => rfl, fun h => by cases h⟩
  | imm v =>
    by_cases hv : fitsImm32 v = true
    · simp only [narrow, hv, if_true]
      exact ⟨m, rfl, .refl _ m, hr.value, fun _ => by simp [encodable, hv], fun _ _ => hv⟩
    · simp only [narrow, hv]
      have hmov : execute (.mov backup (.imm v)) m = .ok () (m.setCell .backup b) :=
        execute_mov (by simp [encodable, backup]) (cell?_backup _) hr.value
      refine ⟨_, executeAll_cons hmov [], (ChangesOnly.refl _ m).setCell (Set.mem_singleton _) b, ?_,
        fun _ => rfl, fun _ _ => rfl⟩
      exact (value?_of_cell? (cell?_backup _)).trans (congrArg some (cell_setCell_self m _ b))
  | xreg s => cases hint
  | fimm bits => cases hint
  | absent => cases hint

theorem backup_subset : ({.backup} : Set Cell) ⊆ Cell.temporaries := by
  rintro _ rfl
  simp [Cell.temporaries]

theorem viaScratch_eq_ok {op : Operand → Operand → Instr}
    (h : viaScratch op l r dst = .ok code) :
    ∃ rest, move dst scratch = .ok rest ∧
      code = .mov scratch l :: ((narrow r).1 ++ op scratch (narrow r).2 :: rest) := by
  obtain ⟨rest, hmove, h⟩ := Except.bind_eq_ok.1 h
  exact ⟨rest, hmove, (Except.ok.inj h).symm⟩

/-- An operation in the scratch register with the result moved out of it. -/
theorem viaScratch_leaves {op : Operand → Operand → Instr} {f : UInt64 → UInt64 → UInt64}
    (hop : ∀ (m : Machine) (x : Operand) (w : UInt64), encodable scratch x false = true →
      m.value? x = some w →
      execute (op scratch x) m = .ok () (m.setCell .scratch (f (m.cell .scratch) w)))
    (hcode : viaScratch op l r dst = .ok code) (hl : m.Source l a) (hlint : l.isInt = true)
    (hr : m.Source r b) (hrint : r.isInt = true) (hc : dst.cell? m.base = some c)
    (hback : c ≠ .backup) : Leaves code m c (f a b) {c, .backup, .scratch} := by
  obtain ⟨rest, hmove, rfl⟩ := viaScratch_eq_ok hcode
  obtain ⟨m', hnarrow, hsame, hr'⟩ := narrow_ok (hr.after (changesOnly_scratch m a)) hrint
  have hscratch : m'.cell .scratch = a := by
    rw [hsame _ (by simp; decide), cell_setCell_self]
  have hsame₁ : ChangesOnly {c, .backup, .scratch} m (m.setCell .scratch a) :=
    (ChangesOnly.refl _ m).setCell (by simp) a
  have hsame₂ : ChangesOnly {c, .backup, .scratch} (m.setCell .scratch a) m' :=
    hsame.mono (by simp)
  have hop' := hop m' _ b (hr'.reg _) hr'.value
  rw [hscratch] at hop'
  have hbase : (m'.setCell .scratch (f a b)).base = m.base := by
    rw [base_setCell (by decide), hsame.base_eq (by simp; decide), base_setCell (by decide)]
  have hrest := move_leaves hmove (hbase.symm ▸ hc) hback (value?_of_cell? (cell?_scratch _))
  rw [cell_setCell_self] at hrest
  refine .cons (execute_mov_scratch hl hlint) hsame₁ (.append hnarrow hsame₂ (.cons hop' ?_ ?_))
  · exact (ChangesOnly.refl _ m').setCell (by simp) _
  · exact hrest.mono (by simp [Set.insert_subset_iff])

theorem multiply_swap (h : (l.isImm && !r.isImm) = true) :
    multiply l r dst = multiply r l dst := by
  simp only [Bool.and_eq_true, Bool.not_eq_true'] at h
  simp only [multiply, h.1, h.2, Bool.not_false, Bool.not_true, Bool.and_self, if_true,
    Bool.false_eq_true, if_false]

theorem multiply_ordered (h : (l.isImm && !r.isImm) = false) (hcode : multiply l r dst = .ok code)
    (hl : m.Source l a) (hlint : l.isInt = true) (hr : m.Source r b) (hrint : r.isInt = true)
    (hc : dst.cell? m.base = some c) (hback : c ≠ .backup) :
    Leaves code m c (a * b) {c, .backup, .scratch} := by
  have hgeneral (hcode : viaScratch (fun _ src => .imul .scratch src) l r dst = .ok code) :
      Leaves code m c (a * b) {c, .backup, .scratch} :=
    viaScratch_leaves (f := (· * ·)) (fun m x w henc hw => execute_imul henc rfl hw) hcode hl hlint
      hr hrint hc hback
  simp only [multiply, h, Bool.false_eq_true, if_false] at hcode
  cases dst with
  | reg d =>
    cases himm : l.isImm with
    | true =>
      simp only [himm, if_true] at hcode
      exact hgeneral hcode
    | false =>
      simp only [himm, Bool.false_eq_true, if_false] at hcode
      cases r with
      | imm v =>
        by_cases hv : fitsImm32 v = true
        · simp only [hv, if_true] at hcode
          cases hcode
          obtain ⟨i, hi, rfl⟩ := Option.map_eq_some_iff.1 hc
          obtain ⟨e, he, rfl⟩ := hl.cell hlint himm
          obtain rfl : v.toUInt64 = b := Option.some.inj hr.value
          exact leaves_single (by simp) (execute_imul3 himm hv hi he)
        · simp only [hv] at hcode
          exact hgeneral hcode
      | fimm bits => cases hrint
      | _ => exact hgeneral hcode
  | _ => exact hgeneral hcode

theorem multiply_leaves (hcode : multiply l r dst = .ok code) (hl : m.Source l a)
    (hlint : l.isInt = true) (hr : m.Source r b) (hrint : r.isInt = true)
    (hc : dst.cell? m.base = some c) (hback : c ≠ .backup) :
    Leaves code m c (a * b) {c, .backup, .scratch} := by
  by_cases h : (l.isImm && !r.isImm) = true
  · have hswap : (r.isImm && !l.isImm) = false := by
      simp only [Bool.and_eq_true, Bool.not_eq_true'] at h
      simp [h.2]
    rw [multiply_swap h] at hcode
    rw [UInt64.mul_comm]
    exact multiply_ordered hswap hcode hr hrint hl hlint hc hback
  · exact multiply_ordered (Bool.not_eq_true _ ▸ h) hcode hl hlint hr hrint hc hback

/-- What an instruction without immediates takes in place of an operand. -/
structure Unimmed (m : Machine) (x : Operand) (d : Cell) (w : UInt64) : Prop where
  noImm : x.isImm = false
  cell : x.cell? m.base = some d
  value : m.cell d = w
  place : d = .scratch ∨ d ∉ Cell.temporaries
  zero : encodable x (.imm 0) false = true

theorem unimm_ok (hr : m.Source r b) (hint : r.isInt = true) :
    ∃ m' d, executeAll (unimm r).1 m = .ok () m' ∧ ChangesOnly {.scratch} m m' ∧
      Unimmed m' (unimm r).2 d b := by
  cases r with
  | imm v =>
    refine ⟨_, .scratch, executeAll_cons (execute_mov_scratch hr hint) [], ?_, rfl, rfl, ?_,
      Or.inl rfl, rfl⟩
    · exact (ChangesOnly.refl _ m).setCell (Set.mem_singleton _) b
    · exact cell_setCell_self m _ b
  | reg s =>
    obtain ⟨d, hd, hw⟩ := hr.cell rfl rfl
    exact ⟨m, d, rfl, .refl _ m, rfl, hd, hw, Or.inr (hr.stable d hd), rfl⟩
  | mem y =>
    obtain ⟨d, hd, hw⟩ := hr.cell rfl rfl
    exact ⟨m, d, rfl, .refl _ m, rfl, hd, hw, Or.inr (hr.stable d hd), rfl⟩
  | xreg s => cases hint
  | fimm bits => cases hint
  | absent => cases hint

theorem toInt64_eq_iff (a b : UInt64) : a.toInt64 = b.toInt64 ↔ a = b :=
  ⟨fun h => congrArg Int64.toUInt64 h, congrArg UInt64.toInt64⟩

theorem divide_eq_ok {result : Reg} (h : divide result l r dst = .ok code) :
    ∃ rest, move dst (.reg result) = .ok rest ∧
      code = Instr.mov (.reg .rax) l :: .cqo :: (unimm r).1 ++ Instr.idiv (unimm r).2 :: rest := by
  obtain ⟨rest, hmove, h⟩ := Except.bind_eq_ok.1 h
  exact ⟨rest, hmove, (Except.ok.inj h).symm⟩

/-- The dividend with its sign, and the divisor where it can be divided by. -/
theorem divide_ready {rest : List Instr} (hl : m.Source l a) (hlint : l.isInt = true)
    (hr : m.Source r b) (hrint : r.isInt = true) :
    ∃ m' d, executeAll (Instr.mov (.reg .rax) l :: .cqo :: (unimm r).1 ++ rest) m =
        executeAll rest m' ∧
      ChangesOnly {.rax, .rdx, .scratch} m m' ∧ m'.cell .rax = a ∧ m'.cell .rdx = signWord a ∧
      Unimmed m' (unimm r).2 d b := by
  have hmov : execute (.mov (.reg .rax) l) m = .ok () (m.setCell .rax a) :=
    execute_mov (encodable_reg_move _ hlint) rfl hl.value
  have hcqo : execute .cqo (m.setCell .rax a) =
      .ok () ((m.setCell .rax a).setCell .rdx (signWord a)) := by
    rw [execute_cqo, cell_setCell_self]
  have hsame₁ (s : Set Cell) (hrax : Cell.rax ∈ s) (hrdx : Cell.rdx ∈ s) :
      ChangesOnly s m ((m.setCell .rax a).setCell .rdx (signWord a)) :=
    ((ChangesOnly.refl s m).setCell hrax a).setCell hrdx _
  obtain ⟨m', d, hrun, hsame₂, hd⟩ :=
    unimm_ok (hr.after (hsame₁ _ (by simp [Cell.temporaries]) (by simp [Cell.temporaries]))) hrint
  refine ⟨m', d, ?_, (hsame₁ _ (by simp) (by simp)).trans (hsame₂.mono (by simp)), ?_, ?_, hd⟩
  · rw [List.cons_append, List.cons_append, executeAll_cons hmov, executeAll_cons hcqo,
      executeAll_append hrun]
  · rw [hsame₂ _ (by simp; decide), cell_setCell_of_ne _ (by decide), cell_setCell_self]
  · rw [hsame₂ _ (by simp; decide), cell_setCell_self]

theorem divide_finishesIn {result : Reg} (hcode : divide result l r dst = .ok code)
    (hl : m.Source l a) (hlint : l.isInt = true) (hr : m.Source r b) (hrint : r.isInt = true)
    (hb : b ≠ 0) (hc : dst.cell? m.base = some c) (hback : c ≠ .backup)
    (hw : result = .rax ∧ w = quotientWord a b ∨ result = .rdx ∧ w = remainderWord a b) :
    FinishesIn Cell.intTemporaries code m c w (quotientWord a b) := by
  obtain ⟨rest, hmove, rfl⟩ := divide_eq_ok hcode
  obtain ⟨m₁, d, hready, hsame, hrax, hrdx, hd⟩ := divide_ready hl hlint hr hrint
  have hne : (m₁.cell d).toInt64 ≠ 0 := by
    rw [hd.value]
    exact fun h => hb ((toInt64_eq_iff b 0).1 h)
  have hidiv := execute_idiv hd.noImm hd.cell hne (by rw [hrdx, hrax])
  rw [hd.value, hrax] at hidiv
  obtain ⟨m₂, hm₂⟩ : ∃ m₂, m₂ = (m₁.setCell .rax (quotientWord a b)).setCell .rdx
    (remainderWord a b) := ⟨_, rfl⟩
  have hrun : execute (.idiv (unimm r).2) m₁ = .ok () m₂ := by rw [hm₂, hidiv]; rfl
  have hrax₂ : m₂.cell .rax = quotientWord a b := by
    rw [hm₂, cell_setCell_of_ne _ (by decide), cell_setCell_self]
  have hresult : m₂.value? (.reg result) = some w := by
    rcases hw with ⟨rfl, rfl⟩ | ⟨rfl, rfl⟩
    · exact (value?_of_cell? (c := .rax) rfl).trans (congrArg some hrax₂)
    · exact (value?_of_cell? (c := .rdx) rfl).trans (congrArg some (by rw [hm₂, cell_setCell_self]))
  have hsame₂ : ChangesOnly {.rax, .rdx, .scratch} m m₂ := by
    rw [hm₂]
    exact (hsame.setCell (by simp) _).setCell (by simp) _
  have hbase : m₂.base = m.base := hsame₂.base_eq (by simp; decide)
  obtain ⟨m', hrest, hw', hsame₃⟩ := move_leaves hmove (hbase.symm ▸ hc) hback hresult
  refine ⟨m', ?_, hw', fun hcne => ?_, ?_⟩
  · rw [hready, executeAll_cons hrun, hrest]
  · rw [hsame₃ _ (by simp [hcne.symm]; decide), hrax₂]
  · refine (hsame₂.mono ?_).trans (hsame₃.mono ?_)
    · simp [Set.insert_subset_iff, Cell.intTemporaries]
    · simp [Set.insert_subset_iff, Cell.intTemporaries]

theorem divide_by_zero {result : Reg} (hcode : divide result l r dst = .ok code)
    (hl : m.Source l a) (hlint : l.isInt = true) (hr : m.Source r 0) (hrint : r.isInt = true) :
    Traps code m := by
  obtain ⟨rest, _, rfl⟩ := divide_eq_ok hcode
  obtain ⟨m₁, d, hready, _, _, _, hd⟩ := divide_ready hl hlint hr hrint
  have hzero : (m₁.cell d).toInt64 = 0 := by rw [hd.value]; rfl
  refine ⟨.divisionByZero, m₁, ?_, by simp⟩
  rw [hready, executeAll_cons_error (execute_idiv_zero hd.noImm hd.cell hzero)]

/-- A general register or memory takes a narrow immediate. -/
theorem encodable_zero (hc : dst.cell? m.base = some c) (hx : dst.isXReg = false) :
    encodable dst (.imm 0) true = true := by
  cases dst with
  | reg s => rfl
  | mem y => rfl
  | xreg s => cases hx
  | imm v => cases hc
  | fimm bits => cases hc
  | absent => cases hc

theorem setCond_leaves {cond : Cond} {f : Flags} {t : Bool} (hf : m.flags = some f)
    (ht : cond.test? f = some t) (hc : dst.cell? m.base = some c) (hx : dst.isXReg = false)
    (hrbp : c ≠ .rbp) : Leaves (setCond cond dst) m c (truthWord t) {c} := by
  have hmov : execute (.mov dst (.imm 0)) m = .ok () (m.setCell c 0) :=
    execute_mov (encodable_zero hc hx) hc rfl
  refine .cons hmov ?_ (leaves_single (Set.mem_singleton c) ?_)
  · exact (ChangesOnly.refl _ m).setCell (Set.mem_singleton c) 0
  · refine execute_set (by rw [flags_setCell, hf]) ht ?_ (cell_setCell_self m c 0)
    rw [base_setCell hrbp, hc]

theorem setCond_traps (cond : Cond) (hx : dst.isXReg = true) (m : Machine) :
    Traps (setCond cond dst) m := by
  cases dst with
  | xreg s => exact ⟨_, m, executeAll_cons_error rfl _, by simp⟩
  | reg s => cases hx
  | mem y => cases hx
  | imm v => cases hx
  | fimm bits => cases hx
  | absent => cases hx

/-- The first operand of a comparison, where it can be compared. -/
def comparable (l r : Operand) : List Instr × Operand :=
  if l.isImm || l.isMem && r.isMem then ([.mov scratch l], scratch) else ([], l)

theorem compare_eq_ok {cond : Cond} (h : compare cond l r dst = .ok code) :
    code = (comparable l r).1 ++ ((narrow r).1 ++
      .cmp (comparable l r).2 (narrow r).2 :: setCond cond dst) := by
  have hcode : compare cond l r dst = .ok ((comparable l r).1 ++ (narrow r).1 ++
      .cmp (comparable l r).2 (narrow r).2 :: setCond cond dst) := rfl
  rw [hcode] at h
  rw [← Except.ok.inj h, List.append_assoc]

theorem comparable_ok (hl : m.Source l a) (hlint : l.isInt = true) :
    ∃ m' d, executeAll (comparable l r).1 m = .ok () m' ∧ ChangesOnly {.scratch} m m' ∧
      (comparable l r).2.cell? m'.base = some d ∧ m'.cell d = a ∧ d ≠ .backup ∧
      ((∃ s, (comparable l r).2 = .reg s) ∨ r.isMem = false ∧ ∃ y, (comparable l r).2 = .mem y) := by
  by_cases h : (l.isImm || l.isMem && r.isMem) = true
  · simp only [comparable, h, if_true]
    refine ⟨_, .scratch, executeAll_cons (execute_mov_scratch hl hlint) [], ?_, rfl,
      cell_setCell_self m _ a, by decide, Or.inl ⟨_, rfl⟩⟩
    exact (ChangesOnly.refl _ m).setCell (Set.mem_singleton _) a
  · rw [Bool.not_eq_true, Bool.or_eq_false_iff] at h
    simp only [comparable, h.1, h.2, Bool.or_self, Bool.false_eq_true, if_false]
    obtain ⟨d, hd, hw⟩ := hl.cell hlint h.1
    have hback : d ≠ .backup := fun hb => hl.stable d hd (by simp [Cell.temporaries, hb])
    refine ⟨m, d, rfl, .refl _ m, hd, hw, hback, ?_⟩
    cases l with
    | reg s => exact Or.inl ⟨s, rfl⟩
    | mem y => exact Or.inr ⟨h.2, y, rfl⟩
    | imm v => cases h.1
    | xreg s => cases hlint
    | fimm bits => cases hlint
    | absent => cases hlint

/-- A comparison up to the point where the flags tell its result. -/
theorem compare_flags {cond : Cond} (hcode : compare cond l r dst = .ok code)
    (hl : m.Source l a) (hlint : l.isInt = true) (hr : m.Source r b) (hrint : r.isInt = true) :
    ∃ m', executeAll code m = executeAll (setCond cond dst) m' ∧
      ChangesOnly {.backup, .scratch} m m' ∧ m'.flags = some (.ofWords a b) := by
  rw [compare_eq_ok hcode]
  obtain ⟨m₁, d, hrun₁, hsame₁, hd, hda, hback, hform⟩ := comparable_ok (r := r) hl hlint
  have hr₁ : m₁.Source r b := hr.after (hsame₁.mono (by simp [Cell.temporaries]))
  obtain ⟨m₂, hrun₂, hsame₂, hr₂⟩ := narrow_ok hr₁ hrint
  have hbase : m₂.base = m₁.base := hsame₂.base_eq (by simp; decide)
  have hda₂ : m₂.cell d = a := by rw [hsame₂ d (by simpa using hback), hda]
  have hcmp : execute (.cmp (comparable l r).2 (narrow r).2) m₂ =
      .ok () (m₂.setFlags (.ofWords a b)) := by
    rw [← hda₂]
    refine execute_cmp ?_ ?_ (hbase.symm ▸ hd) hr₂.value
    · rcases hform with ⟨s, hs⟩ | ⟨_, y, hy⟩
      · rw [hs]; rfl
      · rw [hy]; rfl
    · rcases hform with ⟨s, hs⟩ | ⟨hmem, y, hy⟩
      · rw [hs]; exact hr₂.reg s
      · rw [hy]; exact hr₂.mem hmem y
  refine ⟨m₂.setFlags (.ofWords a b), ?_, ?_, flags_setFlags _ _⟩
  · rw [executeAll_append hrun₁, executeAll_append hrun₂, executeAll_cons hcmp]
  · exact ((hsame₁.mono (by simp)).trans (hsame₂.mono (by simp))).setFlags _

theorem compare_leaves {cond : Cond} {t : Bool} (hcode : compare cond l r dst = .ok code)
    (hl : m.Source l a) (hlint : l.isInt = true) (hr : m.Source r b) (hrint : r.isInt = true)
    (ht : cond.test? (.ofWords a b) = some t) (hc : dst.cell? m.base = some c)
    (hx : dst.isXReg = false) (hrbp : c ≠ .rbp) :
    Leaves code m c (truthWord t) {c, .backup, .scratch} := by
  obtain ⟨m₁, hrun, hsame, hflags⟩ := compare_flags hcode hl hlint hr hrint
  have hbase : m₁.base = m.base := hsame.base_eq (by simp; decide)
  obtain ⟨m₂, hset, hw, hsame₂⟩ := setCond_leaves hflags ht (hbase.symm ▸ hc) hx hrbp
  exact ⟨m₂, hrun.trans hset, hw, (hsame.mono (by simp)).trans (hsame₂.mono (by simp))⟩

theorem compare_misplaced {cond : Cond} (hcode : compare cond l r dst = .ok code)
    (hl : m.Source l a) (hlint : l.isInt = true) (hr : m.Source r b) (hrint : r.isInt = true)
    (hx : dst.isXReg = true) : Traps code m := by
  obtain ⟨m₁, hrun, _⟩ := compare_flags hcode hl hlint hr hrint
  obtain ⟨e, m₂, hset, he⟩ := setCond_traps cond hx m₁
  exact ⟨e, m₂, hrun.trans hset, he⟩

/-- A test for equality is a comparison of the operands in one of the two orders. -/
theorem compareEq_ok {cond : Cond} (hcode : compareEq cond l r dst = .ok code)
    (hl : m.Source l a) (hlint : l.isInt = true) (hr : m.Source r b) (hrint : r.isInt = true) :
    ∃ l' r' a' b', compare cond l' r' dst = .ok code ∧ m.Source l' a' ∧ l'.isInt = true ∧
      m.Source r' b' ∧ r'.isInt = true ∧ (a' = b' ↔ a = b) := by
  rw [compareEq] at hcode
  split at hcode
  · exact ⟨r, l, b, a, hcode, hr, hrint, hl, hlint, eq_comm⟩
  · exact ⟨l, r, a, b, hcode, hl, hlint, hr, hrint, Iff.rfl⟩

theorem scratch_subset : ({.backup, .scratch} : Set Cell) ⊆ Cell.intTemporaries := by
  simp [Set.insert_subset_iff, Cell.intTemporaries]

theorem rax_notMem_scratch : Cell.rax ∉ ({.backup, .scratch} : Set Cell) := by
  simp
  decide

theorem test_le (a b : UInt64) :
    Cond.test? (.ofWords a b) .le = some (decide (a.toInt64 ≤ b.toInt64)) := by
  simp only [Cond.test?, Flags.ofWords, Option.some.injEq, ← Bool.decide_or, decide_eq_decide]
  rw [← toInt64_eq_iff]
  exact Int64.le_iff_lt_or_eq.symm

/-- The code of an integer operation that has a value. -/
theorem intBinary_finishesIn {op : BinOp} {ty : Ty} (hcode : intBinary op ty l r dst = .ok code)
    (hl : m.Source l a) (hlint : l.isInt = true) (hr : m.Source r b) (hrint : r.isInt = true)
    (hc : dst.cell? m.base = some c) (hback : c ≠ .backup) (hrbp : c ≠ .rbp)
    (hx : op.isRelation = true → dst.isXReg = false) (hw : op.evalInt? a b = some w) :
    FinishesIn Cell.intTemporaries code m c w (op.leftInRax a b (m.cell .rax)) := by
  have hfinish {w : UInt64} (h : Leaves code m c w {c, .backup, .scratch}) :
      FinishesIn Cell.intTemporaries code m c w (m.cell .rax) :=
    (h.finishesIn rax_notMem_scratch).mono scratch_subset
  cases op with
  | plus =>
    cases hw
    refine hfinish (viaScratch_leaves ?_ hcode hl hlint hr hrint hc hback)
    exact fun m x w henc hw => combine_ok (· + ·) henc (cell?_scratch _) hw
  | minus =>
    cases hw
    refine hfinish (viaScratch_leaves ?_ hcode hl hlint hr hrint hc hback)
    exact fun m x w henc hw => combine_ok (· - ·) henc (cell?_scratch _) hw
  | times =>
    cases hw
    exact hfinish (multiply_leaves hcode hl hlint hr hrint hc hback)
  | div =>
    simp only [BinOp.evalInt?, Option.ite_none_left_eq_some, Option.some.injEq] at hw
    exact divide_finishesIn hcode hl hlint hr hrint hw.1 hc hback (Or.inl ⟨rfl, hw.2.symm⟩)
  | mod =>
    simp only [BinOp.evalInt?, Option.ite_none_left_eq_some, Option.some.injEq] at hw
    exact divide_finishesIn hcode hl hlint hr hrint hw.1 hc hback (Or.inr ⟨rfl, hw.2.symm⟩)
  | less =>
    cases hw
    exact hfinish (compare_leaves hcode hl hlint hr hrint rfl hc (hx rfl) hrbp)
  | lessEq =>
    cases hw
    exact hfinish (compare_leaves hcode hl hlint hr hrint (test_le a b) hc (hx rfl) hrbp)
  | greater =>
    cases hw
    exact hfinish (compare_leaves hcode hr hrint hl hlint rfl hc (hx rfl) hrbp)
  | greaterEq =>
    cases hw
    exact hfinish (compare_leaves hcode hr hrint hl hlint (test_le b a) hc (hx rfl) hrbp)
  | eq =>
    cases hw
    obtain ⟨l, r, a', b', hcode, hl, hlint, hr, hrint, hab⟩ := compareEq_ok hcode hl hlint hr hrint
    refine hfinish (compare_leaves hcode hl hlint hr hrint ?_ hc (hx rfl) hrbp)
    simp [Cond.test?, Flags.ofWords, hab]
  | notEq =>
    cases hw
    obtain ⟨l, r, a', b', hcode, hl, hlint, hr, hrint, hab⟩ := compareEq_ok hcode hl hlint hr hrint
    refine hfinish (compare_leaves hcode hl hlint hr hrint ?_ hc (hx rfl) hrbp)
    simp [Cond.test?, Flags.ofWords, hab]
  | other s => cases hw

theorem intBinary_finishes {op : BinOp} {ty : Ty} (hcode : intBinary op ty l r dst = .ok code)
    (hl : m.Source l a) (hlint : l.isInt = true) (hr : m.Source r b) (hrint : r.isInt = true)
    (hc : dst.cell? m.base = some c) (hback : c ≠ .backup) (hrbp : c ≠ .rbp)
    (hx : op.isRelation = true → dst.isXReg = false) (hw : op.evalInt? a b = some w) :
    Finishes code m c w (op.leftInRax a b (m.cell .rax)) :=
  (intBinary_finishesIn hcode hl hlint hr hrint hc hback hrbp hx hw).finishes
    Cell.intTemporaries_subset

/-- An integer operation without a value is a division by 0, which traps. -/
theorem intBinary_traps {op : BinOp} {ty : Ty} (hcode : intBinary op ty l r dst = .ok code)
    (hl : m.Source l a) (hlint : l.isInt = true) (hr : m.Source r b) (hrint : r.isInt = true)
    (hw : op.evalInt? a b = none) : Traps code m := by
  cases op with
  | div =>
    simp only [BinOp.evalInt?, ite_eq_left_iff, reduceCtorEq, imp_false, not_not] at hw
    exact divide_by_zero hcode hl hlint (hw ▸ hr) hrint
  | mod =>
    simp only [BinOp.evalInt?, ite_eq_left_iff, reduceCtorEq, imp_false, not_not] at hw
    exact divide_by_zero hcode hl hlint (hw ▸ hr) hrint
  | other s => cases hcode
  | _ => cases hw

/-- The result of a comparison can not be made in a float register. -/
theorem intBinary_misplaced {op : BinOp} {ty : Ty} (hcode : intBinary op ty l r dst = .ok code)
    (hl : m.Source l a) (hlint : l.isInt = true) (hr : m.Source r b) (hrint : r.isInt = true)
    (hop : op.isRelation = true) (hx : dst.isXReg = true) :
    Traps code m := by
  cases op with
  | less => exact compare_misplaced hcode hl hlint hr hrint hx
  | lessEq => exact compare_misplaced hcode hl hlint hr hrint hx
  | greater => exact compare_misplaced hcode hr hrint hl hlint hx
  | greaterEq => exact compare_misplaced hcode hr hrint hl hlint hx
  | eq =>
    obtain ⟨l, r, a', b', hcode, hl, hlint, hr, hrint, _⟩ := compareEq_ok hcode hl hlint hr hrint
    exact compare_misplaced hcode hl hlint hr hrint hx
  | notEq =>
    obtain ⟨l, r, a', b', hcode, hl, hlint, hr, hrint, _⟩ := compareEq_ok hcode hl hlint hr hrint
    exact compare_misplaced hcode hl hlint hr hrint hx
  | _ => cases hop

theorem negate_leaves {ty : Ty} {x : Operand} (hty : ty ≠ .float)
    (hcode : unary .neg ty x dst = .ok code) (hx : m.Source x a)
    (hc : dst.cell? m.base = some c) (hback : c ≠ .backup) (hrbp : c ≠ .rbp) :
    Leaves code m c (-a) {c, .backup} := by
  simp only [unary, hty, if_false] at hcode
  obtain ⟨rest, hmove, h⟩ := Except.bind_eq_ok.1 hcode
  obtain rfl := Except.ok.inj h
  obtain ⟨m₁, hrun, hw, hsame⟩ := move_leaves hmove hc hback hx.value
  have hbase : m₁.base = m.base := hsame.base_eq (by simp [hrbp.symm]; decide)
  have hneg := execute_neg (m := m₁) (hbase.symm ▸ hc)
  rw [hw] at hneg
  exact .append hrun hsame (leaves_single (by simp) hneg)

theorem negate_finishes {ty : Ty} {x : Operand} (hty : ty ≠ .float)
    (hcode : unary .neg ty x dst = .ok code) (hx : m.Source x a)
    (hc : dst.cell? m.base = some c) (hback : c ≠ .backup) (hrbp : c ≠ .rbp) :
    Finishes code m c (-a) (m.cell .rax) :=
  (negate_leaves hty hcode hx hc hback hrbp).finishes backup_subset (by simp; decide)

/-- A negated truth value up to the point where the flags tell the result. -/
theorem not_flags {ty : Ty} {x : Operand} (hty : ty ≠ .float)
    (hcode : unary .not ty x dst = .ok code) (hx : m.Source x a) (hint : x.isInt = true) :
    ∃ m', executeAll code m = executeAll (setCond .e dst) m' ∧ ChangesOnly {.scratch} m m' ∧
      m'.flags = some (.ofWords a 0) := by
  simp only [unary, hty, if_false] at hcode
  obtain rfl : (unimm x).1 ++ Instr.cmp (unimm x).2 (.imm 0) :: setCond .e dst = code :=
    Except.ok.inj hcode
  obtain ⟨m₁, d, hrun, hsame, hd⟩ := unimm_ok hx hint
  have hcmp := execute_cmp (w := 0) hd.noImm hd.zero hd.cell rfl
  rw [hd.value] at hcmp
  refine ⟨m₁.setFlags (.ofWords a 0), ?_, hsame.setFlags _, flags_setFlags _ _⟩
  rw [executeAll_append hrun, executeAll_cons hcmp]

theorem not_leaves {ty : Ty} {x : Operand} (hty : ty ≠ .float)
    (hcode : unary .not ty x dst = .ok code) (hx : m.Source x a) (hint : x.isInt = true)
    (hc : dst.cell? m.base = some c) (hdst : dst.isXReg = false) (hrbp : c ≠ .rbp) :
    Leaves code m c (truthWord (a = 0)) {c, .scratch} := by
  obtain ⟨m₁, hrun, hsame, hflags⟩ := not_flags hty hcode hx hint
  have hbase : m₁.base = m.base := hsame.base_eq (by simp; decide)
  have htest : Cond.test? (.ofWords a 0) .e = some (decide (a = 0)) := rfl
  obtain ⟨m₂, hset, hw, hsame₂⟩ := setCond_leaves hflags htest (hbase.symm ▸ hc) hdst hrbp
  exact ⟨m₂, hrun.trans hset, hw, (hsame.mono (by simp)).trans (hsame₂.mono (by simp))⟩

theorem not_finishes {ty : Ty} {x : Operand} (hty : ty ≠ .float)
    (hcode : unary .not ty x dst = .ok code) (hx : m.Source x a) (hint : x.isInt = true)
    (hc : dst.cell? m.base = some c) (hdst : dst.isXReg = false) (hrbp : c ≠ .rbp) :
    Finishes code m c (truthWord (a = 0)) (m.cell .rax) :=
  (not_leaves hty hcode hx hint hc hdst hrbp).finishes (by simp [Cell.temporaries])
    (by simp; decide)

theorem not_misplaced {ty : Ty} {x : Operand} (hty : ty ≠ .float)
    (hcode : unary .not ty x dst = .ok code) (hx : m.Source x a) (hint : x.isInt = true)
    (hdst : dst.isXReg = true) : Traps code m := by
  obtain ⟨m₁, hrun, _⟩ := not_flags hty hcode hx hint
  obtain ⟨e, m₂, hset, he⟩ := setCond_traps .e hdst m₁
  exact ⟨e, m₂, hrun.trans hset, he⟩

end Codegen

end ExprBackend
