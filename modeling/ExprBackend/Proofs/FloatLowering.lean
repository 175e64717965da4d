import ExprBackend.Proofs.IntLowering

/-!
# Float operations

Operands are float registers and memory. Arithmetic is done in one scratch register, comparisons
in another, from which the mask of a comparison is moved out and cut down to a truth value.
-/

namespace ExprBackend

open Machine

theorem Machine.Source.floatCell {m : Machine} {x : Operand} {a : UInt64} (hx : m.Source x a)
    (h : isFloatSource x = true) :
    ∃ d, x.cell? m.base = some d ∧ m.cell d = a ∧ d ∉ Cell.temporaries := by
  cases x with
  | xreg s =>
    obtain ⟨d, hd, hw⟩ := Option.map_eq_some_iff.1 hx.value
    exact ⟨d, hd, hw, hx.stable d hd⟩
  | mem z =>
    obtain ⟨d, hd, hw⟩ := Option.map_eq_some_iff.1 hx.value
    exact ⟨d, hd, hw, hx.stable d hd⟩
  | reg s => cases h
  | imm v => cases h
  | fimm bits => cases h
  | absent => cases h

def Cell.floatTemporaries : Set Cell := {.backup, .compareScratch, .floatScratch}

theorem Cell.floatTemporaries_subset : floatTemporaries ⊆ temporaries := by
  simp [Set.insert_subset_iff, floatTemporaries, temporaries]

theorem Cell.rax_notMem_floatTemporaries : rax ∉ floatTemporaries := by
  simp [floatTemporaries]
  decide

namespace Codegen

variable {m : Machine} {l r x dst : Operand} {a b w : UInt64} {c : Cell} {code : List Instr}

theorem floatOperand_eq_ok {which : String} {y : Operand} (h : floatOperand which x = .ok y) :
    y = x ∧ isFloatSource x = true := by
  cases x with
  | xreg s =>
    cases h
    exact ⟨rfl, rfl⟩
  | mem z =>
    cases h
    exact ⟨rfl, rfl⟩
  | reg s => cases h
  | imm v => cases h
  | fimm bits => cases h
  | absent => cases h

theorem execute_movsd_xreg {s : XReg} {i : Fin 16} {d : Cell}
    (hs : registerIndex? s.number = some i) (hd : x.cell? m.base = some d) :
    execute (.movsd (.xreg s) x) m = .ok () (m.setCell (.xreg i) (m.cell d)) :=
  execute_movsd rfl rfl (by rw [Operand.cell?, hs, Option.map_some]) hd

theorem changesOnly_floatScratch {s : Set Cell} (hs : Cell.floatScratch ∈ s) (m : Machine)
    (w : UInt64) : ChangesOnly s m (m.setCell .floatScratch w) :=
  (ChangesOnly.refl s m).setCell hs w

/-- Arithmetic with the first operand already in the scratch register. -/
theorem floatArith_leaves {fop : FloatOp} {f : UInt64 → UInt64 → UInt64} {rest : List Instr}
    (hf : floatFunction? fop = some f) (ha : m.cell .floatScratch = a) (hr : m.Source r b)
    (hfloat : isFloatSource r = true) (hmove : move dst (.xreg .scratch) = .ok rest)
    (hc : dst.cell? m.base = some c) (hback : c ≠ .backup) :
    Leaves (.farith fop .scratch r :: rest) m c (f a b) {c, .backup, .floatScratch} := by
  obtain ⟨d, hd, rfl, _⟩ := hr.floatCell hfloat
  have harith : execute (.farith fop .scratch r) m =
      .ok () (m.setCell .floatScratch (f a (m.cell d))) := by
    rw [← ha]
    exact execute_farith hfloat rfl hd hf
  have hbase : (m.setCell .floatScratch (f a (m.cell d))).base = m.base :=
    base_setCell (by decide) m _
  have hrest := move_leaves (w := f a (m.cell d)) hmove (hbase.symm ▸ hc) hback
    ((value?_of_cell? (c := .floatScratch) rfl).trans (congrArg some (cell_setCell_self m _ _)))
  exact .cons harith (changesOnly_floatScratch (by simp) m _)
    (hrest.mono (by simp [Set.insert_subset_iff]))

theorem floatScratch_subset (c : Cell) :
    ({c, .backup, .floatScratch} : Set Cell) ⊆ insert c Cell.floatTemporaries := by
  simp [Set.insert_subset_iff, Cell.floatTemporaries]

theorem floatArithmetic_leaves {op : BinOp} {ty : Ty} {fop : FloatOp}
    {f : UInt64 → UInt64 → UInt64} (hop : floatOp? op = some fop)
    (hf : floatFunction? fop = some f) (hcode : floatBinary op ty l r dst = .ok code)
    (hl : m.Source l a) (hlfloat : isFloatSource l = true) (hr : m.Source r b)
    (hrfloat : isFloatSource r = true) (hc : dst.cell? m.base = some c) (hback : c ≠ .backup) :
    Leaves code m c (f a b) (insert c Cell.floatTemporaries) := by
  simp only [floatBinary, hop] at hcode
  obtain ⟨rest, hmove, h⟩ := Except.bind_eq_ok.1 hcode
  obtain rfl := Except.ok.inj h
  obtain ⟨d, hd, rfl, _⟩ := hl.floatCell hlfloat
  have hload : execute (.movsd (.xreg .scratch) l) m =
      .ok () (m.setCell .floatScratch (m.cell d)) := execute_movsd_xreg rfl hd
  have hsame := changesOnly_floatScratch (s := Cell.temporaries) (by simp [Cell.temporaries]) m
    (m.cell d)
  have hbase : (m.setCell .floatScratch (m.cell d)).base = m.base := base_setCell (by decide) m _
  have hrest := floatArith_leaves hf (cell_setCell_self m _ (m.cell d)) (hr.after hsame) hrfloat
    hmove (hbase.symm ▸ hc) hback
  exact (Leaves.cons hload (changesOnly_floatScratch (by simp) m _) hrest).mono
    (floatScratch_subset c)

theorem floatNegate_leaves {ty : Ty} (hty : ty = .float)
    (hcode : unary .neg ty x dst = .ok code) (hx : m.Source x a)
    (hc : dst.cell? m.base = some c) (hback : c ≠ .backup) :
    Leaves code m c (Binary64.negate a) (insert c Cell.floatTemporaries) := by
  simp only [unary, hty, if_true] at hcode
  obtain ⟨y, hy, hmoves⟩ := Except.bind_eq_ok.1 hcode
  obtain ⟨rfl, hfloat⟩ := floatOperand_eq_ok hy
  obtain ⟨first, hfirst, hlast⟩ := Except.bind_eq_ok.1 hmoves
  obtain ⟨rest, hrest, h⟩ := Except.bind_eq_ok.1 hlast
  obtain rfl := Except.ok.inj h
  obtain ⟨m₁, hrun, hone, hsame⟩ := move_leaves (m := m) (c := .floatScratch) hfirst rfl
    (by decide) rfl
  have hbase : m₁.base = m.base := hsame.base_eq (by simp; decide)
  have hx₁ : m₁.Source y a := hx.after (hsame.mono (by simp [Set.insert_subset_iff, Cell.temporaries]))
  have hmul : floatFunction? .mul = some Binary64.mul := rfl
  have hleaves := floatArith_leaves hmul hone hx₁ hfloat hrest (hbase.symm ▸ hc) hback
  exact (Leaves.append hrun (hsame.mono (by simp [Set.insert_subset_iff])) hleaves).mono
    (floatScratch_subset c)

theorem floatNegate_finishes {ty : Ty} (hty : ty = .float)
    (hcode : unary .neg ty x dst = .ok code) (hx : m.Source x a)
    (hc : dst.cell? m.base = some c) (hback : c ≠ .backup) :
    Finishes code m c (Binary64.negate a) (m.cell .rax) :=
  (floatNegate_leaves hty hcode hx hc hback).finishes Cell.floatTemporaries_subset
    Cell.rax_notMem_floatTemporaries

/-- The second operand of a comparison, which is not compared in memory. -/
def inFloatReg (r : Operand) : List Instr × Operand :=
  if r.isMem then ([.movsd (.xreg .scratch) r], .xreg .scratch) else ([], r)

theorem floatCompare_eq_ok {pred : Predicate} (h : floatCompare pred l r dst = .ok code) :
    ∃ rest, move dst (.xreg .compareScratch) = .ok rest ∧
      code = .movsd (.xreg .compareScratch) l :: ((inFloatReg r).1 ++
        Instr.cmpsd .compareScratch (inFloatReg r).2 pred :: (rest ++ [Instr.and dst (.imm 1)])) := by
  have hcode : floatCompare pred l r dst = (move dst (.xreg .compareScratch) >>= fun rest =>
      pure (Instr.movsd (.xreg .compareScratch) l :: (inFloatReg r).1 ++
        Instr.cmpsd .compareScratch (inFloatReg r).2 pred :: rest ++ [Instr.and dst (.imm 1)])) := rfl
  rw [hcode] at h
  obtain ⟨rest, hmove, h⟩ := Except.bind_eq_ok.1 h
  refine ⟨rest, hmove, ?_⟩
  rw [← Except.ok.inj h]
  simp

theorem inFloatReg_ok (hr : m.Source r b) (hfloat : isFloatSource r = true) :
    ∃ m' d, executeAll (inFloatReg r).1 m = .ok () m' ∧ ChangesOnly {.floatScratch} m m' ∧
      (inFloatReg r).2.cell? m'.base = some d ∧ m'.cell d = b ∧
      isFloatSource (inFloatReg r).2 = true := by
  obtain ⟨d, hd, hw, _⟩ := hr.floatCell hfloat
  by_cases hmem : r.isMem = true
  · simp only [inFloatReg, hmem, if_true]
    have hload : execute (.movsd (.xreg .scratch) r) m =
        .ok () (m.setCell .floatScratch (m.cell d)) := execute_movsd_xreg rfl hd
    refine ⟨_, .floatScratch, executeAll_cons hload [], ?_, rfl, ?_, rfl⟩
    · exact changesOnly_floatScratch (Set.mem_singleton _) m _
    · rw [cell_setCell_self, hw]
  · simp only [inFloatReg, hmem]
    exact ⟨m, d, rfl, .refl _ m, hd, hw, hfloat⟩

/-- The mask of a comparison in the destination. -/
theorem floatCompare_mask {pred : Predicate} {rel : UInt64 → UInt64 → Bool}
    (hrel : relation? pred = some rel) (hcode : floatCompare pred l r dst = .ok code)
    (hl : m.Source l a) (hlfloat : isFloatSource l = true) (hr : m.Source r b)
    (hrfloat : isFloatSource r = true) (hc : dst.cell? m.base = some c) (hback : c ≠ .backup) :
    ∃ m', executeAll code m = executeAll [.and dst (.imm 1)] m' ∧ m'.cell c = maskOf (rel a b) ∧
      ChangesOnly {c, .backup, .compareScratch, .floatScratch} m m' := by
  obtain ⟨rest, hmove, rfl⟩ := floatCompare_eq_ok hcode
  obtain ⟨d, hd, rfl, _⟩ := hl.floatCell hlfloat
  have hload : execute (.movsd (.xreg .compareScratch) l) m =
      .ok () (m.setCell .compareScratch (m.cell d)) := execute_movsd_xreg rfl hd
  have hsame (s : Set Cell) (hs : Cell.compareScratch ∈ s) :
      ChangesOnly s m (m.setCell .compareScratch (m.cell d)) :=
    (ChangesOnly.refl s m).setCell hs _
  obtain ⟨m₁, e, hrun, hsame₁, he, hb, hfloat⟩ :=
    inFloatReg_ok (hr.after (hsame _ (by simp [Cell.temporaries]))) hrfloat
  have ha : m₁.cell .compareScratch = m.cell d := by
    rw [hsame₁ _ (by simp; decide), cell_setCell_self]
  have hcmp : execute (.cmpsd .compareScratch (inFloatReg r).2 pred) m₁ =
      .ok () (m₁.setCell .compareScratch (maskOf (rel (m.cell d) b))) := by
    rw [← ha, ← hb]
    exact execute_cmpsd hfloat rfl he hrel
  obtain ⟨m₂, hm₂⟩ : ∃ m₂, m₂ = m₁.setCell .compareScratch (maskOf (rel (m.cell d) b)) := ⟨_, rfl⟩
  have hsame₂ : ChangesOnly {.compareScratch, .floatScratch} m m₂ := by
    rw [hm₂]
    exact ((hsame _ (by simp)).trans (hsame₁.mono (by simp))).setCell (by simp) _
  have hbase : m₂.base = m.base := hsame₂.base_eq (by simp; decide)
  have hvalue : m₂.value? (.xreg .compareScratch) = some (maskOf (rel (m.cell d) b)) :=
    (value?_of_cell? (c := .compareScratch) rfl).trans
      (congrArg some (by rw [hm₂, cell_setCell_self]))
  obtain ⟨m₃, hrest, hw, hsame₃⟩ := move_leaves hmove (hbase.symm ▸ hc) hback hvalue
  refine ⟨m₃, ?_, hw, (hsame₂.mono ?_).trans (hsame₃.mono ?_)⟩
  · rw [executeAll_cons hload, executeAll_append hrun, executeAll_cons hcmp, ← hm₂,
      executeAll_append hrest]
  · simp [Set.insert_subset_iff]
  · simp [Set.insert_subset_iff]

theorem maskOf_and_one (t : Bool) : maskOf t &&& 1 = truthWord t := by
  cases t <;> decide

theorem floatCompare_leaves {pred : Predicate} {rel : UInt64 → UInt64 → Bool}
    (hrel : relation? pred = some rel) (hcode : floatCompare pred l r dst = .ok code)
    (hl : m.Source l a) (hlfloat : isFloatSource l = true) (hr : m.Source r b)
    (hrfloat : isFloatSource r = true) (hc : dst.cell? m.base = some c) (hback : c ≠ .backup)
    (hrbp : c ≠ .rbp) (hx : dst.isXReg = false) :
    Leaves code m c (truthWord (rel a b)) (insert c Cell.floatTemporaries) := by
  obtain ⟨m₁, hrun, hmask, hsame⟩ :=
    floatCompare_mask hrel hcode hl hlfloat hr hrfloat hc hback
  have hbase : m₁.base = m.base := hsame.base_eq (by simp [hrbp.symm]; decide)
  have henc : encodable dst (.imm 1) false = true := by
    cases dst with
    | reg s => rfl
    | mem y => rfl
    | xreg s => cases hx
    | imm v => cases hc
    | fimm bits => cases hc
    | absent => cases hc
  have hand : execute (.and dst (.imm 1)) m₁ = .ok () (m₁.setCell c (truthWord (rel a b))) := by
    rw [← maskOf_and_one, ← hmask]
    exact combine_ok (· &&& ·) henc (hbase.symm ▸ hc) rfl
  exact ⟨_, hrun.trans (executeAll_cons hand []), cell_setCell_self m₁ c _,
    hsame.setCell (Set.mem_insert c _) _⟩

theorem floatCompare_finishes {pred : Predicate} {rel : UInt64 → UInt64 → Bool}
    (hrel : relation? pred = some rel) (hcode : floatCompare pred l r dst = .ok code)
    (hl : m.Source l a) (hlfloat : isFloatSource l = true) (hr : m.Source r b)
    (hrfloat : isFloatSource r = true) (hc : dst.cell? m.base = some c) (hback : c ≠ .backup)
    (hrbp : c ≠ .rbp) (hx : dst.isXReg = false) :
    Finishes code m c (truthWord (rel a b)) (m.cell .rax) :=
  (floatCompare_leaves hrel hcode hl hlfloat hr hrfloat hc hback hrbp hx).finishes
    Cell.floatTemporaries_subset Cell.rax_notMem_floatTemporaries

theorem floatCompare_misplaced {pred : Predicate} {rel : UInt64 → UInt64 → Bool}
    (hrel : relation? pred = some rel) (hcode : floatCompare pred l r dst = .ok code)
    (hl : m.Source l a) (hlfloat : isFloatSource l = true) (hr : m.Source r b)
    (hrfloat : isFloatSource r = true) (hc : dst.cell? m.base = some c) (hback : c ≠ .backup)
    (hx : dst.isXReg = true) : Traps code m := by
  obtain ⟨m₁, hrun, _⟩ := floatCompare_mask hrel hcode hl hlfloat hr hrfloat hc hback
  cases dst with
  | xreg s => exact ⟨_, m₁, hrun.trans (executeAll_cons_error rfl _), by simp⟩
  | reg s => cases hx
  | mem y => cases hx
  | imm v => cases hx
  | fimm bits => cases hx
  | absent => cases hx

theorem floatOp?_eval {op : BinOp} {fop : FloatOp} (h : floatOp? op = some fop) :
    ∃ f, floatFunction? fop = some f ∧ ∀ a b, op.evalFloat? a b = some (f a b) := by
  cases op <;> cases h <;> exact ⟨_, rfl, fun _ _ => rfl⟩

theorem predicate?_eval {op : BinOp} {pred : Predicate} (h : predicate? op = some pred) :
    ∃ rel, relation? pred = some rel ∧ ∀ a b, op.evalFloat? a b = some (truthWord (rel a b)) := by
  cases op <;> cases h <;> exact ⟨_, rfl, fun _ _ => rfl⟩

theorem isRelation_eq_isSome_predicate? (op : BinOp) : op.isRelation = (predicate? op).isSome := by
  cases op <;> rfl

/-- A float operation is arithmetic or a comparison. -/
theorem floatBinary_cases {op : BinOp} {ty : Ty} (hcode : floatBinary op ty l r dst = .ok code) :
    (∃ fop, floatOp? op = some fop ∧ op.isRelation = false) ∨
      ∃ pred, predicate? op = some pred ∧ floatCompare pred l r dst = .ok code := by
  cases op with
  | mod => cases hcode
  | other s => cases hcode
  | plus => exact Or.inl ⟨_, rfl, rfl⟩
  | minus => exact Or.inl ⟨_, rfl, rfl⟩
  | times => exact Or.inl ⟨_, rfl, rfl⟩
  | div => exact Or.inl ⟨_, rfl, rfl⟩
  | _ => exact Or.inr ⟨_, rfl, hcode⟩

/-- The code of a float operation leaves its value in the destination. -/
theorem floatBinary_leaves {op : BinOp} {ty : Ty} (hcode : floatBinary op ty l r dst = .ok code)
    (hl : m.Source l a) (hlfloat : isFloatSource l = true) (hr : m.Source r b)
    (hrfloat : isFloatSource r = true) (hc : dst.cell? m.base = some c) (hback : c ≠ .backup)
    (hrbp : c ≠ .rbp) (hx : op.isRelation = true → dst.isXReg = false) :
    ∃ w, op.evalFloat? a b = some w ∧ Leaves code m c w (insert c Cell.floatTemporaries) := by
  rcases floatBinary_cases hcode with ⟨fop, hfop, _⟩ | ⟨pred, hpred, hcompare⟩
  · obtain ⟨f, hf, heval⟩ := floatOp?_eval hfop
    exact ⟨_, heval a b, floatArithmetic_leaves hfop hf hcode hl hlfloat hr hrfloat hc hback⟩
  · obtain ⟨rel, hrel, heval⟩ := predicate?_eval hpred
    have hop : op.isRelation = true := by rw [isRelation_eq_isSome_predicate?, hpred]; rfl
    exact ⟨_, heval a b, floatCompare_leaves hrel hcompare hl hlfloat hr hrfloat hc hback hrbp
      (hx hop)⟩

theorem floatBinary_finishes {op : BinOp} {ty : Ty} (hcode : floatBinary op ty l r dst = .ok code)
    (hl : m.Source l a) (hlfloat : isFloatSource l = true) (hr : m.Source r b)
    (hrfloat : isFloatSource r = true) (hc : dst.cell? m.base = some c) (hback : c ≠ .backup)
    (hrbp : c ≠ .rbp) (hx : op.isRelation = true → dst.isXReg = false) :
    ∃ w, op.evalFloat? a b = some w ∧ Finishes code m c w (m.cell .rax) := by
  obtain ⟨w, hw, hleaves⟩ :=
    floatBinary_leaves hcode hl hlfloat hr hrfloat hc hback hrbp hx
  exact ⟨w, hw, hleaves.finishes Cell.floatTemporaries_subset Cell.rax_notMem_floatTemporaries⟩

/-- The result of a comparison can not be made in a float register. -/
theorem floatBinary_misplaced {op : BinOp} {ty : Ty}
    (hcode : floatBinary op ty l r dst = .ok code) (hl : m.Source l a)
    (hlfloat : isFloatSource l = true) (hr : m.Source r b) (hrfloat : isFloatSource r = true)
    (hc : dst.cell? m.base = some c) (hback : c ≠ .backup) (hop : op.isRelation = true)
    (hx : dst.isXReg = true) : Traps code m := by
  rcases floatBinary_cases hcode with ⟨fop, _, hno⟩ | ⟨pred, hpred, hcompare⟩
  · rw [hop] at hno
    cases hno
  · obtain ⟨rel, hrel, _⟩ := predicate?_eval hpred
    exact floatCompare_misplaced hrel hcompare hl hlfloat hr hrfloat hc hback hx

end Codegen

end ExprBackend
