import ExprBackend.Proofs.FloatComparison

/-!
# Operations under every aliasing

Whatever the places of the operands and of the result have in common, the code of an operation
leaves its value where it is wanted. Apart from that place it changes only registers that no name
is given.
-/

namespace ExprBackend

open Machine

/-- Where an integer or a truth value may be: a general register that names can be given, a slot of
the frame, or the instruction itself. -/
inductive Operand.HoldsInt : Operand → Prop where
  | reg {r : Reg} {i : Fin 16} (hi : registerIndex? r.number = some i)
    (h : r ∉ Reg.reserved) : HoldsInt (.reg r)
  | slot {offset : Int} (h : InFrame offset) : HoldsInt (.mem (.slot offset))
  | imm (v : Int64) : HoldsInt (.imm v)

/-- Where a float may be wanted: a float register that is no scratch register, or a slot of the
frame. -/
inductive Operand.TakesFloat : Operand → Prop where
  | xreg {r : XReg} {i : Fin 16} (hi : registerIndex? r.number = some i)
    (h : r ≠ .compareScratch) (h' : r ≠ .scratch) : TakesFloat (.xreg r)
  | slot {offset : Int} (h : InFrame offset) : TakesFloat (.mem (.slot offset))

section Places

variable {m : Machine} {x dst : Operand} {a : UInt64}

theorem Operand.HoldsInt.isInt (h : x.HoldsInt) : x.isInt = true := by
  cases h with
  | reg hi hr => rfl
  | slot hoffset => rfl
  | imm v => rfl

theorem Operand.HoldsInt.source (h : x.HoldsInt) (hbase : aligned m.base = true)
    (ha : read x m = .ok a m) : m.Source x a := by
  cases h with
  | @reg r i hi hr =>
    have hfree : Cell.reg i ∉ Cell.reserved m.base := Cell.reg_notMem_reserved hi hr
    exact source_of_cell (c := .reg i) (by simp [Operand.cell?, hi])
      (fun hmem => hfree (Or.inl hmem)) ha
  | slot hoffset =>
    exact source_of_cell (cell?_slot hbase hoffset) (Cell.frame_notMem_temporaries _ _) ha
  | imm v =>
    cases ha
    exact ⟨rfl, fun c hc => by cases hc⟩

theorem Operand.TakesFloat.isPlace (h : dst.TakesFloat) : dst.isPlace = true := by
  cases h with
  | xreg hi h h' => rfl
  | slot hoffset => rfl

theorem Operand.TakesFloat.cell (h : dst.TakesFloat) (hbase : aligned m.base = true) :
    ∃ c, dst.cell? m.base = some c ∧ c ≠ .backup ∧ c ≠ .rbp := by
  cases h with
  | @xreg r i hi h h' =>
    exact ⟨.xreg i, by simp [Operand.cell?, hi], by simp [Cell.backup], by simp [Cell.rbp]⟩
  | slot hoffset =>
    exact ⟨_, cell?_slot hbase hoffset, by simp [Cell.frame, Cell.backup], by
      simp [Cell.frame, Cell.rbp]⟩

end Places

/-- Code that is run from its start comes to its end with a word in a place. No other register and
no other word of memory is changed, except for the cells of a set. -/
def Machine.Computes (m : Machine) (code : List Instr) (dst : Operand) (w : UInt64)
    (s : Set Cell) : Prop :=
  ∃ m', (∀ steps ≥ code.length, run (.ofList code) steps 0 m = .ok () m') ∧
    read dst m' = .ok w m' ∧ ∀ c, dst.cell? m.base ≠ some c → c ∉ s → m'.cell c = m.cell c

theorem Machine.Leaves.computes {m : Machine} {code : List Instr} {dst : Operand} {c : Cell}
    {w : UInt64} {s : Set Cell} (h : Leaves code m c w (insert c s))
    (hc : dst.cell? m.base = some c) (hne : c ≠ .rbp) (hrbp : Cell.rbp ∉ s) :
    m.Computes code dst w s := by
  obtain ⟨m', hrun, rfl, hsame⟩ := h
  have hbase : m'.base = m.base := hsame.base_eq (by simp [hne.symm, hrbp])
  refine ⟨m', fun steps hsteps => run_of_executeAll hrun hsteps, read_ok (hbase ▸ hc), ?_⟩
  intro d hd hds
  refine hsame d ?_
  rintro (rfl | hmem)
  · exact hd hc
  · exact hds hmem

theorem Cell.rbp_notMem_intTemporaries : rbp ∉ intTemporaries := by
  simp [intTemporaries]
  decide

theorem Cell.rbp_notMem_floatTemporaries : rbp ∉ floatTemporaries := by
  simp [floatTemporaries]
  decide

namespace Codegen

variable {x y dst : Operand} {m : Machine} {a b : UInt64}

theorem binary_eq_intBinary {scope : Scope} {l r : Atom} {ty : Ty} (op : BinOp) (hty : ty ≠ .float)
    (hlr : l.ty = r.ty) (hl : scope.operand l = .ok x) (hr : scope.operand r = .ok y) :
    binary scope op l r ty dst = intBinary op l.ty x y dst := by
  rw [binary, if_neg (not_not_intro hlr), if_neg hty, hl, hr]
  rfl

theorem intBinary_computes {op : BinOp} (ty : Ty) (hop : op.isDeclared = true)
    (hzero : op = .div ∨ op = .mod → b ≠ 0) (hx : x.HoldsInt) (hy : y.HoldsInt)
    (hdst : dst.TakesTruth) (hbase : aligned m.base = true) (ha : read x m = .ok a m)
    (hb : read y m = .ok b m) :
    ∃ code w, intBinary op ty x y dst = .ok code ∧ op.evalInt? a b = some w ∧
      m.Computes code dst w Cell.intTemporaries := by
  obtain ⟨w, hw⟩ : ∃ w, op.evalInt? a b = some w := by
    cases op with
    | div => exact ⟨_, if_neg (hzero (Or.inl rfl))⟩
    | mod => exact ⟨_, if_neg (hzero (Or.inr rfl))⟩
    | other symbol => cases hop
    | _ => exact ⟨_, rfl⟩
  obtain ⟨hplace, hword⟩ := hdst.isPlace
  obtain ⟨c, hc, hback, hrbp⟩ := hdst.cell hbase
  obtain ⟨code, hcode, _⟩ := intBinary_ok hop ty hx.isInt hy.isInt hplace fun _ => hword
  have hfinishes := intBinary_finishesIn hcode (hx.source hbase ha) hx.isInt (hy.source hbase hb)
    hy.isInt hc hback hrbp (fun _ => hword) hw
  exact ⟨code, w, hcode, hw,
    hfinishes.leaves.computes hc hrbp Cell.rbp_notMem_intTemporaries⟩

theorem intUnary_computes {op : UnOp} {ty : Ty} (hop : op.isDeclared = true) (hty : ty ≠ .float)
    (hx : x.HoldsInt) (hdst : dst.TakesTruth) (hbase : aligned m.base = true)
    (ha : read x m = .ok a m) :
    ∃ code w, unary op ty x dst = .ok code ∧ op.eval? ty a = some w ∧
      m.Computes code dst w Cell.intTemporaries := by
  obtain ⟨hplace, hword⟩ := hdst.isPlace
  obtain ⟨c, hc, hback, hrbp⟩ := hdst.cell hbase
  obtain ⟨code, hcode, _⟩ := unary_ok hop (fun _ => hty) (fun _ => hx.isInt)
    (fun hfloat => absurd hfloat hty) hplace fun _ => hword
  have hsource := hx.source hbase ha
  have hcomputes {w : UInt64} {s : Set Cell} (h : Leaves code m c w (insert c s))
      (hs : s ⊆ Cell.intTemporaries) : m.Computes code dst w Cell.intTemporaries :=
    (h.mono (Set.insert_subset_insert hs)).computes hc hrbp Cell.rbp_notMem_intTemporaries
  cases op with
  | neg =>
    refine ⟨code, -a, hcode, by simp only [UnOp.eval?, if_neg hty], ?_⟩
    exact hcomputes (negate_leaves hty hcode hsource hc hback hrbp) (by simp [Cell.intTemporaries])
  | not =>
    refine ⟨code, truthWord (a = 0), hcode, if_neg hty, ?_⟩
    exact hcomputes (not_leaves hty hcode hsource hx.isInt hc hword hrbp)
      (by simp [Cell.intTemporaries])
  | other symbol => cases hop

/-- For all words, all places of the operands and every place of the result, the code of an integer
operation runs to its end and leaves the value of the operation, unless it divides by 0. It uses
`rax`, `rdx` and the two general scratch registers. -/
theorem intOperation_computes (hx : x.HoldsInt) (hy : y.HoldsInt) (hdst : dst.TakesTruth)
    (hbase : aligned m.base = true) (ha : read x m = .ok a m) (hb : read y m = .ok b m) :
    (∀ (scope : Scope) (l r : Atom) (ty : Ty) (op : BinOp), scope.operand l = .ok x →
      scope.operand r = .ok y → l.ty = r.ty → ty ≠ .float → op.isDeclared = true →
      (op = .div ∨ op = .mod → b ≠ 0) →
      ∃ code w, binary scope op l r ty dst = .ok code ∧ op.evalInt? a b = some w ∧
        m.Computes code dst w {.rax, .rdx, .backup, .scratch}) ∧
    ∀ (ty : Ty) (op : UnOp), ty ≠ .float → op.isDeclared = true →
      ∃ code w, unary op ty x dst = .ok code ∧ op.eval? ty a = some w ∧
        m.Computes code dst w {.rax, .rdx, .backup, .scratch} := by
  constructor
  · intro scope l r ty op hl hr hlr hty hop hzero
    rw [binary_eq_intBinary op hty hlr hl hr]
    exact intBinary_computes l.ty hop hzero hx hy hdst hbase ha hb
  · intro ty op hty hop
    exact intUnary_computes hop hty hx hdst hbase ha

/-- The least integer divided by minus one, and negated, in its own slot. -/
theorem intOperation_computes_least :
    (∃ code, binary slotAndRegister .div (.var "a" .int) (.int (-1)) .int
        (.mem (.slot (-8))) = .ok code ∧
      (holding 1 0x8000000000000000 0).Computes code (.mem (.slot (-8))) 0x8000000000000000
        {.rax, .rdx, .backup, .scratch}) ∧
    ∃ code, unary .neg .int (.mem (.slot (-8))) (.mem (.slot (-8))) = .ok code ∧
      (holding 1 0x8000000000000000 0).Computes code (.mem (.slot (-8))) 0x8000000000000000
        {.rax, .rdx, .backup, .scratch} := by
  obtain ⟨hbinary, hunary⟩ := intOperation_computes (.slot inFrame_first) (.imm (-1))
    (.slot inFrame_first) (aligned_holding _ _ _) (read_slot_holding 1 0x8000000000000000 0) rfl
  constructor
  · obtain ⟨code, w, hcode, hw, hrun⟩ := hbinary slotAndRegister (.var "a" .int) (.int (-1)) .int
      .div rfl rfl rfl (by decide) rfl (by decide)
    obtain rfl : 0x8000000000000000 = w := Option.some.inj (hw.symm.trans (by decide)).symm
    exact ⟨code, hcode, hrun⟩
  · obtain ⟨code, w, hcode, hw, hrun⟩ := hunary .int .neg (by decide) rfl
    obtain rfl : 0x8000000000000000 = w := Option.some.inj (hw.symm.trans (by decide)).symm
    exact ⟨code, hcode, hrun⟩

theorem floatBinary_computes {op : BinOp} (ty : Ty) (hop : op.isDeclared = true) (hmod : op ≠ .mod)
    (hx : x.HoldsFloat) (hy : y.HoldsFloat) (htruth : op.isRelation = true → dst.TakesTruth)
    (hfloat : op.isRelation = false → dst.TakesFloat) (hbase : aligned m.base = true)
    (ha : read x m = .ok a m) (hb : read y m = .ok b m) :
    ∃ code w, floatBinary op ty x y dst = .ok code ∧ op.evalFloat? a b = some w ∧
      m.Computes code dst w Cell.floatTemporaries := by
  obtain ⟨hplace, hword, c, hc, hback, hrbp⟩ : dst.isPlace = true ∧
      (op.isRelation = true → dst.isXReg = false) ∧
      ∃ c, dst.cell? m.base = some c ∧ c ≠ .backup ∧ c ≠ .rbp := by
    cases hrelation : op.isRelation with
    | true =>
      obtain ⟨hplace, hword⟩ := (htruth hrelation).isPlace
      exact ⟨hplace, fun _ => hword, (htruth hrelation).cell hbase⟩
    | false =>
      have hdst := hfloat hrelation
      exact ⟨hdst.isPlace, fun h => absurd h Bool.false_ne_true, hdst.cell hbase⟩
  obtain ⟨code, hcode, _⟩ :=
    floatBinary_ok hop hmod ty hx.isFloatSource hy.isFloatSource hplace hword
  obtain ⟨w, hw, hleaves⟩ := floatBinary_leaves hcode (hx.source hbase ha) hx.isFloatSource
    (hy.source hbase hb) hy.isFloatSource hc hback hrbp hword
  exact ⟨code, w, hcode, hw, hleaves.computes hc hrbp Cell.rbp_notMem_floatTemporaries⟩

theorem floatNegate_computes (hx : x.HoldsFloat) (hdst : dst.TakesFloat)
    (hbase : aligned m.base = true) (ha : read x m = .ok a m) :
    ∃ code, unary .neg .float x dst = .ok code ∧
      m.Computes code dst (Binary64.negate a) Cell.floatTemporaries := by
  obtain ⟨c, hc, hback, hrbp⟩ := hdst.cell hbase
  obtain ⟨code, hcode, _⟩ : ∃ code, unary .neg .float x dst = .ok code ∧ AllEncodable code :=
    unary_ok rfl (fun h => by cases h) (fun h => absurd rfl h) (fun _ => hx.isFloatSource)
      hdst.isPlace fun h => absurd rfl h
  have hleaves := floatNegate_leaves rfl hcode (hx.source hbase ha) hc hback
  exact ⟨code, hcode, hleaves.computes hc hrbp Cell.rbp_notMem_floatTemporaries⟩

/-- For all words, all places of the operands and every place of the result, the code of a float
operation runs to its end and leaves what the instruction gives for the two words, or the truth
value of its predicate. Negation is the product with minus one. Only the backup register and the
two float scratch registers are used. -/
theorem floatOperation_computes (hx : x.HoldsFloat) (hy : y.HoldsFloat)
    (hbase : aligned m.base = true) (ha : read x m = .ok a m) (hb : read y m = .ok b m) :
    (∀ (scope : Scope) (l r : Atom) (op : BinOp) (dst : Operand), scope.operand l = .ok x →
      scope.operand r = .ok y → l.ty = r.ty → op.isDeclared = true → op ≠ .mod →
      (op.isRelation = true → dst.TakesTruth) → (op.isRelation = false → dst.TakesFloat) →
      ∃ code w, binary scope op l r .float dst = .ok code ∧ op.evalFloat? a b = some w ∧
        m.Computes code dst w {.backup, .compareScratch, .floatScratch}) ∧
    ∀ dst : Operand, dst.TakesFloat →
      ∃ code, unary .neg .float x dst = .ok code ∧
        m.Computes code dst (Binary64.negate a) {.backup, .compareScratch, .floatScratch} := by
  constructor
  · intro scope l r op dst hl hr hlr hop hmod htruth hfloat
    rw [binary_eq_floatBinary op rfl hlr hl hr hx.isFloatSource hy.isFloatSource]
    exact floatBinary_computes l.ty hop hmod hx hy htruth hfloat hbase ha hb
  · intro dst hdst
    exact floatNegate_computes hx hdst hbase ha

/-- One divided by a zero that its result replaces, and one that is not greater than it. -/
theorem floatOperation_computes_one :
    (∃ code, binary slotAndRegister .div (.var "b" .float) (.var "a" .float) .float
        (.mem (.slot (-8))) = .ok code ∧
      (holding 1 0x8000000000000000 0x3ff0000000000000).Computes code (.mem (.slot (-8)))
        0xfff0000000000000 {.backup, .compareScratch, .floatScratch}) ∧
    (∃ code, binary slotAndRegister .lessEq (.var "b" .float) (.var "a" .float) .float
        (.mem (.slot (-8))) = .ok code ∧
      (holding 1 0x8000000000000000 0x3ff0000000000000).Computes code (.mem (.slot (-8))) 0
        {.backup, .compareScratch, .floatScratch}) ∧
    ∃ code, unary .neg .float (.xreg ⟨1⟩) (.xreg ⟨1⟩) = .ok code ∧
      (holding 1 0x8000000000000000 0x3ff0000000000000).Computes code (.xreg ⟨1⟩)
        0xbff0000000000000 {.backup, .compareScratch, .floatScratch} := by
  have hregister : registerIndex? (⟨1⟩ : XReg).number = some 1 := rfl
  obtain ⟨hbinary, hunary⟩ := floatOperation_computes (x := .xreg ⟨1⟩) (.xreg hregister (by decide))
    (.slot inFrame_first) (aligned_holding _ _ _)
    (read_register_holding hregister 0x8000000000000000 0x3ff0000000000000)
    (read_slot_holding 1 0x8000000000000000 0x3ff0000000000000)
  refine ⟨?_, ?_, ?_⟩
  · obtain ⟨code, w, hcode, hw, hrun⟩ := hbinary slotAndRegister (.var "b" .float) (.var "a" .float)
      .div (.mem (.slot (-8))) rfl rfl rfl rfl (by decide) (fun h => by cases h)
      fun _ => .slot inFrame_first
    obtain rfl : 0xfff0000000000000 = w := Option.some.inj (hw.symm.trans (by decide +kernel)).symm
    exact ⟨code, hcode, hrun⟩
  · obtain ⟨code, w, hcode, hw, hrun⟩ := hbinary slotAndRegister (.var "b" .float) (.var "a" .float)
      .lessEq (.mem (.slot (-8))) rfl rfl rfl rfl (by decide) (fun _ => .slot inFrame_first)
      fun h => by cases h
    obtain rfl : 0 = w := Option.some.inj (hw.symm.trans (by decide +kernel)).symm
    exact ⟨code, hcode, hrun⟩
  · obtain ⟨code, hcode, hrun⟩ := hunary (.xreg ⟨1⟩) (.xreg hregister (by decide) (by decide))
    have hone : Binary64.negate 0x3ff0000000000000 = 0xbff0000000000000 := by decide +kernel
    exact ⟨code, hcode, hone ▸ hrun⟩

end Codegen

end ExprBackend
