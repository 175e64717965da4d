import ExprBackend.Proofs.FloatOrder
import ExprBackend.Proofs.Generation

/-!
# Float comparisons

What the code of a comparison leaves behind, against the order of the numbers that its operands
stand for. Greater and greater or equal are the negations of the opposite relations, and that is
seen when an operand is a not-a-number: no relation but being different should hold then, and these
two do.
-/

namespace ExprBackend

open Machine

namespace Binary64

def Unordered (a b : UInt64) : Prop := isNaN a = true ∨ isNaN b = true

instance (a b : UInt64) : Decidable (Unordered a b) := inferInstanceAs (Decidable (_ ∨ _))

theorem number?_eq_none_iff (w : UInt64) : number? w = none ↔ isNaN w = true := by
  unfold number?
  split
  next h => simp [h]
  next h => split <;> simp [h]

theorem unordered_iff (a b : UInt64) : Unordered a b ↔ number? a = none ∨ number? b = none := by
  rw [number?_eq_none_iff, number?_eq_none_iff, Unordered]

theorem unordered_comm (a b : UInt64) : Unordered a b ↔ Unordered b a := Or.comm

end Binary64

open Binary64

namespace BinOp

/-- The relation of a comparison between numbers. -/
def RelatesNumbers : BinOp → Extended → Extended → Prop
  | .less, x, y => x < y
  | .lessEq, x, y => x ≤ y
  | .greater, x, y => y < x
  | .greaterEq, x, y => y ≤ x
  | .eq, x, y => x = y
  | .notEq, x, y => x ≠ y
  | _, _, _ => False

instance (op : BinOp) (x y : Extended) : Decidable (op.RelatesNumbers x y) :=
  match op with
  | .less => inferInstanceAs (Decidable (x < y))
  | .lessEq => inferInstanceAs (Decidable (x ≤ y))
  | .greater => inferInstanceAs (Decidable (y < x))
  | .greaterEq => inferInstanceAs (Decidable (y ≤ x))
  | .eq => inferInstanceAs (Decidable (x = y))
  | .notEq => inferInstanceAs (Decidable (x ≠ y))
  | .plus | .minus | .times | .div | .mod | .other _ => inferInstanceAs (Decidable False)

/-- The relation of a comparison between floats. A not-a-number is different from everything and in
no other relation. -/
def Relates (op : BinOp) (a b : UInt64) : Prop :=
  match number? a, number? b with
  | some x, some y => op.RelatesNumbers x y
  | _, _ => op = .notEq

instance (op : BinOp) (a b : UInt64) : Decidable (op.Relates a b) :=
  match ha : number? a, hb : number? b with
  | some x, some y => decidable_of_iff (op.RelatesNumbers x y) (by rw [Relates, ha, hb])
  | some _, none => decidable_of_iff (op = .notEq) (by rw [Relates, ha, hb])
  | none, _ => decidable_of_iff (op = .notEq) (by rw [Relates, ha])

def swapped : BinOp → BinOp
  | .less => .greater
  | .lessEq => .greaterEq
  | .greater => .less
  | .greaterEq => .lessEq
  | op => op

def isDescending : BinOp → Bool
  | .greater | .greaterEq => true
  | _ => false

variable {op : BinOp} {a b : UInt64}

theorem relates_of_unordered (h : Unordered a b) : op.Relates a b ↔ op = .notEq := by
  rw [unordered_iff] at h
  unfold Relates
  rcases h with h | h
  · rw [h]
  · rw [h]
    cases number? a <;> rfl

theorem relates_swapped : op.swapped.Relates b a ↔ op.Relates a b := by
  unfold Relates
  cases number? a <;> cases number? b <;> cases op <;>
    simp [swapped, RelatesNumbers, eq_comm (a := (_ : Extended))]

theorem isRelation_swapped (op : BinOp) : op.swapped.isRelation = op.isRelation := by
  cases op <;> rfl

/-- What the code of a comparison finds, as it goes by the predicate of the instruction. -/
def Reports (op : BinOp) (a b : UInt64) : Prop :=
  op.Relates a b ∨ op.isDescending = true ∧ Unordered a b

instance (op : BinOp) (a b : UInt64) : Decidable (op.Reports a b) :=
  inferInstanceAs (Decidable (_ ∨ _ ∧ _))

/-- A predicate is true where the relation holds, and the negations also without an order. -/
theorem predicate_reports {pred : Predicate} {rel : UInt64 → UInt64 → Bool}
    (hpred : Codegen.predicate? op = some pred) (hrel : relation? pred = some rel) :
    rel a b = true ↔ op.Reports a b := by
  have hunordered := unordered_iff a b
  -- one goal for each operator, in which both sides only speak of the numbers of the two words
  cases op <;> cases hpred <;> cases hrel <;>
    simp only [Reports, Relates, hunordered, isDescending, Bool.not_eq_true', ← Bool.not_eq_true,
      lt_iff, le_iff, eq_iff] <;>
    cases number? a <;> cases number? b <;> simp [RelatesNumbers, eq_comm (a := (_ : Extended))]

/-- Exchanging operator and operands changes what is found only for words without an order. -/
theorem reports_swapped_iff (hop : op.isRelation = true) :
    (op.Reports a b ↔ op.swapped.Reports b a) ↔ (¬ Unordered a b ∨ op.swapped = op) := by
  unfold Reports
  rw [relates_swapped, unordered_comm b a]
  by_cases h : Unordered a b
  · rw [relates_of_unordered h]
    cases op <;> cases hop <;> simp [h, swapped, isDescending]
  · simp [h]

end BinOp

/-- Where a float may be held: a float register that names can be given, or a slot of the frame. -/
inductive Operand.HoldsFloat : Operand → Prop where
  | xreg {r : XReg} {i : Fin 16} (hi : registerIndex? r.number = some i)
    (h : r ∉ XReg.reserved) : HoldsFloat (.xreg r)
  | slot {offset : Int} (h : InFrame offset) : HoldsFloat (.mem (.slot offset))

/-- Where a truth value may be wanted: a general register that names can be given, the register of
the result, or a slot of the frame. -/
inductive Operand.TakesTruth : Operand → Prop where
  | reg {r : Reg} {i : Fin 16} (hi : registerIndex? r.number = some i)
    (h : r ∉ Reg.reserved) : TakesTruth (.reg r)
  | result : TakesTruth (.reg .rax)
  | slot {offset : Int} (h : InFrame offset) : TakesTruth (.mem (.slot offset))

section Places

variable {m : Machine} {x dst : Operand} {a : UInt64}

theorem Operand.HoldsFloat.isFloatSource (h : x.HoldsFloat) : isFloatSource x = true := by
  cases h with
  | xreg hi hr => rfl
  | slot hoffset => rfl

theorem Machine.source_of_cell {c : Cell} (hc : x.cell? m.base = some c)
    (hfree : c ∉ Cell.temporaries) (ha : read x m = .ok a m) : m.Source x a := by
  rw [read_ok hc] at ha
  cases ha
  refine ⟨value?_of_cell? hc, fun d hd => ?_⟩
  rw [← Option.some.inj (hc.symm.trans hd)]
  exact hfree

theorem Cell.frame_notMem_temporaries (base : Int64) (offset : Int) :
    Cell.frame base offset ∉ Cell.temporaries := by
  simp [temporaries, frame, rax, rdx, backup, scratch, compareScratch, floatScratch]

theorem Operand.HoldsFloat.source (h : x.HoldsFloat) (hbase : aligned m.base = true)
    (ha : read x m = .ok a m) : m.Source x a := by
  cases h with
  | @xreg r i hi hr =>
    have hfree : Cell.xreg i ∉ Cell.reserved m.base := Cell.xreg_notMem_reserved hi hr
    exact source_of_cell (c := .xreg i) (by simp [Operand.cell?, hi])
      (fun hmem => hfree (Or.inl hmem)) ha
  | slot hoffset =>
    exact source_of_cell (cell?_slot hbase hoffset) (Cell.frame_notMem_temporaries _ _) ha

theorem Operand.TakesTruth.isPlace (h : dst.TakesTruth) :
    dst.isPlace = true ∧ dst.isXReg = false := by
  cases h with
  | reg hi hr => exact ⟨rfl, rfl⟩
  | result => exact ⟨rfl, rfl⟩
  | slot hoffset => exact ⟨rfl, rfl⟩

theorem Operand.TakesTruth.cell (h : dst.TakesTruth) (hbase : aligned m.base = true) :
    ∃ c, dst.cell? m.base = some c ∧ c ≠ .backup ∧ c ≠ .rbp := by
  cases h with
  | @reg r i hi hr =>
    have hfree : Cell.reg i ∉ Cell.reserved m.base := Cell.reg_notMem_reserved hi hr
    refine ⟨.reg i, by simp [Operand.cell?, hi], ?_, ?_⟩
    · intro h
      exact hfree (h ▸ Or.inl (by simp [Cell.temporaries]))
    · intro h
      exact hfree (h ▸ Or.inr (by simp [Cell.fixed]))
  | result => exact ⟨.rax, rfl, by decide, by decide⟩
  | slot hoffset =>
    exact ⟨_, cell?_slot hbase hoffset, by simp [Cell.frame, Cell.backup], by
      simp [Cell.frame, Cell.rbp]⟩

end Places

/-- Code that is run from its start comes to its end with a word in a place. -/
def Machine.Delivers (m : Machine) (code : List Instr) (dst : Operand) (w : UInt64) : Prop :=
  ∀ steps ≥ code.length, ∃ m', run (.ofList code) steps 0 m = .ok () m' ∧ read dst m' = .ok w m'

theorem Machine.run_of_executeAll {m m' : Machine} {xs : List Instr}
    (h : executeAll xs m = .ok () m') {steps : Nat} (hsteps : xs.length ≤ steps) :
    run (.ofList xs) steps 0 m = .ok () m' := by
  obtain ⟨n, hn, hrun, _⟩ := reaches_of_executeAll (Code.at_ofList rfl) h
  obtain ⟨d, rfl⟩ := Nat.exists_eq_add_of_le (show n ≤ steps by omega)
  have hend : ¬ ((0 + xs.length : Nat) : Int) < (Code.ofList xs).instrs.size := by
    simp [Code.ofList]
  rw [Nat.add_comm n d]
  refine (hrun d).trans ?_
  cases d with
  | zero => exact if_neg hend
  | succ d => exact if_neg hend

theorem Machine.Finishes.delivers {m : Machine} {code : List Instr} {dst : Operand} {c : Cell}
    {w rax : UInt64} (h : Finishes code m c w rax) (hc : dst.cell? m.base = some c)
    (hrbp : c ≠ .rbp) : m.Delivers code dst w := by
  obtain ⟨m', hrun, rfl, _, hsame⟩ := h
  intro steps hsteps
  refine ⟨m', run_of_executeAll hrun hsteps, ?_⟩
  have hbase : m'.base = m.base := by
    apply hsame.base_eq
    simp [Cell.temporaries, hrbp.symm]
    decide
  exact read_ok (hbase ▸ hc)

namespace Codegen

variable {scope : Scope} {op : BinOp} {l r : Atom} {x y dst : Operand} {m : Machine}
  {a b : UInt64}

/-- A comparison of two floats has code, and a run of it ends with what it finds. -/
theorem comparison_reports (hop : op.isRelation = true) (hl : l.ty = .float) (hr : r.ty = .float)
    (hx : scope.operand l = .ok x) (hy : scope.operand r = .ok y) (hxfloat : x.HoldsFloat)
    (hyfloat : y.HoldsFloat) (hdst : dst.TakesTruth) (hbase : aligned m.base = true)
    (ha : read x m = .ok a m) (hb : read y m = .ok b m) :
    ∃ code, binary scope op l r .float dst = .ok code ∧
      m.Delivers code dst (truthWord (op.Reports a b)) := by
  obtain ⟨pred, hpred⟩ : ∃ pred, predicate? op = some pred := by
    rw [isRelation_eq_isSome_predicate?] at hop
    exact Option.isSome_iff_exists.1 hop
  obtain ⟨rel, hrel, _⟩ := predicate?_eval hpred
  obtain ⟨hplace, hword⟩ := hdst.isPlace
  obtain ⟨c, hc, hback, hrbp⟩ := hdst.cell hbase
  obtain ⟨code, hcode, _⟩ := floatCompare_ok pred hxfloat.isFloatSource hyfloat.isFloatSource
    (isWord_of_isPlace hplace hword)
  have hbinary : binary scope op l r .float dst = floatCompare pred x y dst := by
    rw [binary_eq_floatBinary op rfl (hl.trans hr.symm) hx hy hxfloat.isFloatSource
      hyfloat.isFloatSource]
    cases op <;> cases hpred <;> rfl
  refine ⟨code, hbinary.trans hcode, ?_⟩
  have hfinishes := floatCompare_finishes hrel hcode (hxfloat.source hbase ha)
    hxfloat.isFloatSource (hyfloat.source hbase hb) hyfloat.isFloatSource hc hback hrbp hword
  have hreports : rel a b = decide (op.Reports a b) := by
    rw [Bool.eq_iff_iff, decide_eq_true_iff, BinOp.predicate_reports hpred hrel]
  exact hreports ▸ hfinishes.delivers hc hrbp

theorem truthWord_inj {p q : Bool} : truthWord p = truthWord q ↔ p = q := by
  cases p <;> cases q <;> decide

/-- For all words and all places, a comparison of floats leaves 1 where its relation holds, and
greater and greater or equal also where an operand is a not-a-number, and 0 otherwise. The opposite
comparison of the exchanged operands leaves the same word unless an operand is a not-a-number, and
then a different one if it is another operator. -/
theorem comparison_delivers (hop : op.isRelation = true) (hl : l.ty = .float) (hr : r.ty = .float)
    (hx : scope.operand l = .ok x) (hy : scope.operand r = .ok y) (hxfloat : x.HoldsFloat)
    (hyfloat : y.HoldsFloat) (hdst : dst.TakesTruth) (hbase : aligned m.base = true)
    (ha : read x m = .ok a m) (hb : read y m = .ok b m) :
    ∃ code code' w w',
      binary scope op l r .float dst = .ok code ∧ m.Delivers code dst w ∧
      w = truthWord (op.Relates a b ∨ op.isDescending = true ∧ Unordered a b) ∧
      binary scope op.swapped r l .float dst = .ok code' ∧ m.Delivers code' dst w' ∧
      (w = w' ↔ ¬ Unordered a b ∨ op.swapped = op) := by
  obtain ⟨code, hcode, hrun⟩ :=
    comparison_reports hop hl hr hx hy hxfloat hyfloat hdst hbase ha hb
  obtain ⟨code', hcode', hrun'⟩ := comparison_reports ((BinOp.isRelation_swapped op).trans hop) hr hl
    hy hx hyfloat hxfloat hdst hbase hb ha
  refine ⟨code, code', _, _, hcode, hrun, rfl, hcode', hrun', ?_⟩
  rw [truthWord_inj, decide_eq_decide]
  exact BinOp.reports_swapped_iff hop

def slotAndRegister : Scope := [("a", .mem (.slot (-8))), ("b", .xreg ⟨1⟩)]

def holding (i : Fin 16) (a b : UInt64) : Machine :=
  (({} : Machine).setCell (.frame 0 (-8)) a).setCell (.xreg i) b

theorem inFrame_first : InFrame (-8) := ⟨by decide, by decide, by decide⟩

theorem base_holding (i : Fin 16) (a b : UInt64) : (holding i a b).base = 0 := by
  rw [holding, base_setCell (by simp [Cell.rbp]), base_setCell (by decide)]
  rfl

theorem aligned_holding (i : Fin 16) (a b : UInt64) : aligned (holding i a b).base = true := by
  rw [base_holding]
  decide

theorem read_slot_holding (i : Fin 16) (a b : UInt64) :
    read (.mem (.slot (-8))) (holding i a b) = .ok a (holding i a b) := by
  have hcell : (holding i a b).cell (.frame 0 (-8)) = a := by
    rw [holding, cell_setCell_of_ne _ (by simp [Cell.frame]), cell_setCell_self]
  rw [read_ok (cell?_slot (aligned_holding i a b) inFrame_first), base_holding, hcell]

theorem read_register_holding {r : XReg} {i : Fin 16} (hi : registerIndex? r.number = some i)
    (a b : UInt64) : read (.xreg r) (holding i a b) = .ok b (holding i a b) := by
  have hcell : (holding i a b).cell (.xreg i) = b := cell_setCell_self _ _ b
  rw [read_ok (c := .xreg i) (by rw [Operand.cell?, hi, Option.map_some]), hcell]

/-- The zeros are one number, also where the result takes the place of an operand. -/
theorem comparison_delivers_zeros :
    (BinOp.greaterEq.Relates 0x8000000000000000 0 ∧ ¬ Unordered 0x8000000000000000 0) ∧
    ∃ code code',
      binary slotAndRegister .greaterEq (.var "a" .float) (.var "b" .float) .float
        (.mem (.slot (-8))) = .ok code ∧
      (holding 1 0x8000000000000000 0).Delivers code (.mem (.slot (-8))) 1 ∧
      binary slotAndRegister .lessEq (.var "b" .float) (.var "a" .float) .float
        (.mem (.slot (-8))) = .ok code' ∧
      (holding 1 0x8000000000000000 0).Delivers code' (.mem (.slot (-8))) 1 := by
  have hrelates : BinOp.greaterEq.Relates 0x8000000000000000 0 := by decide +kernel
  have hordered : ¬ Unordered 0x8000000000000000 0 := by decide
  refine ⟨⟨hrelates, hordered⟩, ?_⟩
  have hfirst : slotAndRegister.operand (.var "a" .float) = .ok (.mem (.slot (-8))) := rfl
  have hsecond : slotAndRegister.operand (.var "b" .float) = .ok (.xreg ⟨1⟩) := rfl
  have hop : BinOp.greaterEq.isRelation = true := rfl
  have hregister : registerIndex? (⟨1⟩ : XReg).number = some 1 := rfl
  obtain ⟨code, code', w, w', hcode, hrun, hw, hcode', hrun', hsame⟩ :=
    comparison_delivers hop rfl rfl hfirst hsecond (.slot inFrame_first)
      (.xreg rfl (by decide)) (.slot inFrame_first) (aligned_holding _ _ _)
      (read_slot_holding 1 0x8000000000000000 0) (read_register_holding hregister 0x8000000000000000 0)
  obtain rfl : w = 1 := by simp [hw, hrelates, truthWord]
  obtain rfl : 1 = w' := hsame.2 (Or.inl hordered)
  exact ⟨code, code', hcode, hrun, hcode', hrun'⟩

/-- A not-a-number comes out as greater than one, and one as not less than it. -/
theorem comparison_of_nan_greater :
    ¬ BinOp.greater.Relates 0x7ff8000000000001 0x3ff0000000000000 ∧
    ∃ code code',
      binary slotAndRegister .greater (.var "a" .float) (.var "b" .float) .float
        (.reg .rax) = .ok code ∧
      (holding 1 0x7ff8000000000001 0x3ff0000000000000).Delivers code (.reg .rax) 1 ∧
      binary slotAndRegister .less (.var "b" .float) (.var "a" .float) .float
        (.reg .rax) = .ok code' ∧
      (holding 1 0x7ff8000000000001 0x3ff0000000000000).Delivers code' (.reg .rax) 0 := by
  have hunordered : Unordered 0x7ff8000000000001 0x3ff0000000000000 := by decide
  have hfirst : slotAndRegister.operand (.var "a" .float) = .ok (.mem (.slot (-8))) := rfl
  have hsecond : slotAndRegister.operand (.var "b" .float) = .ok (.xreg ⟨1⟩) := rfl
  have hregister : registerIndex? (⟨1⟩ : XReg).number = some 1 := rfl
  have ha := read_slot_holding 1 0x7ff8000000000001 0x3ff0000000000000
  have hb := read_register_holding hregister 0x7ff8000000000001 0x3ff0000000000000
  have hgreater : BinOp.greater.isRelation = true := rfl
  have hless : BinOp.less.isRelation = true := rfl
  refine ⟨by rw [BinOp.relates_of_unordered hunordered]; decide, ?_⟩
  obtain ⟨code, hcode, hrun⟩ := comparison_reports hgreater rfl rfl hfirst hsecond
    (.slot inFrame_first) (.xreg rfl (by decide)) .result (aligned_holding _ _ _) ha hb
  obtain ⟨code', hcode', hrun'⟩ := comparison_reports hless rfl rfl hsecond hfirst
    (.xreg rfl (by decide)) (.slot inFrame_first) .result (aligned_holding _ _ _) hb ha
  refine ⟨code, code', hcode, ?_, hcode', ?_⟩
  · have hreports : BinOp.greater.Reports 0x7ff8000000000001 0x3ff0000000000000 :=
      Or.inr ⟨rfl, hunordered⟩
    simpa [hreports, truthWord] using hrun
  · have hreports : ¬ BinOp.less.Reports 0x3ff0000000000000 0x7ff8000000000001 := by
      rw [BinOp.Reports, BinOp.relates_of_unordered ((unordered_comm _ _).1 hunordered)]
      decide
    simpa [hreports, truthWord] using hrun'

end Codegen

end ExprBackend
