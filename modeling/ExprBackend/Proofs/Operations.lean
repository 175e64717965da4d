import ExprBackend.Proofs.Demand
import ExprBackend.Proofs.FloatLowering
import ExprBackend.Proofs.Parts
import ExprBackend.Proofs.Places

/-!
# Operations

The code of a statement without branches leaves its value on demand in the destination, or it traps
if there is no such value.
-/

namespace ExprBackend.Codegen

open Machine Liveness

/-- A function with locations for its names, in a frame whose pointer is given. -/
structure Layout (f : Func) (asg : Assignment) (pools : Pools) (base : Int64) : Prop where
  loaded : f.LoaderForm
  fits : asg.Fits f pools
  accepted : pools.Accepted
  aligned : aligned base = true
  room : Room f.bindings.length f.params.length

/-- Every name that has a place is in scope and held there. -/
def Placed (f : Func) (asg : Assignment) (slots : Nat) (names : Typing) (scope : Scope) : Prop :=
  ∀ z o, List.lookup z scope = some o →
    z ∈ names.map Prod.fst ∧ Held asg slots f.params.length z o

/-- Every live name in scope has a value, and its place holds it. -/
def Holds (f : Func) (live : BitSet) (names : Typing) (scope : Scope) (env : Env) (m : Machine) :
    Prop :=
  ∀ z ∈ names.map Prod.fst, f.numbers.Live live z →
    ∃ w o, List.lookup z env = some w ∧ List.lookup z scope = some o ∧ m.value? o = some w

structure Dest (base : Int64) (want : Want) (d : Operand) (c : Cell) : Prop where
  cell : d.cell? base = some c
  float : d.isXReg = true → want.isFloat = true
  result : want = .result → d = .reg .rax
  floatResult : want.isFloatResult = true → d = .xreg .xmm0
  name : want.isName = true → c ∉ Cell.reserved base

variable {f : Func} {asg : Assignment} {pools : Pools} {base : Int64} {slots : Nat}
  {names : Typing} {scope : Scope} {env : Env} {m m' : Machine} {live : BitSet} {want : Want}
  {d o : Operand} {c : Cell} {z : String}

theorem Dest.result_cell (h : Dest base want d c) (hwant : want.isName = false) :
    c = if want.isFloat then .xmm0 else .rax := by
  have hcell := h.cell
  cases want with
  | result =>
    rw [h.result rfl] at hcell
    exact (Option.some.inj hcell).symm
  | floatResult held =>
    rw [h.floatResult rfl] at hcell
    exact (Option.some.inj hcell).symm
  | name b => cases hwant

theorem Dest.notMem (h : Dest base want d c) {k : Cell} (hk : k ∈ Cell.reserved base)
    (hrax : k ≠ .rax) (hxmm : k ≠ .xmm0) : c ≠ k := by
  rintro rfl
  cases hname : want.isName with
  | true => exact h.name hname hk
  | false =>
    rcases ite_eq_or_eq (want.isFloat = true) Cell.xmm0 Cell.rax with hc | hc
    · exact hxmm ((h.result_cell hname).trans hc)
    · exact hrax ((h.result_cell hname).trans hc)

theorem Dest.ne_backup (h : Dest base want d c) : c ≠ .backup :=
  h.notMem (Or.inl (by simp [Cell.temporaries])) (by decide) (by decide)

theorem Dest.ne_rbp (h : Dest base want d c) : c ≠ .rbp :=
  h.notMem (Or.inr (by simp [Cell.fixed])) (by decide) (by decide)

theorem Placed.held (h : Placed f asg slots names scope) (hz : List.lookup z scope = some o) :
    Held asg slots f.params.length z o := (h z o hz).2

/-- The place of a name is a cell that is used for nothing else. -/
theorem Placed.cell (h : Placed f asg slots names scope) (hlayout : Layout f asg pools base)
    (hnames : ∀ e ∈ names, e ∈ f.bindings) (hslots : slots ≤ f.bindings.length)
    (hz : List.lookup z scope = some o) :
    ∃ c, o.cell? base = some c ∧ c ∉ Cell.reserved base :=
  ((h.held hz).mono hslots).cell hlayout.fits hlayout.accepted
    (List.map_subset _ hnames (h z o hz).1) hlayout.aligned hlayout.room

structure Operates (m : Machine) (x : Atom) (env : Env) (o : Operand) (w : UInt64) : Prop where
  eval : x.eval? env = some w
  source : m.Source o w
  isInt : x.ty ≠ .float → o.isInt = true
  isFloat : x.isVar = true → x.ty = .float → isFloatSource o = true

theorem operand_ok {x : Atom} (hlayout : Layout f asg pools m.base)
    (hplaced : Placed f asg slots names scope) (hnames : ∀ e ∈ names, e ∈ f.bindings)
    (hslots : slots ≤ f.bindings.length) (hx : x.inScope names = true)
    (hholds : Holds f live names scope env m) (hlive : ∀ z ∈ x.reads, f.numbers.Live live z)
    (ho : scope.operand x = .ok o) : ∃ w, Operates m x env o w := by
  by_cases hvar : x.isVar = true
  · have hread : x.name ∈ x.reads := Atom.mem_reads.2 ⟨hvar, rfl⟩
    obtain ⟨w, o', hw, ho', hvalue⟩ :=
      hholds x.name (Atom.reads_inScope hx _ hread) (hlive _ hread)
    simp only [Scope.operand, hvar, if_true, Scope.find, ho'] at ho
    obtain rfl := Except.ok.inj ho
    obtain ⟨c, hc, hreserved⟩ := hplaced.cell hlayout hnames hslots ho'
    have hmem : (x.name, x.ty) ∈ f.bindings :=
      hnames _ (mem_of_lookup (Atom.lookup_of_inScope hx hvar))
    refine ⟨w, by rw [Atom.eval?, if_pos hvar, hw], ⟨hvalue, ?_⟩, ?_, ?_⟩
    · intro c' hc'
      obtain rfl := Option.some.inj (hc.symm.trans hc')
      exact fun hmem => hreserved (Or.inl hmem)
    · exact (hplaced.held ho').isInt hlayout.fits hlayout.accepted hmem
    · intro _ hty
      exact (hplaced.held ho').isFloatSource hlayout.fits hlayout.accepted (hty ▸ hmem)
  · refine ⟨x.word, by rw [Atom.eval?, if_neg hvar], ?_, ?_, fun h => absurd h hvar⟩
    · simp only [Scope.operand, hvar, Bool.false_eq_true, if_false] at ho
      split at ho
      · obtain rfl := Except.ok.inj ho
        exact ⟨rfl, fun c hc => by cases hc⟩
      · obtain rfl := Except.ok.inj ho
        refine ⟨?_, fun c hc => by cases hc⟩
        rw [value?, UInt64.toUInt64_toInt64]
    · intro hty
      simp only [Scope.operand, hvar, Bool.false_eq_true, if_false, hty] at ho
      obtain rfl := Except.ok.inj ho
      rfl

/-- Code leaves a value, or it traps if there is none. -/
def Outcome (code : List Instr) (m : Machine) (c : Cell) : Option (UInt64 × UInt64) → Prop
  | some (w, rax) => Finishes code m c w rax
  | none => Traps code m

variable {code : List Instr}

theorem atom_outcome {x : Atom} {src : Operand} {w : UInt64} (hdest : Dest m.base want d c)
    (hx : Operates m x env src w) (hcode : move d src = .ok code) :
    Outcome code m c ((Expr.atom x).demand want env (m.cell .rax)) := by
  have hleaves := move_leaves hcode hdest.cell hdest.ne_backup hx.source.value
  rw [Expr.demand, hx.eval]
  exact hleaves.finishes backup_subset (by simp; decide)

/-- A truth value that is wanted in a float register can only be the result of the function. -/
theorem Dest.result_of_isXReg (h : Dest base want d c) (hname : want ≠ .name true)
    (hd : d.isXReg = true) : want.isFloatResult = true := by
  have hfloat := h.float hd
  cases want with
  | result => cases hfloat
  | floatResult held => rfl
  | name b => exact absurd (congrArg Want.name hfloat) hname

theorem Dest.isXReg_of_result (h : Dest base want d c) (hwant : want.isFloatResult = true) :
    d.isXReg = true := by
  rw [h.floatResult hwant]
  rfl

theorem unary_outcome {op : UnOp} {x : Atom} {ty : Ty} {src : Operand} {a : UInt64}
    (hdest : Dest m.base want d c) (hx : Operates m x env src a) (hty : x.ty = ty)
    (hdefinite : (Expr.unary op x ty).definite want = true)
    (hcode : unary op ty src d = .ok code) :
    Outcome code m c ((Expr.unary op x ty).demand want env (m.cell .rax)) := by
  have hback := hdest.ne_backup
  have hrbp := hdest.ne_rbp
  cases op with
  | neg =>
    have hplace : ¬ (UnOp.neg = .not ∧ want.isFloatResult = true) := by simp
    simp only [Expr.demand, hx.eval, Option.bind_eq_bind, Option.bind_some, UnOp.eval?,
      if_neg hplace]
    by_cases hfloat : ty = .float
    · rw [if_pos hfloat]
      exact floatNegate_finishes hfloat hcode hx.source hdest.cell hback
    · rw [if_neg hfloat]
      exact negate_finishes hfloat hcode hx.source hdest.cell hback hrbp
  | not =>
    have hfloat : ty ≠ .float := by
      rintro rfl
      cases hcode
    have hint := hx.isInt (hty ▸ hfloat)
    have hname : want ≠ .name true := by simpa [Expr.definite] using hdefinite
    simp only [Expr.demand, hx.eval, Option.bind_eq_bind, Option.bind_some, UnOp.eval?,
      if_neg hfloat]
    by_cases hwant : want.isFloatResult = true
    · rw [if_pos ⟨trivial, hwant⟩]
      exact not_misplaced hfloat hcode hx.source hint (hdest.isXReg_of_result hwant)
    · rw [if_neg fun h => hwant h.2]
      have hd : d.isXReg = false := by
        rw [Bool.eq_false_iff]
        exact fun hd => hwant (hdest.result_of_isXReg hname hd)
      exact not_finishes hfloat hcode hx.source hint hdest.cell hd hrbp
  | other s => cases hcode

theorem binary_operands {op : BinOp} {l r : Atom} {ty : Ty}
    (hcode : binary scope op l r ty d = .ok code) :
    ∃ p q, scope.operand l = .ok p ∧ scope.operand r = .ok q := by
  unfold binary at hcode
  split_ifs at hcode
  · cases hcode
  · obtain ⟨p, hp, hrest⟩ := Except.bind_eq_ok.1 hcode
    obtain ⟨_, _, hrest⟩ := Except.bind_eq_ok.1 hrest
    obtain ⟨q, hq, _⟩ := Except.bind_eq_ok.1 hrest
    exact ⟨p, q, hp, hq⟩
  · obtain ⟨p, hp, hrest⟩ := Except.bind_eq_ok.1 hcode
    obtain ⟨q, hq, _⟩ := Except.bind_eq_ok.1 hrest
    exact ⟨p, q, hp, hq⟩

theorem binary_float {op : BinOp} {l r : Atom} {ty : Ty} {p q : Operand} (hty : ty = .float)
    (hlr : l.ty = r.ty) (hp : scope.operand l = .ok p) (hq : scope.operand r = .ok q)
    (hcode : binary scope op l r ty d = .ok code) : floatBinary op l.ty p q d = .ok code := by
  rw [binary, if_neg (not_not_intro hlr), if_pos hty, hp, hq] at hcode
  change (floatOperand "first" p >>= fun first => floatOperand "second" q >>= fun second =>
    floatBinary op l.ty first second d) = .ok code at hcode
  obtain ⟨p', hp', hsecond⟩ := Except.bind_eq_ok.1 hcode
  obtain ⟨q', hq', hbinary⟩ := Except.bind_eq_ok.1 hsecond
  obtain ⟨rfl, _⟩ := floatOperand_eq_ok hp'
  obtain ⟨rfl, _⟩ := floatOperand_eq_ok hq'
  exact hbinary

theorem binary_int {op : BinOp} {l r : Atom} {ty : Ty} {p q : Operand} (hty : ty ≠ .float)
    (hlr : l.ty = r.ty) (hp : scope.operand l = .ok p) (hq : scope.operand r = .ok q)
    (hcode : binary scope op l r ty d = .ok code) : intBinary op l.ty p q d = .ok code := by
  rw [binary, if_neg (not_not_intro hlr), if_neg hty, hp, hq] at hcode
  exact hcode

theorem binary_outcome {op : BinOp} {l r : Atom} {ty : Ty} {a b : UInt64} {p q : Operand}
    (hdest : Dest m.base want d c) (hl : Operates m l env p a) (hr : Operates m r env q b)
    (hp : scope.operand l = .ok p) (hq : scope.operand r = .ok q) (hlty : l.ty = ty)
    (hrty : r.ty = ty) (hlop : l.isOperand = true) (hrop : r.isOperand = true)
    (hdefinite : (Expr.binary op l r ty).definite want = true)
    (hcode : binary scope op l r ty d = .ok code) :
    Outcome code m c ((Expr.binary op l r ty).demand want env (m.cell .rax)) := by
  have hback := hdest.ne_backup
  have hrbp := hdest.ne_rbp
  have hname : op.isRelation = true → want ≠ .name true := by
    intro hop
    simpa [Expr.definite, hop] using hdefinite
  have hplace : ¬ (op.isRelation = true ∧ want.isFloatResult = true) → op.isRelation = true →
      d.isXReg = false := by
    intro hwant hop
    rw [Bool.eq_false_iff]
    exact fun hd => hwant ⟨hop, hdest.result_of_isXReg (hname hop) hd⟩
  simp only [Expr.demand, hl.eval, hr.eval, Option.bind_eq_bind, Option.bind_some, BinOp.eval?]
  by_cases hfloat : ty = .float
  · have hcode := binary_float hfloat (hlty.trans hrty.symm) hp hq hcode
    have hlfloat := hl.isFloat (by simpa [Atom.isOperand, hlty, hfloat] using hlop)
      (hlty.trans hfloat)
    have hrfloat := hr.isFloat (by simpa [Atom.isOperand, hrty, hfloat] using hrop)
      (hrty.trans hfloat)
    simp only [if_pos hfloat]
    by_cases hwant : op.isRelation = true ∧ want.isFloatResult = true
    · have htraps := floatBinary_misplaced hcode hl.source hlfloat hr.source hrfloat hdest.cell hback
        hwant.1 (hdest.isXReg_of_result hwant.2)
      cases op.evalFloat? a b with
      | none => exact htraps
      | some w =>
        rw [Option.bind_some, if_pos hwant]
        exact htraps
    · obtain ⟨w, hw, hfinishes⟩ := floatBinary_finishes hcode hl.source hlfloat hr.source hrfloat
        hdest.cell hback hrbp (hplace hwant)
      rw [hw, Option.bind_some, if_neg hwant]
      exact hfinishes
  · have hcode := binary_int hfloat (hlty.trans hrty.symm) hp hq hcode
    have hlint := hl.isInt (hlty ▸ hfloat)
    have hrint := hr.isInt (hrty ▸ hfloat)
    simp only [if_neg hfloat]
    by_cases hwant : op.isRelation = true ∧ want.isFloatResult = true
    · have htraps := intBinary_misplaced hcode hl.source hlint hr.source hrint hwant.1
        (hdest.isXReg_of_result hwant.2)
      cases op.evalInt? a b with
      | none => exact htraps
      | some w =>
        rw [Option.bind_some, if_pos hwant]
        exact htraps
    · cases hw : op.evalInt? a b with
      | none => exact intBinary_traps hcode hl.source hlint hr.source hrint hw
      | some w =>
        rw [Option.bind_some, if_neg hwant]
        exact intBinary_finishes hcode hl.source hlint hr.source hrint hdest.cell hback hrbp
          (hplace hwant) hw

end ExprBackend.Codegen
