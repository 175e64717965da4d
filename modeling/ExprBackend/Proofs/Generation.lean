import ExprBackend.Proofs.Calls

/-!
# Operations have code

No check of the code generator is in the way of an operation whose operands and destination are of
the kind that it takes, and all instructions of its code can be encoded, whichever locations these
are. Operands are of the right kind if every name that is read has a place of the kind of its type.
-/

namespace ExprBackend

namespace Codegen

open Machine

section Operands

variable {l r x d src : Operand}

theorem isWord_of_isPlace (hd : d.isPlace = true) (hxreg : d.isXReg = false) : d.isWord = true := by
  cases d with
  | reg r => rfl
  | mem a => rfl
  | xreg r => cases hxreg
  | _ => cases hd

theorem isWord_of_isInt (hx : x.isInt = true) (himm : x.isImm = false) : x.isWord = true := by
  cases x with
  | reg r => rfl
  | mem a => rfl
  | imm v => cases himm
  | _ => cases hx

theorem ne_absent_of_isInt (hx : x.isInt = true) : x ≠ .absent := by
  rintro rfl
  cases hx

theorem encodable_mov_reg (hx : x.isInt = true) (q : Reg) :
    Instr.encodable (.mov (.reg q) x) = true := by
  cases x with
  | reg r => rfl
  | mem a => rfl
  | imm v => exact Bool.or_true _
  | _ => cases hx

theorem encodable_small (hd : d.isWord = true) {v : Int64} (hv : fitsImm32 v = true)
    (isMove : Bool) : encodable d (.imm v) isMove = true := by
  cases d with
  | reg r => simp [encodable, hv]
  | mem a => exact hv
  | _ => cases hd

/-- An operand behind `narrow` goes with every register, and with memory if it is not in memory
itself. -/
theorem encodable_narrow (hr : r.isInt = true) (hd : d.isWord = true)
    (hmem : (d.isMem && r.isMem) = false) :
    AllEncodable (narrow r).1 ∧ encodable d (narrow r).2 false = true := by
  have hreg (q : Reg) : encodable d (.reg q) false = true := by
    cases d with
    | reg r => rfl
    | mem a => rfl
    | _ => cases hd
  cases r with
  | reg q => exact ⟨allEncodable_nil, hreg q⟩
  | mem a =>
    cases d with
    | reg q => exact ⟨allEncodable_nil, rfl⟩
    | mem a => cases hmem
    | _ => cases hd
  | imm v =>
    by_cases hv : fitsImm32 v = true
    · rw [narrow, if_pos hv]
      exact ⟨allEncodable_nil, encodable_small hd hv false⟩
    · rw [narrow, if_neg hv]
      exact ⟨allEncodable_cons.2 ⟨encodable_mov_reg rfl _, allEncodable_nil⟩, hreg _⟩
  | _ => cases hr

theorem encodable_unimm (hx : x.isInt = true) :
    AllEncodable (unimm x).1 ∧ (unimm x).2.isWord = true := by
  by_cases himm : x.isImm = true
  · rw [unimm, if_pos himm]
    exact ⟨allEncodable_cons.2 ⟨encodable_mov_reg hx _, allEncodable_nil⟩, rfl⟩
  · rw [unimm, if_neg himm]
    exact ⟨allEncodable_nil, isWord_of_isInt hx (Bool.eq_false_iff.2 himm)⟩

end Operands

section Operations

variable {l r x d src : Operand} {op : BinOp}

theorem allEncodable_transfer (hd : d.isPlace = true) (hsrc : src.isPlace = true) :
    AllEncodable (transfer d src) := by
  cases d with
  | reg q =>
    cases src with
    | reg q' => exact allEncodable_cons.2 ⟨rfl, allEncodable_nil⟩
    | xreg q' => exact allEncodable_cons.2 ⟨rfl, allEncodable_nil⟩
    | mem a => exact allEncodable_cons.2 ⟨rfl, allEncodable_nil⟩
    | _ => cases hsrc
  | xreg q =>
    cases src with
    | reg q' => exact allEncodable_cons.2 ⟨rfl, allEncodable_nil⟩
    | xreg q' => exact allEncodable_cons.2 ⟨rfl, allEncodable_nil⟩
    | mem a => exact allEncodable_cons.2 ⟨rfl, allEncodable_nil⟩
    | _ => cases hsrc
  | mem a =>
    cases src with
    | reg q' => exact allEncodable_cons.2 ⟨rfl, allEncodable_nil⟩
    | xreg q' => exact allEncodable_cons.2 ⟨rfl, allEncodable_nil⟩
    | mem a' =>
      exact allEncodable_cons.2 ⟨rfl, allEncodable_cons.2 ⟨rfl, allEncodable_nil⟩⟩
    | _ => cases hsrc
  | _ => cases hd

theorem move_ok (hd : d.isPlace = true) (hsrc : src ≠ .absent)
    (h : ∀ v, src = .imm v → d.isXReg = false) :
    ∃ code, move d src = .ok code ∧ AllEncodable code := by
  by_cases heq : d = src
  · exact ⟨[], if_pos heq, allEncodable_nil⟩
  · cases src with
    | imm v =>
      have hxreg := h v rfl
      cases d with
      | reg q =>
        exact ⟨_, if_neg heq, allEncodable_cons.2 ⟨encodable_mov_reg rfl q, allEncodable_nil⟩⟩
      | mem a =>
        by_cases hv : fitsImm32 v = true
        · exact ⟨_, (if_neg heq).trans (if_pos hv), allEncodable_cons.2 ⟨hv, allEncodable_nil⟩⟩
        · exact ⟨_, (if_neg heq).trans (if_neg hv), allEncodable_cons.2
            ⟨encodable_mov_reg rfl _, allEncodable_cons.2 ⟨rfl, allEncodable_nil⟩⟩⟩
      | xreg q => cases hxreg
      | _ => cases hd
    | fimm bits =>
      refine ⟨_, if_neg heq, allEncodable_cons.2 ⟨encodable_mov_reg rfl _, ?_⟩⟩
      split
      · exact allEncodable_nil
      · exact allEncodable_transfer hd rfl
    | absent => exact absurd rfl hsrc
    | reg q => exact ⟨_, if_neg heq, allEncodable_transfer hd rfl⟩
    | xreg q => exact ⟨_, if_neg heq, allEncodable_transfer hd rfl⟩
    | mem a => exact ⟨_, if_neg heq, allEncodable_transfer hd rfl⟩

/-- What is held in one place can be moved to every other. -/
theorem move_place_ok (hd : d.isPlace = true) (hsrc : src.isPlace = true) :
    ∃ code, move d src = .ok code ∧ AllEncodable code := by
  refine move_ok hd ?_ ?_
  · rintro rfl
    cases hsrc
  · rintro v rfl
    cases hsrc

theorem viaScratch_ok {op : Operand → Operand → Instr} (hl : l.isInt = true) (hr : r.isInt = true)
    (hd : d.isPlace = true)
    (hop : ∀ src, encodable scratch src false = true → (op scratch src).encodable = true) :
    ∃ code, viaScratch op l r d = .ok code ∧ AllEncodable code := by
  obtain ⟨last, hlast, hlastEnc⟩ : ∃ code, move d scratch = .ok code ∧ AllEncodable code :=
    move_place_ok hd rfl
  obtain ⟨hbefore, hsource⟩ := encodable_narrow hr (d := scratch) rfl rfl
  refine ⟨.mov scratch l :: (narrow r).1 ++ op scratch (narrow r).2 :: last, ?_, ?_⟩
  · rw [viaScratch, hlast]
    rfl
  · rw [allEncodable_append, allEncodable_cons, allEncodable_cons]
    exact ⟨⟨encodable_mov_reg hl _, hbefore⟩, hop _ hsource, hlastEnc⟩

theorem multiply_ok (hl : l.isInt = true) (hr : r.isInt = true) (hd : d.isPlace = true) :
    ∃ code, multiply l r d = .ok code ∧ AllEncodable code := by
  have hgeneral {l r : Operand} (hl : l.isInt = true) (hr : r.isInt = true) :
      ∃ code, viaScratch (fun _ src => .imul .scratch src) l r d = .ok code ∧ AllEncodable code :=
    viaScratch_ok hl hr hd fun _ h => h
  obtain ⟨l', r', hpair, hl', hr'⟩ : ∃ l' r',
      (if l.isImm && !r.isImm then (r, l) else (l, r)) = (l', r') ∧ l'.isInt = true ∧
        r'.isInt = true := by
    split
    · exact ⟨r, l, rfl, hr, hl⟩
    · exact ⟨l, r, rfl, hl, hr⟩
  unfold multiply
  simp only [hpair]
  split
  · split
    · exact hgeneral hl' hr'
    next himm =>
      have hword := isWord_of_isInt hl' (Bool.eq_false_iff.2 himm)
      split
      · split
        next hv =>
          refine ⟨_, rfl, allEncodable_cons.2 ⟨?_, allEncodable_nil⟩⟩
          rw [Instr.encodable, hword, hv]
          rfl
        next => exact hgeneral hl' hr'
      · cases hr'
      · exact hgeneral hl' hr'
  · exact hgeneral hl' hr'

theorem divide_ok (result : Reg) (hl : l.isInt = true) (hr : r.isInt = true)
    (hd : d.isPlace = true) : ∃ code, divide result l r d = .ok code ∧ AllEncodable code := by
  obtain ⟨last, hlast, hlastEnc⟩ : ∃ code, move d (.reg result) = .ok code ∧ AllEncodable code :=
    move_place_ok hd rfl
  obtain ⟨hbefore, hsource⟩ := encodable_unimm hr
  refine ⟨Instr.mov (.reg .rax) l :: .cqo :: (unimm r).1 ++ Instr.idiv (unimm r).2 :: last, ?_, ?_⟩
  · rw [divide, hlast]
    rfl
  · rw [allEncodable_append, allEncodable_cons, allEncodable_cons, allEncodable_cons]
    exact ⟨⟨encodable_mov_reg hl _, rfl, hbefore⟩, hsource, hlastEnc⟩

theorem allEncodable_setCond (c : Cond) (hd : d.isWord = true) : AllEncodable (setCond c d) :=
  allEncodable_cons.2 ⟨encodable_small hd rfl true, allEncodable_cons.2 ⟨hd, allEncodable_nil⟩⟩

theorem compare_ok (c : Cond) (hl : l.isInt = true) (hr : r.isInt = true) (hd : d.isWord = true) :
    ∃ code, compare c l r d = .ok code ∧ AllEncodable code := by
  by_cases hstaged : (l.isImm || l.isMem && r.isMem) = true
  · obtain ⟨hbefore, hsource⟩ := encodable_narrow hr (d := scratch) rfl rfl
    refine ⟨[Instr.mov scratch l] ++ (narrow r).1 ++ Instr.cmp scratch (narrow r).2 :: setCond c d,
      ?_, ?_⟩
    · simp only [compare, if_pos hstaged]
      rfl
    · simp only [allEncodable_append, allEncodable_cons]
      exact ⟨⟨⟨encodable_mov_reg hl _, allEncodable_nil⟩, hbefore⟩, hsource,
        allEncodable_setCond c hd⟩
  · refine ⟨[] ++ (narrow r).1 ++ Instr.cmp l (narrow r).2 :: setCond c d, ?_, ?_⟩
    · simp only [compare, if_neg hstaged]
      rfl
    · simp only [Bool.or_eq_true, not_or, Bool.not_eq_true] at hstaged
      obtain ⟨hbefore, hsource⟩ := encodable_narrow hr (isWord_of_isInt hl hstaged.1) hstaged.2
      rw [allEncodable_append, allEncodable_append, allEncodable_cons]
      exact ⟨⟨allEncodable_nil, hbefore⟩, hsource, allEncodable_setCond c hd⟩

theorem intBinary_ok (hop : op.isDeclared = true) (ty : Ty) (hl : l.isInt = true)
    (hr : r.isInt = true) (hd : d.isPlace = true)
    (hrelation : op.isRelation = true → d.isXReg = false) :
    ∃ code, intBinary op ty l r d = .ok code ∧ AllEncodable code := by
  have hword (h : op.isRelation = true) : d.isWord = true := isWord_of_isPlace hd (hrelation h)
  have hcompareEq (cond : Cond) (h : op.isRelation = true) :
      ∃ code, compareEq cond l r d = .ok code ∧ AllEncodable code := by
    unfold compareEq
    split
    · exact compare_ok cond hr hl (hword h)
    · exact compare_ok cond hl hr (hword h)
  cases op with
  | plus => exact viaScratch_ok hl hr hd fun _ h => h
  | minus => exact viaScratch_ok hl hr hd fun _ h => h
  | times => exact multiply_ok hl hr hd
  | div => exact divide_ok .rax hl hr hd
  | mod => exact divide_ok .rdx hl hr hd
  | less => exact compare_ok .l hl hr (hword rfl)
  | lessEq => exact compare_ok .le hl hr (hword rfl)
  | greater => exact compare_ok .l hr hl (hword rfl)
  | greaterEq => exact compare_ok .le hr hl (hword rfl)
  | eq => exact hcompareEq .e rfl
  | notEq => exact hcompareEq .ne rfl
  | other symbol => cases hop

theorem floatCompare_ok (pred : Predicate) (hl : isFloatSource l = true)
    (hr : isFloatSource r = true) (hd : d.isWord = true) :
    ∃ code, floatCompare pred l r d = .ok code ∧ AllEncodable code := by
  obtain ⟨last, hlast, hlastEnc⟩ : ∃ code, move d (.xreg .compareScratch) = .ok code ∧
      AllEncodable code := move_place_ok (isPlace_of_isWord hd) rfl
  have hmask : Instr.encodable (.and d (.imm 1)) = true := encodable_small hd rfl false
  have hfirst : Instr.encodable (.movsd (.xreg .compareScratch) l) = true := by
    rw [Instr.encodable, hl]
    rfl
  by_cases hmem : r.isMem = true
  · have hstage : Instr.encodable (.movsd (.xreg .scratch) r) = true := by
      rw [Instr.encodable, hr]
      rfl
    refine ⟨Instr.movsd (.xreg .compareScratch) l :: [Instr.movsd (.xreg .scratch) r] ++
      Instr.cmpsd .compareScratch (.xreg .scratch) pred :: last ++ [Instr.and d (.imm 1)], ?_, ?_⟩
    · simp only [floatCompare, if_pos hmem, hlast]
      rfl
    · simp only [allEncodable_append, allEncodable_cons]
      exact ⟨⟨⟨hfirst, hstage, allEncodable_nil⟩, rfl, hlastEnc⟩, hmask, allEncodable_nil⟩
  · refine ⟨.movsd (.xreg .compareScratch) l :: [] ++ .cmpsd .compareScratch r pred :: last ++
      [.and d (.imm 1)], ?_, ?_⟩
    · simp only [floatCompare, if_neg hmem, hlast]
      rfl
    · simp only [allEncodable_append, allEncodable_cons]
      exact ⟨⟨⟨hfirst, allEncodable_nil⟩, hr, hlastEnc⟩, hmask, allEncodable_nil⟩

theorem floatBinary_ok (hop : op.isDeclared = true) (hmod : op ≠ .mod) (ty : Ty)
    (hl : isFloatSource l = true) (hr : isFloatSource r = true) (hd : d.isPlace = true)
    (hrelation : op.isRelation = true → d.isXReg = false) :
    ∃ code, floatBinary op ty l r d = .ok code ∧ AllEncodable code := by
  have harith (fop : FloatOp) : ∃ code, (do
      return .movsd (.xreg .scratch) l :: .farith fop .scratch r :: (← move d (.xreg .scratch)) :
        Gen (List Instr)) = .ok code ∧ AllEncodable code := by
    obtain ⟨last, hlast, hlastEnc⟩ : ∃ code, move d (.xreg .scratch) = .ok code ∧
        AllEncodable code := move_place_ok hd rfl
    refine ⟨.movsd (.xreg .scratch) l :: .farith fop .scratch r :: last, by rw [hlast]; rfl, ?_⟩
    rw [allEncodable_cons, allEncodable_cons]
    exact ⟨by rw [Instr.encodable, hl]; rfl, hr, hlastEnc⟩
  have hcompare (pred : Predicate) (h : op.isRelation = true) :=
    floatCompare_ok pred hl hr (isWord_of_isPlace hd (hrelation h))
  cases op with
  | plus => exact harith .add
  | minus => exact harith .sub
  | times => exact harith .mul
  | div => exact harith .div
  | mod => exact absurd rfl hmod
  | less => exact hcompare .lt rfl
  | lessEq => exact hcompare .le rfl
  | greater => exact hcompare .notLe rfl
  | greaterEq => exact hcompare .notLt rfl
  | eq => exact hcompare .eq rfl
  | notEq => exact hcompare .neq rfl
  | other symbol => cases hop

theorem floatOperand_ok (which : String) (h : isFloatSource x = true) :
    floatOperand which x = .ok x := by
  cases x with
  | xreg r => rfl
  | mem a => rfl
  | _ => cases h

/-- An operation on two floats that are held where floats can be. -/
theorem binary_eq_floatBinary {scope : Scope} {a b : Atom} {ty : Ty} (op : BinOp)
    (hty : ty = .float) (hab : a.ty = b.ty) (ha : scope.operand a = .ok l)
    (hb : scope.operand b = .ok r) (hl : isFloatSource l = true) (hr : isFloatSource r = true) :
    binary scope op a b ty d = floatBinary op a.ty l r d := by
  rw [binary, if_neg (not_not_intro hab), if_pos hty, ha, hb]
  change (floatOperand "first" l >>= fun first => floatOperand "second" r >>= fun second =>
    floatBinary op a.ty first second d) = _
  rw [floatOperand_ok _ hl, floatOperand_ok _ hr]
  rfl

theorem unary_ok {op : UnOp} {ty : Ty} (hop : op.isDeclared = true)
    (hnot : op = .not → ty ≠ .float) (hint : ty ≠ .float → x.isInt = true)
    (hfloat : ty = .float → isFloatSource x = true) (hd : d.isPlace = true)
    (hdest : ty ≠ .float → d.isXReg = false) :
    ∃ code, unary op ty x d = .ok code ∧ AllEncodable code := by
  cases op with
  | not =>
    have hty := hnot rfl
    obtain ⟨hbefore, hsource⟩ := encodable_unimm (hint hty)
    refine ⟨_, if_neg hty, ?_⟩
    rw [allEncodable_append, allEncodable_cons]
    exact ⟨hbefore, encodable_small hsource rfl false,
      allEncodable_setCond .e (isWord_of_isPlace hd (hdest hty))⟩
  | neg =>
    by_cases hty : ty = .float
    · obtain ⟨first, hfirst, hfirstEnc⟩ : ∃ code, move (.xreg .scratch) (.fimm minusOne) = .ok code ∧
          AllEncodable code := move_ok rfl nofun nofun
      obtain ⟨last, hlast, hlastEnc⟩ : ∃ code, move d (.xreg .scratch) = .ok code ∧
          AllEncodable code := move_place_ok hd rfl
      refine ⟨first ++ Instr.farith .mul .scratch x :: last, (if_pos hty).trans ?_, ?_⟩
      · rw [floatOperand_ok _ (hfloat hty), hfirst, hlast]
        rfl
      · rw [allEncodable_append, allEncodable_cons]
        exact ⟨hfirstEnc, hfloat hty, hlastEnc⟩
    · obtain ⟨code, hcode, hcodeEnc⟩ : ∃ code, move d x = .ok code ∧ AllEncodable code :=
        move_ok hd (ne_absent_of_isInt (hint hty)) fun _ _ => hdest hty
      refine ⟨code ++ [Instr.neg d], (if_neg hty).trans ?_, ?_⟩
      · rw [hcode]
        rfl
      · rw [allEncodable_append, allEncodable_cons]
        exact ⟨hcodeEnc, isWord_of_isPlace hd (hdest hty), allEncodable_nil⟩
  | other symbol => cases hop

theorem allEncodable_branchCode (func : String) (n : Nat) {c : Operand} {first second : List Instr}
    (hc : c.isInt = true) (hfirst : AllEncodable first) (hsecond : AllEncodable second) :
    AllEncodable (branchCode func n c first second) := by
  obtain ⟨hbefore, hsource⟩ := encodable_unimm hc
  simp only [branchCode, allEncodable_append, allEncodable_cons]
  exact ⟨⟨⟨hbefore, encodable_small hsource rfl false, rfl, hfirst⟩, rfl, rfl, hsecond⟩, rfl,
    allEncodable_nil⟩

end Operations

/-- Every name that is read has a place of the kind of its type. -/
def Covers (f : Func) (names : Typing) (scope : Scope) : Prop :=
  ∀ z ty, List.lookup z names = some ty → z ∈ blockReads f.body →
    ∃ o, List.lookup z scope = some o ∧ (ty ≠ .float → o.isInt = true) ∧
      (ty = .float → isFloatSource o = true)

section Variables

variable {f : Func} {asg : Assignment} {pools : Pools} {names : Typing} {scope : Scope} {x : Atom}
  {name : String} {s s' : Supply} {ty : Ty}

theorem Covers.operand (h : Covers f names scope) (hx : x.inScope names = true)
    (hreads : x.reads ⊆ blockReads f.body) :
    ∃ o, scope.operand x = .ok o ∧ o ≠ .absent ∧ (x.ty ≠ .float → o.isInt = true) ∧
      (x.isVar = true → x.ty = .float → isFloatSource o = true) ∧
      ∀ v, o = .imm v → x.ty ≠ .float := by
  by_cases hvar : x.isVar = true
  · obtain ⟨o, ho, hint, hfloat⟩ := h x.name x.ty (Atom.lookup_of_inScope hx hvar)
      (hreads (Atom.mem_reads.2 ⟨hvar, rfl⟩))
    refine ⟨o, ?_, ?_, hint, fun _ => hfloat, ?_⟩
    · simp only [Scope.operand, hvar, if_true, Scope.find, ho]
      rfl
    · rintro rfl
      by_cases hty : x.ty = .float
      · cases hfloat hty
      · cases hint hty
    · rintro v rfl hty
      cases hfloat hty
  · by_cases hty : x.ty = .float
    · refine ⟨.fimm x.word, ?_, by simp, fun h => absurd hty h, fun h => absurd h hvar, by simp⟩
      simp only [Scope.operand, hvar, Bool.false_eq_true, if_false, hty, if_true]
      rfl
    · refine ⟨.imm x.word.toInt64, ?_, by simp, fun _ => rfl, fun h => absurd h hvar, fun _ _ => hty⟩
      simp only [Scope.operand, hvar, Bool.false_eq_true, if_false, hty]
      rfl

/-- Storage of the kind of a type, if the name is read. -/
theorem location_ok (hsuits : asg.Suits f pools) (hname : (name, ty) ∈ f.bindings) (s : Supply) :
    (location asg name s = .ok (none, s) ∧ name ∉ blockReads f.body) ∨
      ∃ o s', location asg name s = .ok (some o, s') ∧ o.isPlace = true ∧
        (o.isXReg = true → ty = .float) ∧ (ty ≠ .float → o.isInt = true) ∧
        (ty = .float → isFloatSource o = true) := by
  obtain ⟨l, hl, hkind⟩ := hsuits.located _ hname
  cases l with
  | none =>
    refine Or.inl ⟨location_none hl s, ?_⟩
    exact hsuits.unread name (List.mem_map.2 ⟨_, hname, rfl⟩) hl
  | reg r =>
    exact Or.inr ⟨_, _, location_reg hl s, rfl, (nomatch ·), fun _ => rfl,
      fun h => absurd h hkind.1⟩
  | xreg r =>
    exact Or.inr ⟨_, _, location_xreg hl s, rfl, fun _ => hkind.1,
      fun h => absurd hkind.1 h, fun _ => rfl⟩
  | spill =>
    exact Or.inr ⟨_, _, location_spill hl s, rfl, (nomatch ·), fun _ => rfl, fun _ => rfl⟩
  | other k => exact hkind.elim

/-- Behind a binding its name has a place too. -/
theorem Covers.bind (h : Covers f names scope) {o : Operand} (hint : ty ≠ .float → o.isInt = true)
    (hfloat : ty = .float → isFloatSource o = true) :
    Covers f ((name, ty) :: names) ((name, o) :: scope) := by
  intro z ty' hz hread
  rw [List.lookup_cons] at hz ⊢
  by_cases heq : z = name
  · subst heq
    rw [beq_self_eq_true] at hz ⊢
    obtain rfl := Option.some.inj hz
    exact ⟨o, rfl, hint, hfloat⟩
  · rw [beq_eq_false_iff_ne.2 heq] at hz ⊢
    exact h z ty' hz hread

theorem Covers.unread (h : Covers f names scope) (hname : name ∉ blockReads f.body) :
    Covers f ((name, ty) :: names) scope := by
  intro z ty' hz hread
  have hne : z ≠ name := fun heq => hname (heq ▸ hread)
  rw [List.lookup_cons, beq_eq_false_iff_ne.2 hne] at hz
  exact h z ty' hz hread

/-- A destination, if there is one, that takes a value of a type. -/
def Takes (dst : Option Operand) (ty : Option Ty) : Prop :=
  ∀ d, dst = some d → d.isPlace = true ∧ (d.isXReg = true → ty = some .float)

theorem Takes.isXReg {d : Operand} (h : Takes (some d) (some ty)) (hty : ty ≠ .float) :
    d.isXReg = false :=
  Bool.eq_false_iff.2 fun hd => hty (Option.some.inj ((h d rfl).2 hd))

theorem binary_ok (h : Covers f names scope) {op : BinOp} {l r : Atom} {d : Operand}
    (hwf : (Expr.binary op l r ty).wellFormed names = true)
    (ht : (Expr.binary op l r ty).wellTyped = true)
    (hreads : (Expr.binary op l r ty).reads ⊆ blockReads f.body)
    (htakes : Takes (some d) (Expr.binary op l r ty).ty?) :
    ∃ code, binary scope op l r ty d = .ok code ∧ AllEncodable code := by
  simp only [Expr.wellFormed, Bool.and_eq_true, decide_eq_true_eq] at hwf
  obtain ⟨⟨⟨⟨⟨⟨hop, hl⟩, hr⟩, hlop⟩, hrop⟩, rfl⟩, hty⟩ := hwf
  rw [Expr.reads] at hreads
  rw [Expr.ty?] at htakes
  obtain ⟨p, hp, _, hpint, hpfloat, _⟩ := h.operand hl (List.append_subset.1 hreads).1
  obtain ⟨q, hq, _, hqint, hqfloat, _⟩ := h.operand hr (List.append_subset.1 hreads).2
  have hplace := (htakes d rfl).1
  by_cases hfloat : l.ty = .float
  · have hmod : op ≠ .mod := by
      rintro rfl
      simp [Expr.wellTyped, hfloat] at ht
    have hlvar : l.isVar = true := by simpa [Atom.isOperand, hfloat] using hlop
    have hrvar : r.isVar = true := by simpa [Atom.isOperand, hty, hfloat] using hrop
    have hpsource := hpfloat hlvar hfloat
    have hqsource := hqfloat hrvar (hty.trans hfloat)
    have hrelation (hop : op.isRelation = true) : d.isXReg = false := by
      rw [if_pos hop] at htakes
      exact htakes.isXReg (by simp)
    obtain ⟨code, hcode, henc⟩ := floatBinary_ok hop hmod l.ty hpsource hqsource hplace hrelation
    refine ⟨code, ?_, henc⟩
    rw [binary_eq_floatBinary op hfloat hty.symm hp hq hpsource hqsource]
    exact hcode
  · have hxreg : d.isXReg = false := by
      refine htakes.isXReg ?_
      split
      · simp
      · exact hfloat
    obtain ⟨code, hcode, henc⟩ := intBinary_ok hop l.ty (hpint hfloat) (hqint (hty ▸ hfloat))
      hplace fun _ => hxreg
    refine ⟨code, ?_, henc⟩
    rw [binary, if_neg (not_not_intro hty.symm), if_neg hfloat, hp, hq]
    exact hcode

end Variables

section Functions

variable {f : Func} {asg : Assignment} {pools : Pools} {scope : Scope}

theorem loadParams_covers (hsuits : asg.Suits f pools) {ps : List Param}
    (hps : ∀ p ∈ ps, p ∈ f.params) {n : Nat} {names : Typing} (hcovers : Covers f names scope) :
    ∃ code scope', loadParams asg n ps scope = .ok (code, scope') ∧ AllEncodable code ∧
      Covers f ((ps.map fun p => (p.name, p.ty)).reverse ++ names) scope' := by
  induction ps generalizing n names scope with
  | nil => exact ⟨[], scope, rfl, allEncodable_nil, hcovers⟩
  | cons p ps ih =>
    have hp := hps p (by simp)
    obtain ⟨l, hl, hkind⟩ := hsuits.located _ (Func.mem_bindings_param hp)
    obtain ⟨o, ho, hplace, hint, hfloat⟩ : ∃ o, paramPlace asg n p.name = .ok o ∧
        o.isPlace = true ∧ (p.ty ≠ .float → o.isInt = true) ∧
        (p.ty = .float → isFloatSource o = true) := by
      rw [paramPlace, hl]
      cases l with
      | reg r => exact ⟨_, rfl, rfl, fun _ => rfl, fun h => absurd h hkind.1⟩
      | xreg r => exact ⟨_, rfl, rfl, fun h => absurd hkind.1 h, fun _ => rfl⟩
      | other k => exact hkind.elim
      | _ => exact ⟨_, rfl, rfl, fun _ => rfl, fun _ => rfl⟩
    obtain ⟨first, hfirst, hfirstEnc⟩ : ∃ first, move o (.mem (argumentSlot n)) = .ok first ∧
        AllEncodable first := move_place_ok hplace rfl
    obtain ⟨rest, scope', hrest, hrestEnc, hcovers'⟩ := ih
      (fun q hq => hps q (List.mem_cons_of_mem p hq)) (hcovers.bind hint hfloat)
    refine ⟨_, scope', loadParams_cons.2 ⟨o, first, rest, ho, hfirst, hrest, rfl⟩,
      allEncodable_append.2 ⟨hfirstEnc, hrestEnc⟩, ?_⟩
    rw [List.map_cons, List.reverse_cons, List.append_assoc]
    exact hcovers'

theorem takes_result (ty : Ty) : Takes (some (resultPlace ty)) (some ty) := by
  rintro d ⟨⟩
  unfold resultPlace
  split
  next hty => exact ⟨rfl, fun _ => congrArg some hty⟩
  next => exact ⟨rfl, (nomatch ·)⟩

/-- Parameters are put into scope from the first to the last, each with a name of its own. -/
theorem covers_params (hf : f.LoaderForm) {scope : Scope}
    (h : Covers f ((f.params.map fun p => (p.name, p.ty)).reverse ++ []) scope) :
    Covers f f.paramTyping scope := by
  rw [List.append_nil] at h
  have hnodup : (f.paramTyping.map Prod.fst).Nodup := by
    rw [Func.paramTyping, List.map_map]
    exact nodup_params hf
  intro z ty hz hread
  refine h z ty (lookup_of_mem ?_ (List.mem_reverse.2 (mem_of_lookup hz))) hread
  rw [List.map_reverse]
  exact List.nodup_reverse.2 hnodup

end Functions

end Codegen

end ExprBackend
