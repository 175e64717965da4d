import ExprBackend.Asm.Printer
import ExprBackend.Proofs.Effects
import ExprBackend.Proofs.Generation

/-!
# Usable code

An instruction is legal if the machine never refuses it, and printable if it has a line of assembly.
One that can be encoded is both. The code of an operation can be encoded up to the instructions
that finish it in its destination, and the test of a condition depends on where the condition is
held; for these it is said exactly when they are legal and when they are printable.
-/

namespace ExprBackend

open Machine

namespace Instr

variable {x : Instr} {d src : Operand}

/-- Never refused, whatever code the instruction stands in and whatever the machine holds. -/
def Legal (x : Instr) : Prop :=
  ∀ (code : Code) (pc : Int) (m m' : Machine) (e : RunError),
    advance code pc x m = .error e m' → isIllegal e = false

theorem legal_of_encodable (h : x.encodable = true) : x.Legal := by
  intro code pc m m' e herror
  exact isIllegal_advance h herror

/-- An instruction that goes on with the next one. -/
def Plain (x : Instr) : Prop :=
  ∀ code pc, advance code pc x = do attempt pc x (execute x); return .at (pc + 1)

theorem not_legal_of_execute (hplain : x.Plain) {m m' : Machine} {why : Illegal}
    (h : execute x m = .error (.illegal why) m') : ¬ x.Legal := by
  intro hlegal
  have herror : advance (.ofList []) 0 x m = .error (.trap 0 x (.illegal why)) m' := by
    rw [hplain]
    apply EStateM.bind_of_error
    rw [attempt, h]
    rfl
  cases hlegal _ _ _ _ _ herror

theorem not_legal_mov (h : Machine.encodable d src true = false) : ¬ (Instr.mov d src).Legal := by
  obtain ⟨why, hwhy, _⟩ := checkOperands_illegal h {}
  exact not_legal_of_execute (fun _ _ => rfl) (EStateM.bind_of_error hwhy)

theorem not_legal_combine (h : Machine.encodable d src false = false) :
    ¬ (Instr.and d src).Legal ∧ ¬ (Instr.sub d src).Legal := by
  obtain ⟨why, hwhy, _⟩ := checkOperands_illegal h {}
  constructor
  · exact not_legal_of_execute (fun _ _ => rfl) (EStateM.bind_of_error hwhy)
  · exact not_legal_of_execute (fun _ _ => rfl) (EStateM.bind_of_error hwhy)

theorem not_legal_cmp_xreg (r : XReg) : ¬ (Instr.cmp (.xreg r) src).Legal := by
  have hrefused : execute (.cmp (.xreg r) src) {} = .error (.illegal (.destination (.xreg r))) {} :=
    rfl
  exact not_legal_of_execute (fun _ _ => rfl) hrefused

/-- A float register can be negated, though there is no encoding for it. -/
theorem legal_neg (hd : d.isPlace = true) : (Instr.neg d).Legal := by
  intro code pc m m' e herror
  have hallowed : (Permit.mk Set.univ False False False).Allows m (execute (.neg d) m) :=
    Permit.allows_neg (fun hno => by cases hd.symm.trans hno) fun _ _ => Set.mem_univ _
  rcases EStateM.of_bind_error herror with htrap | ⟨_, m₁, _, hend⟩
  · exact (hallowed.of_attempt htrap).1.resolve_right id
  · cases hend

def Printable (x : Instr) : Prop := ∃ line, x.render = .ok line

end Instr

theorem Operand.render_ok {o : Operand} (h : o ≠ .absent) : ∃ s, o.render = .ok s := by
  cases o with
  | absent => exact absurd rfl h
  | _ => exact ⟨_, rfl⟩

theorem Operand.renderByte_ok {o : Operand} (h : o.isWord = true) : ∃ s, o.renderByte = .ok s := by
  cases o with
  | reg r => exact ⟨_, rfl⟩
  | mem a => exact ⟨_, rfl⟩
  | _ => cases h

namespace Instr

variable {x : Instr} {d src : Operand}

theorem line1_ok (mnemonic : String) (h : d ≠ .absent) : ∃ line, line1 mnemonic d = .ok line := by
  obtain ⟨s, hs⟩ := Operand.render_ok h
  exact ⟨_, Except.bind_eq_ok.2 ⟨s, hs, rfl⟩⟩

theorem line2_ok (mnemonic : String) (hd : d ≠ .absent) (hsrc : src ≠ .absent) :
    ∃ line, line2 mnemonic d src = .ok line := by
  obtain ⟨s, hs⟩ := Operand.render_ok hd
  obtain ⟨t, ht⟩ := Operand.render_ok hsrc
  exact ⟨_, Except.bind_eq_ok.2 ⟨s, hs, Except.bind_eq_ok.2 ⟨t, ht, rfl⟩⟩⟩

/-- No operand of the instruction is absent, and a byte that it sets is the lowest of a word. -/
def isWhole : Instr → Bool
  | .mov d src | .movsd d src | .movq d src | .add d src | .sub d src | .and d src | .cmp d src =>
    decide (d ≠ .absent) && decide (src ≠ .absent)
  | .imul _ src | .imul3 _ src _ | .idiv src | .farith _ _ src | .cmpsd _ src _ =>
    decide (src ≠ .absent)
  | .neg d => decide (d ≠ .absent)
  | .set _ d => d.isWord
  | .absent => false
  | _ => true

theorem printable_of_isWhole (h : x.isWhole = true) : x.Printable := by
  unfold Printable
  cases x with
  | mov d src | movsd d src | movq d src | add d src | sub d src | and d src | cmp d src =>
    simp only [isWhole, Bool.and_eq_true, decide_eq_true_eq] at h
    exact line2_ok _ h.1 h.2
  | imul r src => exact line2_ok _ nofun (of_decide_eq_true h)
  | imul3 r src factor =>
    obtain ⟨line, hline⟩ := line2_ok (d := .reg r) "imul" nofun (of_decide_eq_true h)
    exact ⟨_, Except.bind_eq_ok.2 ⟨line, hline, rfl⟩⟩
  | idiv src => exact line1_ok _ (of_decide_eq_true h)
  | neg d => exact line1_ok _ (of_decide_eq_true h)
  | set c d =>
    obtain ⟨s, hs⟩ := Operand.renderByte_ok h
    exact ⟨_, Except.bind_eq_ok.2 ⟨s, hs, rfl⟩⟩
  | farith op r src => exact line2_ok _ nofun (of_decide_eq_true h)
  | cmpsd r src pred =>
    obtain ⟨line, hline⟩ := line2_ok (d := .xreg r) "cmpsd" nofun (of_decide_eq_true h)
    exact ⟨_, Except.bind_eq_ok.2 ⟨line, hline, rfl⟩⟩
  | absent => cases h
  | _ => exact ⟨_, rfl⟩

theorem isWhole_of_encodable (h : x.encodable = true) : x.isWhole = true := by
  have hword {o : Operand} (ho : o.isWord = true) : o ≠ .absent := by
    rintro rfl
    cases ho
  have hsource {o : Operand} (ho : isFloatSource o = true) : o ≠ .absent := by
    rintro rfl
    cases ho
  have hpair {d src : Operand} {isMove : Bool} (hpair : Machine.encodable d src isMove = true) :
      (decide (d ≠ .absent) && decide (src ≠ .absent)) = true := by
    cases d <;> cases src <;> first | rfl | cases hpair
  cases x with
  | mov d src => exact hpair h
  | add d src => exact hpair h
  | sub d src => exact hpair h
  | and d src => exact hpair h
  | cmp d src => exact hpair h
  | imul r src => exact (Bool.and_eq_true_iff.1 (hpair h)).2
  | imul3 r src factor => exact decide_eq_true (hword (Bool.and_eq_true_iff.1 h).1)
  | idiv src => exact decide_eq_true (hword h)
  | neg d => exact decide_eq_true (hword h)
  | set c d => exact h
  | movsd d src => cases d <;> cases src <;> first | rfl | cases h
  | movq d src => cases d <;> cases src <;> first | rfl | cases h
  | farith op r src => exact decide_eq_true (hsource h)
  | cmpsd r src pred => exact decide_eq_true (hsource h)
  | absent => cases h
  | _ => rfl

theorem not_printable_set_xreg (c : Cond) (r : XReg) : ¬ (Instr.set c (.xreg r)).Printable := by
  rintro ⟨line, hline⟩
  obtain ⟨s, hs, _⟩ := Except.bind_eq_ok.1 hline
  cases hs

end Instr

section Shows

variable {xs ys : List Instr} {legal legal' printable printable' : Prop}

/-- What it takes for all instructions to be legal, and for all of them to be printable. -/
structure Shows (xs : List Instr) (legal printable : Prop) : Prop where
  legal_iff : (∀ x ∈ xs, x.Legal) ↔ legal
  printable_iff : (∀ x ∈ xs, x.Printable) ↔ printable

theorem Shows.congr (h : Shows xs legal printable) (hlegal : legal ↔ legal')
    (hprintable : printable ↔ printable') : Shows xs legal' printable' :=
  ⟨h.legal_iff.trans hlegal, h.printable_iff.trans hprintable⟩

theorem Shows.append (h : Shows xs legal printable) (h' : Shows ys legal' printable') :
    Shows (xs ++ ys) (legal ∧ legal') (printable ∧ printable') := by
  constructor
  · rw [List.forall_mem_append, h.legal_iff, h'.legal_iff]
  · rw [List.forall_mem_append, h.printable_iff, h'.printable_iff]

theorem shows_of_encodable (h : AllEncodable xs) : Shows xs True True := by
  constructor
  · apply iff_of_true _ trivial
    intro x hx
    exact Instr.legal_of_encodable (h x hx)
  · apply iff_of_true _ trivial
    intro x hx
    exact Instr.printable_of_isWhole (Instr.isWhole_of_encodable (h x hx))

/-- Code that can be encoded does not matter in front of other code. -/
theorem Shows.after (h : Shows ys legal printable) (hxs : AllEncodable xs) :
    Shows (xs ++ ys) legal printable :=
  ((shows_of_encodable hxs).append h).congr (Iff.of_eq (true_and _)) (Iff.of_eq (true_and _))

theorem Shows.before (h : Shows xs legal printable) (hys : AllEncodable ys) :
    Shows (xs ++ ys) legal printable :=
  (h.append (shows_of_encodable hys)).congr (Iff.of_eq (and_true _)) (Iff.of_eq (and_true _))

theorem shows_of_encodable_iff (h : AllEncodable xs) (hlegal : legal) (hprintable : printable) :
    Shows xs legal printable :=
  (shows_of_encodable h).congr (iff_of_true trivial hlegal) (iff_of_true trivial hprintable)

end Shows

/-- Code has a text exactly if each of its instructions has a line. -/
theorem Instr.renderAll_ok_iff {xs : List Instr} :
    (∃ text, renderAll xs = .ok text) ↔ ∀ x ∈ xs, x.Printable := by
  induction xs with
  | nil => exact iff_of_true ⟨_, rfl⟩ (by simp)
  | cons x xs ih =>
    rw [List.forall_mem_cons, ← ih]
    simp only [renderAll, Except.bind_eq_ok]
    constructor
    · rintro ⟨_, line, hline, text, htext, _⟩
      exact ⟨⟨line, hline⟩, text, htext⟩
    · rintro ⟨⟨line, hline⟩, text, htext⟩
      exact ⟨_, line, hline, text, htext, rfl⟩

namespace Codegen

variable {l r x d : Operand}

theorem shows_setCond (c : Cond) (hd : d.isPlace = true) :
    Shows (setCond c d) (d.isXReg = false) (d.isXReg = false) := by
  cases hxreg : d.isXReg with
  | false =>
    exact shows_of_encodable_iff (allEncodable_setCond c (isWord_of_isPlace hd hxreg)) rfl rfl
  | true =>
    cases d with
    | xreg r =>
      constructor
      · apply iff_of_false _ nofun
        intro h
        exact Instr.not_legal_mov rfl (h _ List.mem_cons_self)
      · apply iff_of_false _ nofun
        intro h
        exact Instr.not_printable_set_xreg c r (h _ (List.mem_cons_of_mem _ List.mem_cons_self))
    | _ => cases hxreg

theorem shows_mask (hd : d.isPlace = true) :
    Shows [.and d (.imm 1)] (d.isXReg = false) True := by
  cases hxreg : d.isXReg with
  | false =>
    have hword := isWord_of_isPlace hd hxreg
    have hmask : Instr.encodable (.and d (.imm 1)) = true := encodable_small hword rfl false
    exact shows_of_encodable_iff (allEncodable_cons.2 ⟨hmask, allEncodable_nil⟩) rfl trivial
  | true =>
    cases d with
    | xreg r =>
      constructor
      · apply iff_of_false _ nofun
        intro h
        exact (Instr.not_legal_combine rfl).1 (h _ List.mem_cons_self)
      · apply iff_of_true _ trivial
        simp only [List.mem_singleton, forall_eq]
        exact Instr.printable_of_isWhole rfl
    | _ => cases hxreg

theorem shows_neg (hd : d.isPlace = true) : Shows [.neg d] True True := by
  have hwhole : (Instr.neg d).isWhole = true := by
    cases d with
    | reg r => rfl
    | xreg r => rfl
    | mem a => rfl
    | _ => cases hd
  constructor
  · apply iff_of_true _ trivial
    simp only [List.mem_singleton, forall_eq]
    exact Instr.legal_neg hd
  · apply iff_of_true _ trivial
    simp only [List.mem_singleton, forall_eq]
    exact Instr.printable_of_isWhole hwhole

/-- A comparison of integers up to the flags. -/
def compared (l r : Operand) : List Instr :=
  let (first, l) :=
    if l.isImm || l.isMem && r.isMem then ([.mov scratch l], scratch) else ([], l)
  first ++ (narrow r).1 ++ [.cmp l (narrow r).2]

theorem compare_eq (c : Cond) (l r d : Operand) :
    compare c l r d = .ok (compared l r ++ setCond c d) := by
  by_cases hstaged : (l.isImm || l.isMem && r.isMem) = true
  · simp only [compare, compared, if_pos hstaged, List.append_assoc]
    rfl
  · simp only [compare, compared, if_neg hstaged, List.append_assoc]
    rfl

theorem compare_shows (c : Cond) (hl : l.isInt = true) (hr : r.isInt = true)
    (hd : d.isPlace = true) :
    ∃ code, compare c l r d = .ok code ∧ Shows code (d.isXReg = false) (d.isXReg = false) := by
  -- the code before the flags are used does not depend on the destination
  obtain ⟨code, hcode, henc⟩ := compare_ok c hl hr (d := .reg .rax) rfl
  cases (compare_eq c l r (.reg .rax)).symm.trans hcode
  exact ⟨_, compare_eq c l r d, (shows_setCond c hd).after (allEncodable_append.1 henc).1⟩

theorem intBinary_shows {op : BinOp} (hop : op.isDeclared = true) (ty : Ty) (hl : l.isInt = true)
    (hr : r.isInt = true) (hd : d.isPlace = true) :
    ∃ code, intBinary op ty l r d = .ok code ∧
      Shows code ((d.isXReg && op.isRelation) = false) ((d.isXReg && op.isRelation) = false) := by
  have hcompareEq (c : Cond) : ∃ code, compareEq c l r d = .ok code ∧
      Shows code (d.isXReg = false) (d.isXReg = false) := by
    unfold compareEq
    split
    · exact compare_shows c hr hl hd
    · exact compare_shows c hl hr hd
  cases hrel : op.isRelation with
  | false =>
    obtain ⟨code, hcode, henc⟩ := intBinary_ok hop ty hl hr hd fun h => by
      cases hrel.symm.trans h
    exact ⟨code, hcode, shows_of_encodable_iff henc (Bool.and_false _) (Bool.and_false _)⟩
  | true =>
    rw [Bool.and_true]
    cases op with
    | less => exact compare_shows .l hl hr hd
    | lessEq => exact compare_shows .le hl hr hd
    | greater => exact compare_shows .l hr hl hd
    | greaterEq => exact compare_shows .le hr hl hd
    | eq => exact hcompareEq .e
    | notEq => exact hcompareEq .ne
    | _ => cases hrel

def floatCompared (pred : Predicate) (l r : Operand) : List Instr :=
  let (before, r) :=
    if r.isMem then ([.movsd (.xreg .scratch) r], .xreg .scratch) else ([], r)
  .movsd (.xreg .compareScratch) l :: before ++ [.cmpsd .compareScratch r pred]

theorem floatCompare_eq (pred : Predicate) (l r : Operand) {last : List Instr}
    (hlast : move d (.xreg .compareScratch) = .ok last) :
    floatCompare pred l r d =
      .ok (floatCompared pred l r ++ last ++ [Instr.and d (.imm 1)]) := by
  by_cases hmem : r.isMem = true
  · simp only [floatCompare, floatCompared, if_pos hmem, hlast]
    rfl
  · simp only [floatCompare, floatCompared, if_neg hmem, hlast]
    rfl

theorem floatCompare_shows (pred : Predicate) (hl : isFloatSource l = true)
    (hr : isFloatSource r = true) (hd : d.isPlace = true) :
    ∃ code, floatCompare pred l r d = .ok code ∧ Shows code (d.isXReg = false) True := by
  obtain ⟨first, hfirst, _⟩ : ∃ code, move (.reg .rax) (.xreg .compareScratch) = .ok code ∧
      AllEncodable code := move_place_ok rfl rfl
  obtain ⟨last, hlast, hlastEnc⟩ : ∃ code, move d (.xreg .compareScratch) = .ok code ∧
      AllEncodable code := move_place_ok hd rfl
  obtain ⟨code, hcode, henc⟩ := floatCompare_ok pred hl hr (d := .reg .rax) rfl
  cases (floatCompare_eq pred l r hfirst).symm.trans hcode
  have hcompared := (allEncodable_append.1 (allEncodable_append.1 henc).1).1
  refine ⟨_, floatCompare_eq pred l r hlast, ?_⟩
  exact (shows_mask hd).after (allEncodable_append.2 ⟨hcompared, hlastEnc⟩)

theorem floatBinary_shows {op : BinOp} (hop : op.isDeclared = true) (hmod : op ≠ .mod) (ty : Ty)
    (hl : isFloatSource l = true) (hr : isFloatSource r = true) (hd : d.isPlace = true) :
    ∃ code, floatBinary op ty l r d = .ok code ∧
      Shows code ((d.isXReg && op.isRelation) = false) True := by
  cases hrel : op.isRelation with
  | false =>
    obtain ⟨code, hcode, henc⟩ := floatBinary_ok hop hmod ty hl hr hd fun h => by
      cases hrel.symm.trans h
    exact ⟨code, hcode, shows_of_encodable_iff henc (Bool.and_false _) trivial⟩
  | true =>
    rw [Bool.and_true]
    have hcompare (pred : Predicate) := floatCompare_shows pred hl hr hd
    cases op with
    | less => exact hcompare .lt
    | lessEq => exact hcompare .le
    | greater => exact hcompare .notLe
    | greaterEq => exact hcompare .notLt
    | eq => exact hcompare .eq
    | notEq => exact hcompare .neq
    | _ => cases hrel

/-- A condition is tested. -/
theorem shows_test (hc : x ≠ .absent) :
    Shows ((unimm x).1 ++ [Instr.cmp (unimm x).2 (.imm 0)]) (x.isInt = true) True := by
  cases hint : x.isInt with
  | true =>
    obtain ⟨hbefore, hsource⟩ := encodable_unimm hint
    have hcmp : Instr.encodable (.cmp (unimm x).2 (.imm 0)) = true := encodable_small hsource rfl false
    have henc := allEncodable_append.2 ⟨hbefore, allEncodable_cons.2 ⟨hcmp, allEncodable_nil⟩⟩
    exact shows_of_encodable_iff henc rfl trivial
  | false =>
    cases x with
    | xreg r =>
      constructor
      · apply iff_of_false _ nofun
        intro h
        exact Instr.not_legal_cmp_xreg r (h _ List.mem_cons_self)
      · apply iff_of_true _ trivial
        simp only [unimm, Operand.isImm, Bool.false_eq_true, if_false, List.nil_append,
          List.mem_singleton, forall_eq]
        exact Instr.printable_of_isWhole rfl
    | fimm bits =>
      constructor
      · apply iff_of_false _ nofun
        intro h
        have hfloat : Machine.encodable scratch (.fimm bits) true = false := rfl
        exact Instr.not_legal_mov hfloat (h _ List.mem_cons_self)
      · apply iff_of_true _ trivial
        simp only [unimm, Operand.isImm, if_true, List.cons_append, List.nil_append,
          List.forall_mem_cons, List.not_mem_nil, false_implies, implies_true, and_true]
        exact ⟨Instr.printable_of_isWhole rfl, Instr.printable_of_isWhole rfl⟩
    | absent => exact absurd rfl hc
    | _ => cases hint

theorem shows_branchCode (func : String) (n : Nat) (hc : x ≠ .absent) {first second : List Instr}
    {legal printable legal' printable' : Prop} (hfirst : Shows first legal printable)
    (hsecond : Shows second legal' printable') :
    Shows (branchCode func n x first second) (x.isInt = true ∧ legal ∧ legal')
      (printable ∧ printable') := by
  have hskip : AllEncodable [.jcc .e (elseLabel func n)] := by
    simp [AllEncodable, Instr.encodable]
  have helse : AllEncodable [.jmp (endLabel func n), .label (elseLabel func n)] := by
    simp [AllEncodable, Instr.encodable]
  have hend : AllEncodable [.label (endLabel func n)] := by
    simp [AllEncodable, Instr.encodable]
  have hcode : branchCode func n x first second =
      ((unimm x).1 ++ [Instr.cmp (unimm x).2 (.imm 0)]) ++ ([Instr.jcc .e (elseLabel func n)] ++
        (first ++ [Instr.jmp (endLabel func n), Instr.label (elseLabel func n)] ++
          (second ++ [Instr.label (endLabel func n)]))) := by
    simp [branchCode]
  rw [hcode]
  have hbranches := ((hfirst.before helse).append (hsecond.before hend)).after hskip
  exact ((shows_test hc).append hbranches).congr Iff.rfl (Iff.of_eq (true_and _))

end Codegen

end ExprBackend
