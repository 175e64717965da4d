import ExprBackend.Proofs.Usability

/-!
# Parts that have code

The parts of a function for which code is made, and what each of them means for it: when the machine
takes the code, when it has a text, and whether there is a slot for it in the frame. An operation
has such code, or it breaks a rule and is the cause of that itself, unless its value does not fit
the destination.
-/

namespace ExprBackend

mutual

def Expr.parts : Expr → List Expr
  | .bind name init => .bind name init :: init.parts
  | .branch cond onTrue none => .branch cond onTrue none :: blockParts onTrue
  | .branch cond onTrue (some b) =>
    .branch cond onTrue (some b) :: (blockParts onTrue ++ blockParts b)
  | x => [x]

def blockParts : List Expr → List Expr
  | [] => []
  | x :: xs => x.parts ++ blockParts xs

end

theorem Expr.mem_parts_self (x : Expr) : x ∈ x.parts := by
  match x with
  | .branch _ _ none | .branch _ _ (some _) => simp [Expr.parts]
  | .bind _ _ | .atom _ | .unary _ _ _ | .binary _ _ _ _ | .missing => simp [Expr.parts]

/-- The rule that a part of a function breaks. -/
inductive Refusal : Violation → Expr → Prop
  | remainder {l r : Atom} (hl : l.ty = .float) (hr : r.ty = .float) :
      Refusal (.unsupportedBinary .mod .float) (.binary .mod l r .float)
  | negation {x : Atom} (hx : x.ty = .float) :
      Refusal (.unsupportedUnary .not .float) (.unary .not x .float)
  | branches {cond : Atom} {onTrue onFalse : List Expr} (v : Int64) (r : XReg)
      (hfirst : onTrue ≠ []) (hsecond : onFalse ≠ [])
      (hclass : blockIsFloat onTrue ≠ blockIsFloat onFalse) :
      Refusal (.misplacedImmediate v (.xreg r)) (.branch cond onTrue (some onFalse))

mutual

theorem Expr.wellTyped_of_mem_parts : ∀ (x : Expr) {y : Expr}, x.wellTyped = true → y ∈ x.parts →
    y.wellTyped = true
  | .atom _, y, h, hy | .unary _ _ _, y, h, hy | .binary _ _ _ _, y, h, hy
  | .missing, y, h, hy => by
    obtain rfl := List.mem_singleton.1 hy
    exact h
  | .bind name init, y, h, hy => by
    rcases List.mem_cons.1 hy with rfl | hy
    · exact h
    · rw [Expr.wellTyped] at h
      exact init.wellTyped_of_mem_parts h hy
  | .branch cond onTrue none, y, h, hy => by
    rcases List.mem_cons.1 hy with rfl | hy
    · exact h
    · rw [Expr.wellTyped, Bool.and_eq_true] at h
      exact wellTyped_of_mem_blockParts onTrue h.2 hy
  | .branch cond onTrue (some b), y, h, hy => by
    rcases List.mem_cons.1 hy with rfl | hy
    · exact h
    · simp only [Expr.wellTyped, Bool.and_eq_true] at h
      rcases List.mem_append.1 hy with hy | hy
      · exact wellTyped_of_mem_blockParts onTrue h.1.1.2 hy
      · exact wellTyped_of_mem_blockParts b h.1.2 hy

theorem wellTyped_of_mem_blockParts : ∀ (xs : List Expr) {y : Expr}, blockWellTyped xs = true →
    y ∈ blockParts xs → y.wellTyped = true
  | [], y, _, hy => by cases hy
  | x :: xs, y, h, hy => by
    rw [blockWellTyped, Bool.and_eq_true] at h
    rcases List.mem_append.1 hy with hy | hy
    · exact x.wellTyped_of_mem_parts h.1 hy
    · exact wellTyped_of_mem_blockParts xs h.2 hy

end

theorem Refusal.not_wellTyped {v : Violation} {x : Expr} (h : Refusal v x) :
    x.wellTyped = false := by
  cases h with
  | remainder hl hr => rfl
  | negation hx => rfl
  | branches n r hfirst hsecond hclass => simp [Expr.wellTyped, hfirst, hsecond, hclass]

namespace Assignment

def holds (asg : Assignment) (name : String) : Bool :=
  match asg.find? name with
  | some (.reg _) | some (.xreg _) | some .spill => true
  | _ => false

def inFloat (asg : Assignment) (name : String) : Bool :=
  match asg.find? name with
  | some (.xreg _) => true
  | _ => false

end Assignment

/-- Conditions are tested as integers, which are not in float registers. -/
def Atom.testable (x : Atom) (asg : Assignment) : Bool :=
  if x.isVar then !asg.inFloat x.name else decide (x.ty ≠ .float)

/-- A part of a function that has code of its own, and whether its value goes to a float
register. -/
structure Emitted where
  expr : Expr
  inFloat : Bool

namespace Emitted

/-- The machine takes the code: no condition is held as a float, and no truth value is put into a
float register. -/
def executable (asg : Assignment) : Emitted → Bool
  | ⟨.unary .not _ _, inFloat⟩ => !inFloat
  | ⟨.binary op _ _ _, inFloat⟩ => !(inFloat && op.isRelation)
  | ⟨.branch cond _ _, _⟩ => cond.testable asg
  | _ => true

/-- The code has a text: no truth value of integers is put into a float register. -/
def printable : Emitted → Bool
  | ⟨.unary .not _ _, inFloat⟩ => !inFloat
  | ⟨.binary op _ _ ty, inFloat⟩ => !(inFloat && op.isRelation && decide (ty ≠ .float))
  | _ => true

def spilled (asg : Assignment) : Emitted → Bool
  | ⟨.bind name _, _⟩ => decide (asg.find? name = some .spill)
  | _ => false

end Emitted

mutual

/-- The parts of a statement that have code, if its value goes to a float register, to another
place, or nowhere. -/
def Expr.emitted (asg : Assignment) : Expr → Option Bool → List Emitted
  | .bind name init, dst =>
    if asg.holds name then
      ⟨.bind name init, asg.inFloat name⟩ :: init.emitted asg (some (asg.inFloat name))
    else init.emitted asg dst
  | .unary op x ty, some inFloat => [⟨.unary op x ty, inFloat⟩]
  | .binary op l r ty, some inFloat => [⟨.binary op l r ty, inFloat⟩]
  | .branch cond onTrue none, some inFloat =>
    ⟨.branch cond onTrue none, inFloat⟩ :: blockEmitted asg onTrue (some inFloat)
  | .branch cond onTrue (some b), some inFloat =>
    ⟨.branch cond onTrue (some b), inFloat⟩ ::
      (blockEmitted asg onTrue (some inFloat) ++ blockEmitted asg b (some inFloat))
  | _, _ => []

def blockEmitted (asg : Assignment) : List Expr → Option Bool → List Emitted
  | [], _ => []
  | [x], dst => x.emitted asg dst
  | x :: y :: xs, dst => x.emitted asg none ++ blockEmitted asg (y :: xs) dst

end

namespace Codegen

open Machine

section Ends

variable {α β : Type} {P : α → Prop} {P' : β → Prop} {Q Q' : Violation → Prop}

/-- How a computation may end: with a result of a kind, or by breaking a rule of a kind. -/
def Ends (P : α → Prop) (Q : Violation → Prop) : Except Failure α → Prop
  | .ok a => P a
  | .error (.violation v) => Q v
  | .error (.fault _) => False

theorem Ends.mono {R : α → Prop} {x : Except Failure α} (h : Ends P Q x) (hP : ∀ a, P a → R a)
    (hQ : ∀ v, Q v → Q' v) : Ends R Q' x := by
  match x, h with
  | .ok a, h => exact hP a h
  | .error (.violation v), h => exact hQ v h

theorem Ends.weaken {x : Except Failure α} (h : Ends P Q x) (hQ : ∀ v, Q v → Q' v) : Ends P Q' x :=
  h.mono (fun _ ha => ha) hQ

theorem Ends.bind {x : Emit α} {k : α → Emit β} {s : Supply} {P : α × Supply → Prop}
    {P' : β × Supply → Prop} (h : Ends P Q (x s)) (hk : ∀ a s', P (a, s') → Ends P' Q (k a s')) :
    Ends P' Q ((x >>= k) s) := by
  change Ends P' Q (x s >>= fun p => k p.1 p.2)
  match x s, h with
  | .ok (a, s'), h => exact hk a s' h
  | .error (.violation v), h => exact h

theorem Ends.lift {x : Gen α} (h : Ends P Q x) (s : Supply) :
    Ends (fun p => P p.1 ∧ p.2 = s) Q ((liftM x : Emit α) s) := by
  match x, h with
  | .ok a, h => exact ⟨h, rfl⟩
  | .error (.violation v), h => exact h

/-- Whatever else is known of a result. -/
theorem Ends.and_ok {R : α → Prop} {x : Except Failure α} (h : Ends P Q x)
    (hR : ∀ a, x = .ok a → R a) : Ends (fun a => P a ∧ R a) Q x := by
  match x, h with
  | .ok a, h => exact ⟨h, hR a rfl⟩
  | .error (.violation v), h => exact h

end Ends

section Emits

variable {asg : Assignment} {ops ops' : List Emitted} {code code' : List Instr} {s s₁ s' : Supply}

/-- Code for parts of a function: it is legal if each part is executable, printable if each is
printable, and has a slot for each that is spilled. -/
structure Emits (asg : Assignment) (ops : List Emitted) (code : List Instr) (s s' : Supply) :
    Prop where
  code_shows : Shows code (∀ e ∈ ops, e.executable asg = true) (∀ e ∈ ops, e.printable = true)
  slots : s'.slots.used = s.slots.used + ops.countP (Emitted.spilled asg)

theorem emits_of_encodable (h : AllEncodable code) : Emits asg [] code s s where
  code_shows := shows_of_encodable_iff h (by simp) (by simp)
  slots := rfl

theorem Emits.append (h : Emits asg ops code s s₁) (h' : Emits asg ops' code' s₁ s') :
    Emits asg (ops ++ ops') (code ++ code') s s' where
  code_shows := (h.code_shows.append h'.code_shows).congr List.forall_mem_append.symm
    List.forall_mem_append.symm
  slots := by rw [h'.slots, h.slots, List.countP_append, Nat.add_assoc]

theorem Emits.before (h : Emits asg ops code s s') (henc : AllEncodable code') :
    Emits asg ops (code ++ code') s s' := by
  have hlast : Emits asg [] code' s' s' := emits_of_encodable henc
  have hboth := h.append hlast
  rwa [List.append_nil] at hboth

/-- An operation is a part that has no other parts. -/
theorem emits_operation {e : Emitted} (h : Shows code (e.executable asg = true)
    (e.printable = true)) (hspilled : e.spilled asg = false) : Emits asg [e] code s s where
  code_shows := h.congr (by simp) (by simp)
  slots := by simp [hspilled]

/-- A binding adds at most a slot to what it binds. -/
theorem Emits.bind {name : String} {init : Expr} (h : Emits asg ops code s₁ s')
    (hslots : s₁.slots.used = s.slots.used + if asg.find? name = some .spill then 1 else 0) :
    Emits asg (⟨.bind name init, asg.inFloat name⟩ :: ops) code s s' where
  code_shows := h.code_shows.congr (by simp [Emitted.executable]) (by simp [Emitted.printable])
  slots := by
    rw [h.slots, hslots, List.countP_cons]
    simp only [Emitted.spilled, decide_eq_true_eq]
    omega

end Emits

section Names

variable {f : Func} {asg : Assignment} {pools : Pools} {names : Typing} {scope : Scope} {x : Atom}
  {name : String} {s s' : Supply} {ty : Ty}

/-- Names in scope are held in float registers only if these are their locations. -/
def Classed (asg : Assignment) (scope : Scope) : Prop :=
  ∀ z o, List.lookup z scope = some o → o.isXReg = asg.inFloat z

theorem Classed.bind (h : Classed asg scope) {o : Operand} (ho : o.isXReg = asg.inFloat name) :
    Classed asg ((name, o) :: scope) := by
  intro z o' hz
  rw [List.lookup_cons] at hz
  by_cases heq : z = name
  · subst heq
    rw [beq_self_eq_true] at hz
    obtain rfl := Option.some.inj hz
    exact ho
  · rw [beq_eq_false_iff_ne.2 heq] at hz
    exact h z o' hz

theorem location_none_holds (h : location asg name s = .ok (none, s')) :
    asg.holds name = false ∧ s' = s := by
  rcases location_cases h with ⟨hfind, _, hs⟩ | ⟨r, _, hplace, _⟩ | ⟨r, _, hplace, _⟩ |
    ⟨_, hplace, _⟩
  · exact ⟨by rw [Assignment.holds, hfind], hs⟩
  all_goals cases hplace

theorem location_some_holds {o : Operand} (h : location asg name s = .ok (some o, s')) :
    asg.holds name = true ∧ o.isXReg = asg.inFloat name ∧
      s'.slots.used = s.slots.used + if asg.find? name = some .spill then 1 else 0 := by
  unfold Assignment.holds Assignment.inFloat
  rcases location_cases h with ⟨_, hplace, _⟩ | ⟨r, hfind, hplace, hs⟩ | ⟨r, hfind, hplace, hs⟩ |
    ⟨hfind, hplace, hs⟩
  · cases hplace
  all_goals
    cases hplace
    subst hs
    rw [hfind]
    exact ⟨rfl, rfl, rfl⟩

/-- A condition is held as an integer exactly if it can be tested. -/
theorem isInt_iff_testable (hcovers : Covers f names scope) (hclassed : Classed asg scope)
    (hx : x.inScope names = true) (hreads : x.reads ⊆ blockReads f.body) {o : Operand}
    (ho : scope.operand x = .ok o) : o.isInt = true ↔ x.testable asg = true := by
  unfold Atom.testable
  by_cases hvar : x.isVar = true
  · obtain ⟨o', ho', hint, hfloat⟩ := hcovers x.name x.ty (Atom.lookup_of_inScope hx hvar)
      (hreads (Atom.mem_reads.2 ⟨hvar, rfl⟩))
    have hplace : o' = o := by
      simp only [Scope.operand, hvar, if_true, Scope.find, ho'] at ho
      exact Except.ok.inj ho
    subst hplace
    rw [if_pos hvar, ← hclassed _ _ ho', Bool.not_eq_true']
    by_cases hty : x.ty = .float
    · have hsource := hfloat hty
      cases o' with
      | xreg r => exact iff_of_false (fun h => by cases h) (fun h => by cases h)
      | mem a => exact iff_of_true rfl rfl
      | _ => cases hsource
    · have hword := hint hty
      apply iff_of_true hword
      cases o' with
      | xreg r => cases hword
      | _ => rfl
  · rw [if_neg hvar, decide_eq_true_eq]
    by_cases hty : x.ty = .float
    · simp only [Scope.operand, hvar, Bool.false_eq_true, if_false, hty, if_true] at ho
      cases ho
      exact iff_of_false Bool.false_ne_true (not_not_intro hty)
    · simp only [Scope.operand, hvar, Bool.false_eq_true, if_false, hty] at ho
      cases ho
      exact iff_of_true rfl hty

end Names

section Operations

variable {f : Func} {names : Typing} {scope : Scope} {d o : Operand} {ty : Ty}

theorem ends_of_ok {α : Type} {P : α → Prop} {Q : Violation → Prop} {x : Except Failure α} {a : α}
    (h : x = .ok a) (ha : P a) : Ends P Q x := by
  rw [h]
  exact ha

/-- A destination does not take values of a type, and an immediate was to go there. -/
def Misfit (dst : Option Operand) (ty : Option Ty) (v : Violation) : Prop :=
  ¬ Takes dst ty ∧ ∃ (n : Int64) (r : XReg), v = .misplacedImmediate n (.xreg r)

theorem move_ends (hd : d.isPlace = true) (ho : o ≠ .absent)
    (himm : ∀ v, o = .imm v → ty ≠ .float) :
    Ends AllEncodable (Misfit (some d) (some ty)) (move d o) := by
  by_cases hmisfit : d.isXReg = true ∧ ∃ v, o = .imm v
  · obtain ⟨hxreg, v, rfl⟩ := hmisfit
    cases d with
    | xreg r =>
      refine ⟨fun htakes => himm v rfl ?_, v, r, rfl⟩
      exact Option.some.inj ((htakes _ rfl).2 rfl)
    | _ => cases hxreg
  · obtain ⟨code, hcode, henc⟩ := move_ok hd ho fun v hv =>
      Bool.eq_false_iff.2 fun hxreg => hmisfit ⟨hxreg, v, hv⟩
    exact ends_of_ok hcode henc

theorem deliver_ends {dst : Option Operand} (hdst : ∀ d, dst = some d → d.isPlace = true)
    (ho : o ≠ .absent) (himm : ∀ v, o = .imm v → ty ≠ .float) :
    Ends AllEncodable (Misfit dst (some ty)) (deliver dst o) := by
  cases dst with
  | none => exact allEncodable_nil
  | some d => exact move_ends (hdst d rfl) ho himm

theorem unary_ends (asg : Assignment) (s : Supply) {op : UnOp} {x : Atom}
    (hop : op.isDeclared = true) (hty : x.ty = ty)
    (hint : ty ≠ .float → o.isInt = true) (hfloat : ty = .float → isFloatSource o = true)
    (hd : d.isPlace = true) :
    Ends (fun code => Emits asg [⟨.unary op x ty, d.isXReg⟩] code s s)
      (fun v => Refusal v (.unary op x ty) ∨ Misfit (some d) (some ty) v) (unary op ty o d) := by
  cases op with
  | not =>
    by_cases hno : ty = .float
    · subst hno
      exact Or.inl (.negation hty)
    · obtain ⟨hbefore, hsource⟩ := encodable_unimm (hint hno)
      have hcmp : Instr.encodable (.cmp (unimm o).2 (.imm 0)) = true :=
        encodable_small hsource rfl false
      have htest := allEncodable_append.2 ⟨hbefore, allEncodable_cons.2 ⟨hcmp, allEncodable_nil⟩⟩
      have hcode : unary .not ty o d =
          .ok ((unimm o).1 ++ [Instr.cmp (unimm o).2 (.imm 0)] ++ setCond .e d) := by
        rw [List.append_assoc]
        exact if_neg hno
      have hshows := (shows_setCond .e hd).after htest
      refine ends_of_ok hcode (emits_operation (hshows.congr ?_ ?_) rfl)
      · rw [Emitted.executable, Bool.not_eq_true']
      · rw [Emitted.printable, Bool.not_eq_true']
  | neg =>
    by_cases hyes : ty = .float
    · obtain ⟨code, hcode, henc⟩ : ∃ code, unary .neg ty o d = .ok code ∧ AllEncodable code :=
        unary_ok rfl nofun hint hfloat hd (absurd hyes ·)
      exact ends_of_ok hcode (emits_operation (shows_of_encodable_iff henc rfl rfl) rfl)
    · have himm (v : Int64) (_ : o = .imm v) : ty ≠ .float := hyes
      have hmove := move_ends hd (ne_absent_of_isInt (hint hyes)) himm
      have hcode : unary .neg ty o d = do return (← move d o) ++ [Instr.neg d] := if_neg hyes
      rw [hcode]
      match move d o, hmove with
      | .ok code, henc =>
        exact emits_operation (((shows_neg hd).after henc).congr (iff_of_true trivial rfl)
          (iff_of_true trivial rfl)) rfl
      | .error (.violation v), hmisfit => exact Or.inr hmisfit
  | other symbol => cases hop

theorem binary_ends (asg : Assignment) (s : Supply) (hcovers : Covers f names scope) {op : BinOp}
    {l r : Atom}
    (hwf : (Expr.binary op l r ty).wellFormed names = true)
    (hreads : (Expr.binary op l r ty).reads ⊆ blockReads f.body) (hd : d.isPlace = true) :
    Ends (fun code => Emits asg [⟨.binary op l r ty, d.isXReg⟩] code s s)
      (fun v => Refusal v (.binary op l r ty)) (binary scope op l r ty d) := by
  simp only [Expr.wellFormed, Bool.and_eq_true, decide_eq_true_eq] at hwf
  obtain ⟨⟨⟨⟨⟨⟨hop, hl⟩, hr⟩, hlop⟩, hrop⟩, rfl⟩, hty⟩ := hwf
  rw [Expr.reads] at hreads
  obtain ⟨p, hp, _, hpint, hpfloat, _⟩ := hcovers.operand hl (List.append_subset.1 hreads).1
  obtain ⟨q, hq, _, hqint, hqfloat, _⟩ := hcovers.operand hr (List.append_subset.1 hreads).2
  by_cases hfloat : l.ty = .float
  · have hlvar : l.isVar = true := by simpa [Atom.isOperand, hfloat] using hlop
    have hrvar : r.isVar = true := by simpa [Atom.isOperand, hty, hfloat] using hrop
    have hpsource := hpfloat hlvar hfloat
    have hqsource := hqfloat hrvar (hty.trans hfloat)
    rw [binary_eq_floatBinary op hfloat hty.symm hp hq hpsource hqsource]
    by_cases hmod : op = .mod
    · subst hmod
      rw [hfloat]
      exact .remainder hfloat (hty.trans hfloat)
    · obtain ⟨code, hcode, hshows⟩ := floatBinary_shows hop hmod l.ty hpsource hqsource hd
      refine ends_of_ok hcode (emits_operation (hshows.congr ?_ ?_) rfl)
      · rw [Emitted.executable, Bool.not_eq_true']
      · simp [Emitted.printable, hfloat]
  · obtain ⟨code, hcode, hshows⟩ :=
      intBinary_shows hop l.ty (hpint hfloat) (hqint (hty ▸ hfloat)) hd
    rw [binary, if_neg (not_not_intro hty.symm), if_neg hfloat, hp, hq]
    refine ends_of_ok hcode (emits_operation (hshows.congr ?_ ?_) rfl)
    · rw [Emitted.executable, Bool.not_eq_true']
    · rw [Emitted.printable, Bool.not_eq_true', decide_eq_true hfloat, Bool.and_true]

end Operations

end Codegen

end ExprBackend
