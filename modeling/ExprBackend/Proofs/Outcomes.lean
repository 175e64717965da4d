import ExprBackend.Proofs.EmittedParts

/-!
# What comes of a loaded function

The code generator ends in one of two ways on a function in loader form with locations of the right
kind. Either there is code, and it is said which parts of the function have code of their own and
what each of them means for the instructions; or a rule is broken, and the function has a part that
is the cause: a remainder or a negation of floats, or a condition with a float in one branch only.
A well-typed function has no such part, and all its code can be encoded.
-/

namespace ExprBackend

namespace Codegen

open Machine

section Inside

variable {f : Func} {names : Typing} {x init : Expr} {xs onTrue b : List Expr}
  {onFalse : Option (List Expr)} {cond : Atom} {name : String}

/-- An expression of a function, with the names that are in scope in front of it. -/
structure Inside (f : Func) (names : Typing) (x : Expr) : Prop where
  wellFormed : x.wellFormed names = true
  reads : x.reads ⊆ blockReads f.body
  bindings : x.bindings ⊆ f.bindings

structure BlockInside (f : Func) (names : Typing) (xs : List Expr) : Prop where
  wellFormed : blockWellFormed xs names = true
  reads : blockReads xs ⊆ blockReads f.body
  bindings : blockBindings xs ⊆ f.bindings

theorem Inside.value (h : Inside f names (.bind name init)) : Inside f names init := by
  obtain ⟨hwf, hreads, hbindings⟩ := h
  rw [Expr.wellFormed, Bool.and_eq_true] at hwf
  rw [Expr.reads] at hreads
  rw [Expr.bindings] at hbindings
  exact ⟨hwf.2, hreads, (List.append_subset.1 hbindings).1⟩

theorem Inside.value_declares (h : Inside f names (.bind name init)) : init.declares = [] := by
  have hwf := h.wellFormed
  rw [Expr.wellFormed, Bool.and_eq_true, Bool.not_eq_true'] at hwf
  exact Expr.declares_of_isBind hwf.1

theorem Inside.bound (h : Inside f names (.bind name init)) : (name, init.tyOf) ∈ f.bindings := by
  have hbindings := h.bindings
  rw [Expr.bindings] at hbindings
  exact (List.append_subset.1 hbindings).2 List.mem_cons_self

theorem Inside.condition (h : Inside f names (.branch cond onTrue onFalse)) :
    cond.inScope names = true ∧ cond.reads ⊆ blockReads f.body := by
  obtain ⟨hwf, hreads, _⟩ := h
  cases onFalse with
  | none =>
    rw [Expr.wellFormed, Bool.and_eq_true] at hwf
    rw [Expr.reads] at hreads
    exact ⟨hwf.1, (List.append_subset.1 hreads).1⟩
  | some b =>
    simp only [Expr.wellFormed, Bool.and_eq_true] at hwf
    rw [Expr.reads, List.append_assoc] at hreads
    exact ⟨hwf.1.1, (List.append_subset.1 hreads).1⟩

theorem Inside.firstBranch (h : Inside f names (.branch cond onTrue onFalse)) :
    BlockInside f names onTrue := by
  obtain ⟨hwf, hreads, hbindings⟩ := h
  cases onFalse with
  | none =>
    rw [Expr.wellFormed, Bool.and_eq_true] at hwf
    rw [Expr.reads] at hreads
    rw [Expr.bindings] at hbindings
    exact ⟨hwf.2, (List.append_subset.1 hreads).2, hbindings⟩
  | some b =>
    simp only [Expr.wellFormed, Bool.and_eq_true] at hwf
    rw [Expr.reads] at hreads
    rw [Expr.bindings] at hbindings
    exact ⟨hwf.1.2, (List.append_subset.1 (List.append_subset.1 hreads).1).2,
      (List.append_subset.1 hbindings).1⟩

theorem Inside.secondBranch (h : Inside f names (.branch cond onTrue (some b))) :
    BlockInside f names b := by
  obtain ⟨hwf, hreads, hbindings⟩ := h
  rw [Expr.wellFormed, Bool.and_eq_true] at hwf
  rw [Expr.reads] at hreads
  rw [Expr.bindings] at hbindings
  exact ⟨hwf.2, (List.append_subset.1 hreads).2, (List.append_subset.1 hbindings).2⟩

theorem BlockInside.head (h : BlockInside f names (x :: xs)) : Inside f names x := by
  obtain ⟨hwf, hreads, hbindings⟩ := h
  rw [blockWellFormed, Bool.and_eq_true] at hwf
  rw [blockReads] at hreads
  rw [blockBindings] at hbindings
  exact ⟨hwf.1, (List.append_subset.1 hreads).1, (List.append_subset.1 hbindings).1⟩

theorem BlockInside.tail (h : BlockInside f names (x :: xs)) :
    BlockInside f (x.declares ++ names) xs := by
  obtain ⟨hwf, hreads, hbindings⟩ := h
  rw [blockWellFormed, Bool.and_eq_true] at hwf
  rw [blockReads] at hreads
  rw [blockBindings] at hbindings
  exact ⟨hwf.2, (List.append_subset.1 hreads).2, (List.append_subset.1 hbindings).2⟩

end Inside

section Blocks

variable {f : Func} {asg : Assignment} {pools : Pools} {names : Typing} {scope : Scope}
  {dst : Option Operand} {d o : Operand} {s : Supply} {x y init : Expr} {xs onTrue b : List Expr}
  {onFalse : Option (List Expr)} {cond : Atom} {name : String} {ty : Ty}

structure Stored (f : Func) (asg : Assignment) (names : Typing) (scope : Scope) : Prop where
  covers : Covers f names scope
  classed : Classed asg scope

/-- A statement has code for its parts, and the names behind it have places. If the statement is
well-typed and fits its destination, the code can be encoded. -/
structure Generated (f : Func) (asg : Assignment) (names : Typing) (x : Expr) (dst : Option Operand)
    (s : Supply) (r : (List Instr × Scope) × Supply) : Prop where
  stored : Stored f asg names r.1.2
  emits : Emits asg (x.emitted asg (dst.map Operand.isXReg)) r.1.1 s r.2
  encodable : x.wellTyped = true → Takes dst x.ty? → AllEncodable r.1.1

structure BlockGenerated (asg : Assignment) (xs : List Expr) (dst : Option Operand) (s : Supply)
    (r : List Instr × Supply) : Prop where
  emits : Emits asg (blockEmitted asg xs (dst.map Operand.isXReg)) r.1 s r.2
  encodable : blockWellTyped xs = true → (xs ≠ [] → Takes dst (blockTy? xs)) → AllEncodable r.1

/-- Why a statement has no code: because of one of its parts, or because of its destination. -/
def Stops (parts : List Expr) (dst : Option Operand) (ty : Option Ty) (v : Violation) : Prop :=
  (∃ y ∈ parts, Refusal v y) ∨ Misfit dst ty v

theorem Stops.mono {ps qs : List Expr} {ty : Option Ty} {v : Violation} (h : Stops ps dst ty v)
    (hsub : ps ⊆ qs) : Stops qs dst ty v := by
  rcases h with ⟨y, hy, hrefusal⟩ | hmisfit
  · exact Or.inl ⟨y, hsub hy, hrefusal⟩
  · exact Or.inr hmisfit

/-- If the destination fits, a part is the cause. -/
theorem Stops.refusal {ps : List Expr} {ty : Option Ty} {v : Violation} (h : Stops ps dst ty v)
    (htakes : Takes dst ty) : ∃ y ∈ ps, Refusal v y := by
  rcases h with hrefusal | ⟨hmisfit, _⟩
  · exact hrefusal
  · exact absurd htakes hmisfit

theorem takes_none (ty : Option Ty) : Takes none ty := by
  intro d hd
  cases hd

def StatementEnds (f : Func) (asg : Assignment) (names : Typing) (x : Expr) (scope : Scope)
    (dst : Option Operand) (s : Supply) : Prop :=
  Ends (Generated f asg (x.declares ++ names) x dst s) (Stops x.parts dst x.ty?)
    (statement f.name asg x scope dst s)

def BlockEnds (f : Func) (asg : Assignment) (xs : List Expr) (scope : Scope) (dst : Option Operand)
    (s : Supply) : Prop :=
  Ends (BlockGenerated asg xs dst s) (fun v => xs ≠ [] ∧ Stops (blockParts xs) dst (blockTy? xs) v)
    (block f.name asg xs scope dst s)

theorem StatementEnds.atom {a : Atom} (h : Inside f names (.atom a))
    (hstored : Stored f asg names scope) (hdst : ∀ d, dst = some d → d.isPlace = true) :
    StatementEnds f asg names (.atom a) scope dst s := by
  obtain ⟨hwf, hreads, _⟩ := h
  rw [Expr.wellFormed] at hwf
  rw [Expr.reads] at hreads
  obtain ⟨o, ho, hthere, _, _, himm⟩ := hstored.covers.operand hwf hreads
  rw [StatementEnds, statement]
  apply Ends.bind ((ends_of_ok ho (P := fun a => a = o) rfl).lift s)
  rintro _ _ ⟨rfl, rfl⟩
  apply Ends.bind (((deliver_ends hdst hthere himm).weaken fun v h => Or.inr h).lift _)
  rintro code _ ⟨henc, rfl⟩
  exact ⟨hstored, emits_of_encodable henc, fun _ _ => henc⟩

/-- The value of an operation that is not used is not computed. -/
theorem StatementEnds.unwanted (hstored : Stored f asg names scope)
    (hcode : statement f.name asg x scope none s = .ok (([], scope), s))
    (hdeclares : x.declares = []) (hemitted : x.emitted asg none = []) :
    StatementEnds f asg names x scope none s := by
  refine ends_of_ok hcode ⟨?_, ?_, fun _ _ => allEncodable_nil⟩
  · rw [hdeclares]
    exact hstored
  · rw [Option.map_none, hemitted]
    exact emits_of_encodable allEncodable_nil

theorem StatementEnds.unary {op : UnOp} {a : Atom} (h : Inside f names (.unary op a ty))
    (hstored : Stored f asg names scope) (hd : d.isPlace = true) :
    StatementEnds f asg names (.unary op a ty) scope (some d) s := by
  obtain ⟨hwf, hreads, _⟩ := h
  simp only [Expr.wellFormed, Bool.and_eq_true, decide_eq_true_eq] at hwf
  obtain ⟨⟨⟨hop, ha⟩, haop⟩, rfl⟩ := hwf
  rw [Expr.reads] at hreads
  obtain ⟨o, ho, _, hint, hofloat, _⟩ := hstored.covers.operand ha hreads
  have hsource (hfloat : a.ty = .float) : isFloatSource o = true :=
    hofloat (by simpa [Atom.isOperand, hfloat] using haop) hfloat
  have hencodable (code : List Instr) (hcode : Codegen.unary op a.ty o d = .ok code)
      (ht : (Expr.unary op a a.ty).wellTyped = true) (htakes : Takes (some d) (some a.ty)) :
      AllEncodable code := by
    have hnot : op = .not → a.ty ≠ .float := by
      rintro rfl hty
      simp [Expr.wellTyped, hty] at ht
    obtain ⟨code', hcode', henc⟩ := unary_ok hop hnot hint hsource hd htakes.isXReg
    rwa [Except.ok.inj (hcode.symm.trans hcode')]
  have hends := (unary_ends asg s hop rfl hint hsource hd).and_ok hencodable
  rw [StatementEnds, statement]
  apply Ends.bind ((ends_of_ok ho (P := fun a => a = o) rfl).lift s)
  rintro _ _ ⟨rfl, rfl⟩
  apply Ends.bind ((hends.weaken ?_).lift _)
  · rintro code _ ⟨⟨hemits, henc⟩, rfl⟩
    exact ⟨hstored, hemits, henc⟩
  · rintro v (hrefusal | hmisfit)
    · exact Or.inl ⟨_, Expr.mem_parts_self _, hrefusal⟩
    · exact Or.inr hmisfit

theorem StatementEnds.binary {op : BinOp} {l r : Atom} (h : Inside f names (.binary op l r ty))
    (hstored : Stored f asg names scope) (hd : d.isPlace = true) :
    StatementEnds f asg names (.binary op l r ty) scope (some d) s := by
  have hencodable (code : List Instr) (hcode : Codegen.binary scope op l r ty d = .ok code)
      (ht : (Expr.binary op l r ty).wellTyped = true)
      (htakes : Takes (some d) (Expr.binary op l r ty).ty?) : AllEncodable code := by
    obtain ⟨code', hcode', henc⟩ := binary_ok hstored.covers h.wellFormed ht h.reads htakes
    rwa [Except.ok.inj (hcode.symm.trans hcode')]
  have hends := (binary_ends asg s hstored.covers h.wellFormed h.reads hd).and_ok hencodable
  rw [StatementEnds, statement]
  apply Ends.bind ((hends.weaken ?_).lift s)
  · rintro code _ ⟨⟨hemits, henc⟩, rfl⟩
    exact ⟨hstored, hemits, henc⟩
  · intro v hrefusal
    exact Or.inl ⟨_, Expr.mem_parts_self _, hrefusal⟩

/-- A binding whose name has no place: its name is not read. -/
theorem StatementEnds.bind_unread (h : Inside f names (.bind name init))
    (hloc : location asg name s = .ok (none, s)) (hunread : name ∉ blockReads f.body)
    (hinit : StatementEnds f asg names init scope dst s) :
    StatementEnds f asg names (.bind name init) scope dst s := by
  rw [StatementEnds, statement_bind_none hloc]
  apply hinit.mono
  · rintro r ⟨⟨hcovers, hclassed⟩, hemits, henc⟩
    rw [h.value_declares] at hcovers
    refine ⟨⟨hcovers.unread hunread, hclassed⟩, ?_, ?_⟩
    · rwa [Expr.emitted, (location_none_holds hloc).1]
    · rwa [Expr.wellTyped, Expr.ty?]
  · intro v hstops
    exact hstops.mono (List.subset_cons_self _ _)

/-- A binding whose name has a place, in which its value is made first. -/
theorem StatementEnds.bind_stored {s₁ : Supply} (h : Inside f names (.bind name init))
    (hloc : location asg name s = .ok (some o, s₁)) (hplace : o.isPlace = true)
    (hxreg : o.isXReg = true → init.tyOf = .float) (hint : init.tyOf ≠ .float → o.isInt = true)
    (hfloat : init.tyOf = .float → isFloatSource o = true)
    (hdst : ∀ d, dst = some d → d.isPlace = true)
    (hinit : StatementEnds f asg names init scope (some o) s₁) :
    StatementEnds f asg names (.bind name init) scope dst s := by
  obtain ⟨hholds, hclass, hslots⟩ := location_some_holds hloc
  have htakes : Takes (some o) init.ty? := by
    rintro d ⟨⟩
    refine ⟨hplace, fun hd => ?_⟩
    obtain ⟨ty, hty⟩ := Option.isSome_iff_exists.1 (init.ty?_isSome names h.value.wellFormed)
    rw [hty, ← hxreg hd, Expr.tyOf, hty]
    rfl
  have hdeliver : Ends AllEncodable
      (Stops (Expr.bind name init).parts dst (Expr.bind name init).ty?) (deliver dst o) := by
    cases dst with
    | none => exact allEncodable_nil
    | some d =>
      obtain ⟨last, hlast, henc⟩ := move_place_ok (hdst d rfl) hplace
      exact ends_of_ok hlast henc
  rw [StatementEnds, statement, StateT.bind_of_ok hloc]
  apply Ends.bind (hinit.weaken ?_)
  · rintro ⟨code, scope'⟩ s' ⟨⟨hcovers, hclassed⟩, hemits, henc⟩
    apply Ends.bind (hdeliver.lift s')
    rintro last _ ⟨hlast, rfl⟩
    rw [h.value_declares] at hcovers
    rw [Option.map_some, hclass] at hemits
    refine ⟨⟨hcovers.bind hint hfloat, hclassed.bind hclass⟩, ?_, ?_⟩
    · rw [Expr.emitted, if_pos hholds]
      exact (hemits.before hlast).bind hslots
    · intro ht _
      rw [Expr.wellTyped] at ht
      exact allEncodable_append.2 ⟨henc ht htakes, hlast⟩
  · intro v hstops
    exact Stops.mono (Or.inl (hstops.refusal htakes)) (List.subset_cons_self _ _)

theorem StatementEnds.bind (hsuits : asg.Suits f pools) (h : Inside f names (.bind name init))
    (hdst : ∀ d, dst = some d → d.isPlace = true)
    (hinit : ∀ dst' s', (∀ d, dst' = some d → d.isPlace = true) →
      StatementEnds f asg names init scope dst' s') :
    StatementEnds f asg names (.bind name init) scope dst s := by
  rcases location_ok hsuits h.bound s with ⟨hloc, hunread⟩ |
    ⟨o, s₁, hloc, hplace, hxreg, hint, hfloat⟩
  · exact .bind_unread h hloc hunread (hinit dst s hdst)
  · apply StatementEnds.bind_stored h hloc hplace hxreg hint hfloat hdst
    apply hinit
    rintro _ ⟨⟩
    exact hplace

/-- A condition has the code of its branches. -/
theorem branch_ends {P : List Instr × Supply → Prop} {P' : Supply → List Instr × Supply → Prop}
    {Q : Violation → Prop} (ho : scope.operand cond = .ok o)
    (hfirst : Ends P Q
      (block f.name asg onTrue scope (some d) { s with branches := s.branches + 1 }))
    (hsecond : ∀ s₁, Ends (P' s₁) Q (optionBlock f.name asg onFalse scope (some d) s₁)) :
    Ends (fun r => ∃ first s₁ second, P (first, s₁) ∧ P' s₁ (second, r.2) ∧
        r.1 = (branchCode f.name s.branches o first second, scope)) Q
      (statement f.name asg (.branch cond onTrue onFalse) scope (some d) s) := by
  have hnext : nextBranch s = .ok (s.branches, { s with branches := s.branches + 1 }) := rfl
  have hbranches : Ends (fun r => ∃ first s₁ second, P (first, s₁) ∧ P' s₁ (second, r.2) ∧
        r.1 = (branchCode f.name s.branches o first second, scope)) Q
      ((do
        let n ← nextBranch
        let c ← scope.operand cond
        let first ← block f.name asg onTrue scope (some d)
        let second ← optionBlock f.name asg onFalse scope (some d)
        return (branchCode f.name n c first second, scope) : Emit (List Instr × Scope)) s) := by
    rw [StateT.bind_of_ok hnext]
    apply Ends.bind ((ends_of_ok ho (P := fun a => a = o) rfl).lift _)
    rintro _ _ ⟨rfl, rfl⟩
    apply Ends.bind hfirst
    intro first s₁ h
    apply Ends.bind (hsecond s₁)
    intro second s' h'
    exact ⟨first, s₁, second, h, h', rfl⟩
  cases onFalse with
  | none =>
    simp only [statement]
    exact hbranches
  | some b =>
    simp only [statement]
    exact hbranches

theorem emits_branch {ops ops' : List Emitted} {inFloat : Bool} {first second : List Instr}
    {s₁ s' : Supply} (hthere : o ≠ .absent) (htest : o.isInt = true ↔ cond.testable asg = true)
    (h : Emits asg ops first { s with branches := s.branches + 1 } s₁)
    (h' : Emits asg ops' second s₁ s') :
    Emits asg (⟨.branch cond onTrue onFalse, inFloat⟩ :: (ops ++ ops'))
      (branchCode f.name s.branches o first second) s s' := by
  refine ⟨(shows_branchCode _ _ hthere h.code_shows h'.code_shows).congr ?_ ?_, ?_⟩
  · rw [htest, List.forall_mem_cons, List.forall_mem_append]
    rfl
  · rw [List.forall_mem_cons, List.forall_mem_append]
    exact (and_iff_right rfl).symm
  · rw [h'.slots, h.slots, List.countP_cons, List.countP_append]
    simp only [Emitted.spilled, Bool.false_eq_true, if_false]
    omega

/-- A condition without a second branch. -/
theorem StatementEnds.branch_one (h : Inside f names (.branch cond onTrue none))
    (hstored : Stored f asg names scope) (hfirst : ∀ s, BlockEnds f asg onTrue scope (some d) s) :
    StatementEnds f asg names (.branch cond onTrue none) scope (some d) s := by
  obtain ⟨o, ho, hthere, hint, _⟩ := hstored.covers.operand h.condition.1 h.condition.2
  have htest := isInt_iff_testable hstored.covers hstored.classed h.condition.1 h.condition.2 ho
  have hsecond (s₁ : Supply) : Ends (fun r => Emits asg [] r.1 s₁ r.2 ∧ AllEncodable r.1)
      (Stops (Expr.branch cond onTrue none).parts (some d) (blockTy? onTrue))
      (optionBlock f.name asg none scope (some d) s₁) :=
    ⟨emits_of_encodable allEncodable_nil, allEncodable_nil⟩
  refine (branch_ends ho ((hfirst _).weaken ?_) hsecond).mono ?_ fun _ h => h
  · rintro v ⟨_, hstops⟩
    exact hstops.mono (List.subset_cons_self _ _)
  · rintro ⟨_, s'⟩ ⟨first, s₁, second, ⟨hfirst, hfirstEnc⟩, ⟨hsecond, hsecondEnc⟩, rfl⟩
    refine ⟨hstored, ?_, fun ht htakes => ?_⟩
    · rw [Option.map_some, Expr.emitted, ← List.append_nil (blockEmitted asg onTrue _)]
      exact emits_branch hthere htest hfirst hsecond
    · rw [Expr.wellTyped, Bool.and_eq_true, decide_eq_true_eq] at ht
      exact allEncodable_branchCode _ _ (hint ht.1) (hfirstEnc ht.2 fun _ => htakes) hsecondEnc

/-- A second branch may not fit a destination that the first fits; then the condition is the
cause. -/
theorem refusal_of_misfit {v : Violation} (hd : d.isPlace = true)
    (htakes : Takes (some d) (blockTy? onTrue)) (hb : b ≠ [])
    (hmisfit : Misfit (some d) (blockTy? b) v) : Refusal v (.branch cond onTrue (some b)) := by
  obtain ⟨hnot, n, r, rfl⟩ := hmisfit
  have hxreg : d.isXReg = true := by
    by_contra hword
    apply hnot
    rintro _ ⟨⟩
    exact ⟨hd, fun h => absurd h hword⟩
  have hfirst : blockTy? onTrue = some .float := (htakes d rfl).2 hxreg
  have hsecond : blockTy? b ≠ some .float := by
    intro hfloat
    apply hnot
    rintro _ ⟨⟩
    exact ⟨hd, fun _ => hfloat⟩
  refine .branches n r ?_ hb ?_
  · rintro rfl
    cases hfirst
  · rw [blockIsFloat, blockIsFloat, decide_eq_true hfirst, decide_eq_false hsecond]
    exact nofun

/-- A float register asks for a float of the first branch, so that the second has one too. -/
theorem Takes.second (h : Takes (some d) (blockTy? onTrue))
    (hclass : (onTrue.isEmpty || b.isEmpty || (blockIsFloat onTrue == blockIsFloat b)) = true)
    (hb : b ≠ []) : Takes (some d) (blockTy? b) := by
  rintro e ⟨⟩
  obtain ⟨hplace, hxreg⟩ := h d rfl
  refine ⟨hplace, fun hd => ?_⟩
  have honTrue : onTrue ≠ [] := by
    rintro rfl
    cases hxreg hd
  simpa [blockIsFloat, hxreg hd, honTrue, hb] using hclass

/-- A condition with two branches. -/
theorem StatementEnds.branch_both (h : Inside f names (.branch cond onTrue (some b)))
    (hstored : Stored f asg names scope) (hd : d.isPlace = true)
    (hfirst : ∀ s, BlockEnds f asg onTrue scope (some d) s)
    (hsecond : ∀ s, BlockEnds f asg b scope (some d) s) :
    StatementEnds f asg names (.branch cond onTrue (some b)) scope (some d) s := by
  obtain ⟨o, ho, hthere, hint, _⟩ := hstored.covers.operand h.condition.1 h.condition.2
  have htest := isInt_iff_testable hstored.covers hstored.classed h.condition.1 h.condition.2 ho
  refine (branch_ends ho ((hfirst _).weaken ?_) fun s₁ => (hsecond s₁).weaken ?_).mono ?_
    fun _ h => h
  · rintro v ⟨_, hstops⟩
    exact hstops.mono (List.subset_cons_of_subset _ (List.subset_append_left _ _))
  · rintro v ⟨hb, ⟨y, hy, hrefusal⟩ | hmisfit⟩
    · exact Or.inl ⟨y, List.mem_cons_of_mem _ (List.mem_append_right _ hy), hrefusal⟩
    · by_cases htakes : Takes (some d) (blockTy? onTrue)
      · exact Or.inl ⟨_, Expr.mem_parts_self _, refusal_of_misfit hd htakes hb hmisfit⟩
      · exact Or.inr ⟨htakes, hmisfit.2⟩
  · rintro ⟨_, s'⟩ ⟨first, s₁, second, ⟨hfirst, hfirstEnc⟩, ⟨hsecond, hsecondEnc⟩, rfl⟩
    refine ⟨hstored, emits_branch hthere htest hfirst hsecond, fun ht htakes => ?_⟩
    simp only [Expr.wellTyped, Bool.and_eq_true, decide_eq_true_eq] at ht
    obtain ⟨⟨⟨hcond, hfirstTyped⟩, hsecondTyped⟩, hclass⟩ := ht
    rw [Expr.ty?] at htakes
    exact allEncodable_branchCode _ _ (hint hcond) (hfirstEnc hfirstTyped fun _ => htakes)
      (hsecondEnc hsecondTyped (htakes.second hclass))

theorem BlockEnds.single (hx : StatementEnds f asg names x scope dst s) :
    BlockEnds f asg [x] scope dst s := by
  rw [BlockEnds, block]
  apply Ends.bind (hx.weaken ?_)
  · rintro ⟨code, scope'⟩ s' ⟨_, hemits, henc⟩
    refine ⟨hemits, fun ht htakes => ?_⟩
    rw [blockWellTyped, Bool.and_eq_true] at ht
    exact henc ht.1 (htakes (List.cons_ne_nil _ _))
  · intro v hstops
    exact ⟨List.cons_ne_nil _ _, hstops.mono (List.subset_append_left _ _)⟩

theorem BlockEnds.cons (hx : StatementEnds f asg names x scope none s)
    (hrest : ∀ scope' s', Stored f asg (x.declares ++ names) scope' →
      BlockEnds f asg (y :: xs) scope' dst s') : BlockEnds f asg (x :: y :: xs) scope dst s := by
  rw [BlockEnds, block]
  apply Ends.bind (hx.weaken ?_)
  · rintro ⟨first, scope₁⟩ s₁ ⟨hstored, hemits, henc⟩
    apply Ends.bind ((hrest scope₁ s₁ hstored).weaken ?_)
    · rintro rest s' ⟨hrestEmits, hrestEnc⟩
      refine ⟨hemits.append hrestEmits, fun ht htakes => ?_⟩
      rw [blockWellTyped, Bool.and_eq_true] at ht
      exact allEncodable_append.2 ⟨henc ht.1 (takes_none _),
        hrestEnc ht.2 fun _ => htakes (List.cons_ne_nil _ _)⟩
    · rintro v ⟨_, hstops⟩
      exact ⟨List.cons_ne_nil _ _, hstops.mono (List.subset_append_right _ _)⟩
  · intro v hstops
    refine ⟨List.cons_ne_nil _ _, Stops.mono (Or.inl ?_) (List.subset_append_left _ _)⟩
    exact hstops.refusal (takes_none _)

mutual

theorem statement_ends (hsuits : asg.Suits f pools) : ∀ (x : Expr) {names : Typing} {scope : Scope}
    (dst : Option Operand) (s : Supply), Inside f names x → Stored f asg names scope →
    (∀ d, dst = some d → d.isPlace = true) → StatementEnds f asg names x scope dst s
  | .atom a, names, scope, dst, s, h, hstored, hdst => .atom h hstored hdst
  | .bind name init, names, scope, dst, s, h, hstored, hdst =>
    .bind hsuits h hdst fun dst' s' hdst' =>
      statement_ends hsuits init dst' s' h.value hstored hdst'
  | .unary op a ty, names, scope, none, s, h, hstored, hdst =>
    .unwanted hstored (by simp only [statement]; rfl) rfl rfl
  | .unary op a ty, names, scope, some d, s, h, hstored, hdst => .unary h hstored (hdst d rfl)
  | .binary op l r ty, names, scope, none, s, h, hstored, hdst =>
    .unwanted hstored (by simp only [statement]; rfl) rfl rfl
  | .binary op l r ty, names, scope, some d, s, h, hstored, hdst => .binary h hstored (hdst d rfl)
  | .branch cond onTrue none, names, scope, none, s, h, hstored, hdst =>
    .unwanted hstored (by simp only [statement]; rfl) rfl rfl
  | .branch cond onTrue (some b), names, scope, none, s, h, hstored, hdst =>
    .unwanted hstored (by simp only [statement]; rfl) rfl rfl
  | .branch cond onTrue none, names, scope, some d, s, h, hstored, hdst =>
    .branch_one h hstored fun s' => block_ends hsuits onTrue (some d) s' h.firstBranch hstored hdst
  | .branch cond onTrue (some b), names, scope, some d, s, h, hstored, hdst =>
    .branch_both h hstored (hdst d rfl)
      (fun s' => block_ends hsuits onTrue (some d) s' h.firstBranch hstored hdst)
      fun s' => block_ends hsuits b (some d) s' h.secondBranch hstored hdst
  | .missing, names, scope, dst, s, h, hstored, hdst => by
    have hwf := h.wellFormed
    simp [Expr.wellFormed] at hwf

theorem block_ends (hsuits : asg.Suits f pools) : ∀ (xs : List Expr) {names : Typing}
    {scope : Scope} (dst : Option Operand) (s : Supply), BlockInside f names xs →
    Stored f asg names scope → (∀ d, dst = some d → d.isPlace = true) →
    BlockEnds f asg xs scope dst s
  | [], names, scope, dst, s, _, _, _ => by
    rw [BlockEnds, block]
    exact ⟨emits_of_encodable allEncodable_nil, fun _ _ => allEncodable_nil⟩
  | [x], names, scope, dst, s, h, hstored, hdst =>
    .single (statement_ends hsuits x dst s h.head hstored hdst)
  | x :: y :: xs, names, scope, dst, s, h, hstored, hdst =>
    .cons (statement_ends hsuits x none s h.head hstored nofun) fun scope' s' hstored' =>
      block_ends hsuits (y :: xs) dst s' h.tail hstored' hdst

end

end Blocks

section Frame

variable {asg : Assignment} {saved : List Reg}

theorem paramPlace_classed {n : Nat} {name : String} {o : Operand}
    (h : paramPlace asg n name = .ok o) : o.isXReg = asg.inFloat name := by
  unfold paramPlace at h
  unfold Assignment.inFloat
  split at h
  next r hfind =>
    cases h
    rw [hfind]
    rfl
  next r hfind =>
    cases h
    rw [hfind]
    rfl
  next => cases h
  next hreg hxreg hother =>
    cases h
    split
    next r hfind => exact absurd hfind (hxreg r)
    next => rfl

theorem loadParams_classed {ps : List Param} {n : Nat} {scope scope' : Scope} {code : List Instr}
    (h : loadParams asg n ps scope = .ok (code, scope')) (hclassed : Classed asg scope) :
    Classed asg scope' := by
  induction ps generalizing n scope code with
  | nil =>
    cases h
    exact hclassed
  | cons p ps ih =>
    obtain ⟨o, first, rest, ho, _, hrest, _⟩ := loadParams_cons.1 h
    exact ih hrest (hclassed.bind (paramPlace_classed ho))

theorem allEncodable_epilogue : AllEncodable (epilogue saved) := by
  have hpops : AllEncodable (saved.reverse.map .pop) := by simp [AllEncodable, Instr.encodable]
  rw [epilogue, allEncodable_append]
  exact ⟨hpops, by simp [AllEncodable, Instr.encodable, Machine.encodable]⟩

/-- The frame is taken from the stack by one instruction, which has room for 32 bits. -/
theorem shows_entry (name : String) (frame : Nat) (saved : List Reg) :
    Shows (entry name frame saved) (fitsImm32 (Int64.ofNat frame) = true) True := by
  have hstart : AllEncodable [.label name, .push .rbp, .mov (.reg .rbp) (.reg .rsp)] := by
    simp [AllEncodable, Instr.encodable, Machine.encodable]
  have hpushes : AllEncodable (saved.map .push) := by simp [AllEncodable, Instr.encodable]
  have hframe : Shows (if frame = 0 then [] else [.sub (.reg .rsp) (.imm (Int64.ofNat frame))])
      (fitsImm32 (Int64.ofNat frame) = true) True := by
    split
    next h =>
      subst h
      exact shows_of_encodable_iff allEncodable_nil rfl trivial
    next =>
      cases hfits : fitsImm32 (Int64.ofNat frame) with
      | true =>
        have hsub : Instr.encodable (.sub (.reg .rsp) (.imm (Int64.ofNat frame))) = true :=
          encodable_small (d := .reg .rsp) rfl hfits false
        exact shows_of_encodable_iff (allEncodable_cons.2 ⟨hsub, allEncodable_nil⟩) rfl trivial
      | false =>
        have hwide : Machine.encodable (.reg .rsp) (.imm (Int64.ofNat frame)) false = false := by
          rw [Machine.encodable, hfits]
          rfl
        constructor
        · apply iff_of_false _ Bool.false_ne_true
          intro h
          exact (Instr.not_legal_combine hwide).2 (h _ List.mem_cons_self)
        · apply iff_of_true _ trivial
          simp only [List.mem_singleton, forall_eq]
          exact Instr.printable_of_isWhole rfl
  exact (hframe.after hstart).before hpushes

end Frame

end Codegen

namespace Func

open Codegen

variable {f : Func} {asg : Assignment} {pools : Pools}

def emitted (f : Func) (asg : Assignment) : List Emitted :=
  blockEmitted asg f.body (some (decide (f.result? = some .float)))

/-- The size of the frame of a function, which has a slot for every binding that is spilled. -/
def frameSize (f : Func) (asg : Assignment) : Nat :=
  Slots.frameSize ⟨(f.emitted asg).countP (Emitted.spilled asg)⟩

def Usable (f : Func) (asg : Assignment) : Prop :=
  (∀ e ∈ f.emitted asg, e.executable asg = true) ∧
    fitsImm32 (Int64.ofNat (f.frameSize asg)) = true

theorem code_of_block_error {load : List Instr} {scope : Scope} {ty : Ty} {e : Failure}
    (hname : f.name ≠ "") (hload : loadParams asg 0 f.params [] = .ok (load, scope))
    (hty : f.result? = some ty)
    (hblock : block f.name asg f.body scope (some (resultPlace ty)) {} = .error e) :
    f.code asg = .error (.failure e) := by
  have hbody : f.bodyCode asg = .error e := by
    simp only [bodyCode, hload, result_eq_ok.2 hty]
    change (block f.name asg f.body scope (some (resultPlace ty)) {} >>= fun r =>
      pure (load ++ r.1, r.2)) = .error e
    rw [hblock]
    rfl
  rw [code, if_neg hname, hbody]

/-- The body of a loaded function, once its parameters are in place. -/
theorem body_ends (hf : f.LoaderForm) (hsuits : asg.Suits f pools) :
    ∃ load scope ty, loadParams asg 0 f.params [] = .ok (load, scope) ∧ AllEncodable load ∧
      f.result? = some ty ∧ BlockEnds f asg f.body scope (some (resultPlace ty)) {} := by
  obtain ⟨load, scope, hload, hloadEnc, hcovers⟩ := loadParams_covers hsuits (fun _ hp => hp)
    (show Covers f [] [] from fun _ _ h => by cases h)
  have hclassed : Classed asg scope := loadParams_classed hload fun _ _ h => by cases h
  obtain ⟨ty, hty⟩ :=
    Option.isSome_iff_exists.1 (blockTy?_isSome f.body f.paramTyping hf.wellFormed)
  have hinside : BlockInside f f.paramTyping f.body :=
    ⟨hf.wellFormed, List.Subset.refl _, List.subset_append_right _ _⟩
  have hplace : ∀ d, some (resultPlace ty) = some d → d.isPlace = true := fun d hd =>
    (takes_result ty d hd).1
  exact ⟨load, scope, ty, hload, hloadEnc, hty,
    block_ends hsuits f.body _ {} hinside ⟨covers_params hf hcovers, hclassed⟩ hplace⟩

/-- A loaded function has code, of which it is known when it is legal and when it is printable, or
the function has a part that breaks a rule. -/
theorem code_outcome (hf : f.LoaderForm) (hsuits : asg.Suits f pools) :
    (∃ code, f.code asg = .ok code ∧
      Shows code (f.Usable asg) (∀ e ∈ f.emitted asg, e.printable = true)) ∨
    ∃ v, f.code asg = .error (.failure (.violation v)) ∧ ∃ x ∈ blockParts f.body, Refusal v x := by
  obtain ⟨load, scope, ty, hload, hloadEnc, hty, hends⟩ := body_ends hf hsuits
  have hxreg : (resultPlace ty).isXReg = decide (f.result? = some .float) := by
    rw [hty, resultPlace]
    split
    next hfloat => simp [hfloat, Operand.isXReg]
    next hfloat => simp [hfloat, Operand.isXReg]
  rw [BlockEnds] at hends
  cases hblock : block f.name asg f.body scope (some (resultPlace ty)) {} with
  | ok r =>
    obtain ⟨body, supply⟩ := r
    rw [hblock] at hends
    obtain ⟨⟨hshows, hslots⟩, _⟩ := hends
    rw [Option.map_some, hxreg] at hshows hslots
    have hframe : supply.slots.frameSize = f.frameSize asg := by
      rw [frameSize, Slots.frameSize, hslots, Nat.zero_add]
      rfl
    refine Or.inl ⟨_, code_eq_ok.2
      ⟨hf.named, load, scope, ty, body, supply, hload, hty, hblock, rfl⟩, ?_⟩
    have hdirectives : AllEncodable [.text, .global f.name] := by
      simp [AllEncodable, Instr.encodable]
    have hend : AllEncodable (epilogue (savedRegs asg)) := allEncodable_epilogue
    have hall := ((shows_entry f.name supply.slots.frameSize (savedRegs asg)).append
      ((hshows.before hend).after hloadEnc)).after hdirectives
    refine hall.congr ?_ (Iff.of_eq (true_and _))
    rw [hframe, And.comm]
    rfl
  | error e =>
    rw [hblock] at hends
    cases e with
    | violation v =>
      obtain ⟨_, hstops⟩ := hends
      refine Or.inr ⟨v, code_of_block_error hf.named hload hty hblock, ?_⟩
      rw [result?] at hty
      exact hstops.refusal (hty ▸ takes_result ty)
    | _ => cases hends

/-- A well-typed function has no part that breaks a rule, and the code of its body can be
encoded. -/
theorem parts_ok (hf : f.LoaderForm) (ht : f.WellTyped) (hsuits : asg.Suits f pools) :
    ∃ load scope ty body supply, loadParams asg 0 f.params [] = .ok (load, scope) ∧
      f.result? = some ty ∧
      block f.name asg f.body scope (some (resultPlace ty)) {} = .ok (body, supply) ∧
      AllEncodable load ∧ AllEncodable body := by
  obtain ⟨load, scope, ty, hload, hloadEnc, hty, hends⟩ := body_ends hf hsuits
  have htakes : Takes (some (resultPlace ty)) (blockTy? f.body) := by
    rw [result?] at hty
    exact hty ▸ takes_result ty
  rw [BlockEnds] at hends
  cases hblock : block f.name asg f.body scope (some (resultPlace ty)) {} with
  | ok r =>
    rw [hblock] at hends
    exact ⟨load, scope, ty, r.1, r.2, hload, hty, hblock, hloadEnc,
      hends.encodable ht fun _ => htakes⟩
  | error e =>
    rw [hblock] at hends
    cases e with
    | violation v =>
      obtain ⟨_, hstops⟩ := hends
      obtain ⟨y, hy, hrefusal⟩ := hstops.refusal htakes
      have htyped := wellTyped_of_mem_blockParts f.body ht hy
      rw [hrefusal.not_wellTyped] at htyped
      cases htyped
    | _ => cases hends

theorem exists_code (hf : f.LoaderForm) (ht : f.WellTyped) (hsuits : asg.Suits f pools) :
    ∃ code, f.code asg = .ok code := by
  obtain ⟨load, scope, ty, body, supply, hload, hty, hblock, _⟩ := parts_ok hf ht hsuits
  exact ⟨_, code_eq_ok.2 ⟨hf.named, load, scope, ty, body, supply, hload, hty, hblock, rfl⟩⟩

end Func

end ExprBackend
