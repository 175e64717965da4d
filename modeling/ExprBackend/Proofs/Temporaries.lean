import ExprBackend.Proofs.Building

/-!
# Temporaries

A float literal that an operation takes is bound to a temporary in front of the statement. The
temporaries of a function are numbered in the order of its text. Each one is read by the operation
that its literal was taken from, and besides that only where the source itself refers to it.
-/

namespace ExprBackend

namespace Source

/-- The name that an operand refers to. The empty text is no name. -/
def Operand.references : Operand → List String
  | .scalar _ .str text => if text = "" then [] else [text]
  | _ => []

mutual

/-- The names that a statement refers to, as often as it does. A statement has one of three forms,
and what is given for another form does not count. -/
def Statement.references : Statement → List String
  | ⟨_, _, some x, _, _, none, _, _, _⟩ => x.references
  | ⟨_, _, none, _, _, some c, onTrue, none, _⟩ => c.references ++ blockReferences onTrue
  | ⟨_, _, none, _, _, some c, onTrue, some ys, _⟩ =>
    c.references ++ blockReferences onTrue ++ blockReferences ys
  | ⟨_, _, none, _, args, none, _, _, _⟩ => args.flatMap Operand.references
  | ⟨_, _, some _, _, _, some _, _, _, _⟩ => []

def blockReferences : List Statement → List String
  | [] => []
  | y :: ys => y.references ++ blockReferences ys

end

def Func.references (f : Func) : List String := blockReferences f.body

end Source

mutual

/-- What temporaries are bound to, at any depth, in the order of the text. -/
def Expr.temporaries : Expr → List (String × Expr)
  | .bind name init =>
    if isTemporary name then (name, init) :: init.temporaries else init.temporaries
  | .branch _ onTrue none => blockTemporaries onTrue
  | .branch _ onTrue (some b) => blockTemporaries onTrue ++ blockTemporaries b
  | _ => []

def blockTemporaries : List Expr → List (String × Expr)
  | [] => []
  | x :: xs => x.temporaries ++ blockTemporaries xs

end

def Func.temporaries (f : Func) : List (String × Expr) := blockTemporaries f.body

theorem blockTemporaries_append (xs ys : List Expr) :
    blockTemporaries (xs ++ ys) = blockTemporaries xs ++ blockTemporaries ys := by
  induction xs with
  | nil => rfl
  | cons x xs ih => simp only [List.cons_append, blockTemporaries, ih, List.append_assoc]

theorem blockTemporaries_branch (cond : Atom) (first : List Expr) :
    blockTemporaries [.branch cond first none] = blockTemporaries first := by
  rw [blockTemporaries, Expr.temporaries, blockTemporaries, List.append_nil]

theorem blockTemporaries_branchElse (cond : Atom) (first second : List Expr) :
    blockTemporaries [.branch cond first (some second)] = blockTemporaries (first ++ second) := by
  rw [blockTemporaries, Expr.temporaries, blockTemporaries, List.append_nil,
    blockTemporaries_append]

theorem blockTemporaries_bind {name : String} (hname : isTemporary name = false) (code : List Expr)
    (x : Expr) : blockTemporaries (code ++ [Expr.bind name x]) = blockTemporaries (code ++ [x]) := by
  simp [blockTemporaries_append, blockTemporaries, Expr.temporaries, hname]

theorem blockReads_append (xs ys : List Expr) :
    blockReads (xs ++ ys) = blockReads xs ++ blockReads ys := by
  induction xs with
  | nil => rfl
  | cons x xs ih => simp only [List.cons_append, blockReads, ih, List.append_assoc]

namespace Temporaries

/-- The names that are taken between two states of a supply. -/
inductive Gives : Temporaries → List String → Temporaries → Prop
  | nil {t : Temporaries} : Gives t [] t
  | cons {t t' : Temporaries} {names : List String} :
    Gives t.next.2 names t' → Gives t (t.next.1 :: names) t'

variable {t t₁ t' : Temporaries} {names more : List String}

theorem Gives.append (h : Gives t names t₁) (h' : Gives t₁ more t') :
    Gives t (names ++ more) t' := by
  induction h with
  | nil => exact h'
  | cons _ ih => exact .cons (ih h')

theorem Gives.eq_range (h : Gives t names t') :
    names = (List.range' t.used names.length).map t.nameAt := by
  induction h with
  | nil => rfl
  | @cons t t' names _ ih =>
    rw [List.length_cons, List.range'_succ, List.map_cons]
    exact congrArg _ ih

theorem Gives.isTemporary (h : Gives t names t') : ∀ z ∈ names, isTemporary z = true := by
  rw [h.eq_range]
  intro z hz
  obtain ⟨k, _, rfl⟩ := List.mem_map.1 hz
  exact t.isTemporary_nameAt k

theorem Gives.nodup (h : Gives t names t') : names.Nodup := by
  rw [h.eq_range]
  exact (List.nodup_range').map fun _ _ heq => nameAt_inj.1 heq

theorem reads_next (t : Temporaries) (ty : Ty) : (Atom.var t.next.1 ty).reads = [t.next.1] := by
  simp [Atom.reads, Atom.isVar, Atom.var, t.next_ne_empty]

end Temporaries

/-- Statements that take the names of their temporaries from a supply. What they read is what the
source refers to, and each temporary once. -/
structure Tidy (t : Temporaries) (refs : List String) (xs : List Expr) (t' : Temporaries) :
    Prop where
  gives : t.Gives ((blockTemporaries xs).map Prod.fst) t'
  literal : ∀ e ∈ blockTemporaries xs, ∃ bits, e.2 = .atom (.float bits)
  reads : (blockReads xs).Perm (refs ++ (blockTemporaries xs).map Prod.fst)

theorem tidy_nil (t : Temporaries) : Tidy t [] [] t :=
  ⟨.nil, fun _ he => absurd he List.not_mem_nil, .refl _⟩

theorem Tidy.append {t t₁ t' : Temporaries} {refs more : List String} {xs ys : List Expr}
    (h : Tidy t refs xs t₁) (h' : Tidy t₁ more ys t') : Tidy t (refs ++ more) (xs ++ ys) t' := by
  refine ⟨?_, fun e he => ?_, ?_⟩
  · rw [blockTemporaries_append, List.map_append]
    exact h.gives.append h'.gives
  · rw [blockTemporaries_append, List.mem_append] at he
    exact he.elim (h.literal e) (h'.literal e)
  · rw [blockReads_append, blockTemporaries_append, List.map_append]
    refine (h.reads.append h'.reads).trans ?_
    simp only [List.append_assoc]
    refine List.Perm.append_left refs ?_
    simp only [← List.append_assoc]
    exact List.perm_append_comm.append_right _

/-- A statement without temporaries. -/
theorem tidy_plain {t : Temporaries} {x : Expr} (h : x.temporaries = []) : Tidy t x.reads [x] t := by
  have hnone : blockTemporaries [x] = [] := by
    rw [blockTemporaries, h]
    rfl
  refine ⟨?_, ?_, ?_⟩
  · rw [hnone]
    exact .nil
  · simp [hnone]
  · simp [hnone, blockReads]

theorem Tidy.branch {t t' : Temporaries} {refs : List String} {first : List Expr}
    (h : Tidy t refs first t') (cond : Atom) :
    Tidy t (cond.reads ++ refs) [.branch cond first none] t' := by
  have htemps := blockTemporaries_branch cond first
  refine ⟨htemps ▸ h.gives, htemps ▸ h.literal, ?_⟩
  rw [htemps, blockReads, Expr.reads, blockReads, List.append_nil, List.append_assoc]
  exact h.reads.append_left _

theorem Tidy.branchElse {t t' : Temporaries} {refs : List String} {first second : List Expr}
    (h : Tidy t refs (first ++ second) t') (cond : Atom) :
    Tidy t (cond.reads ++ refs) [.branch cond first (some second)] t' := by
  have htemps := blockTemporaries_branchElse cond first second
  refine ⟨htemps ▸ h.gives, htemps ▸ h.literal, ?_⟩
  rw [htemps, blockReads, Expr.reads, blockReads, List.append_nil, List.append_assoc,
    List.append_assoc, ← blockReads_append]
  exact h.reads.append_left _

theorem Tidy.bind {t t' : Temporaries} {refs : List String} {code : List Expr} {x : Expr}
    (h : Tidy t refs (code ++ [x]) t') {name : String} (hname : isTemporary name = false) :
    Tidy t refs (code ++ [Expr.bind name x]) t' := by
  have htemps := blockTemporaries_bind hname code x
  have hreads : blockReads (code ++ [Expr.bind name x]) = blockReads (code ++ [x]) := by
    simp [blockReads_append, blockReads, Expr.reads]
  exact ⟨htemps ▸ h.gives, htemps ▸ h.literal, htemps ▸ hreads ▸ h.reads⟩

def Literals (code : List Expr) : Prop :=
  ∀ x ∈ code, ∃ z bits, isTemporary z = true ∧ x = .bind z (.atom (.float bits))

theorem Literals.tail {x : Expr} {code : List Expr} (h : Literals (x :: code)) : Literals code :=
  fun y hy => h y (List.mem_cons_of_mem x hy)

theorem Literals.blockReads_eq {code : List Expr} (h : Literals code) : blockReads code = [] := by
  induction code with
  | nil => rfl
  | cons x code ih =>
    obtain ⟨z, bits, _, rfl⟩ := h x List.mem_cons_self
    rw [blockReads, ih h.tail]
    rfl

theorem Literals.mem_temporaries {code : List Expr} (h : Literals code) {e : String × Expr} :
    e ∈ blockTemporaries code ↔ Expr.bind e.1 e.2 ∈ code := by
  induction code with
  | nil => simp [blockTemporaries]
  | cons x code ih =>
    obtain ⟨z, bits, hz, rfl⟩ := h x List.mem_cons_self
    have htemps : (Expr.bind z (.atom (.float bits))).temporaries =
        [(z, .atom (.float bits))] := by
      simp [Expr.temporaries, hz]
    rw [blockTemporaries, htemps, List.mem_append, ih h.tail, List.mem_singleton, List.mem_cons,
      Expr.bind.injEq, Prod.ext_iff]

namespace Source

theorem Operand.reads_of_atom? {y : Operand} {scope : Typing} {a : Atom}
    (h : y.atom? scope = some a) : a.reads = y.references := by
  cases y with
  | other line => cases h
  | scalar line tag text =>
    cases tag with
    | int =>
      obtain ⟨v, _, rfl⟩ := Option.map_eq_some_iff.1 h
      rfl
    | float =>
      obtain ⟨v, _, rfl⟩ := Option.map_eq_some_iff.1 h
      rfl
    | bool =>
      obtain ⟨v, _, rfl⟩ := Option.map_eq_some_iff.1 h
      rfl
    | str =>
      obtain ⟨ty, _, rfl⟩ := Option.map_eq_some_iff.1 h
      by_cases htext : text = ""
      · simp [Operand.references, Atom.reads, Atom.isVar, Atom.var, htext]
      · simp [Operand.references, Atom.reads, Atom.isVar, Atom.var, htext]
    | _ => cases h

/-- An operation reads its operands, and nothing is bound in it. -/
theorem of_operation? {op : String} {xs : List Atom} {x : Expr} (h : operation? op xs = some x) :
    x.reads = xs.flatMap Atom.reads ∧ x.temporaries = [] ∧ x.isBind = false := by
  match xs with
  | [] => cases h
  | [y] =>
    cases h
    exact ⟨by simp [Expr.reads], rfl, rfl⟩
  | [l, r] =>
    cases h
    exact ⟨by simp [Expr.reads], rfl, rfl⟩
  | _ :: _ :: _ :: _ => cases h

end Source

namespace Build

open Source (blockReferences)

theorem eq_float_of_isOperand {a : Atom} (h : a.isOperand = false) : ∃ bits, a = .float bits := by
  obtain ⟨name, word, ty⟩ := a
  simp only [Atom.isOperand, Atom.isVar, Bool.or_eq_false_iff, decide_eq_false_iff_not,
    not_not] at h
  obtain ⟨rfl, rfl⟩ := h
  exact ⟨word, rfl⟩

/-- Each literal that is taken out of the operands is bound in front, and read in its place. -/
theorem Hoisting.tidy {h h' : Hoisted} {t t' : Temporaries} {ys : List Source.Operand}
    {xs : List Atom} (hh : Hoisting h t ys xs h' t') :
    ∃ new, h'.code = h.code ++ new ∧ Literals new ∧
      t.Gives ((blockTemporaries new).map Prod.fst) t' ∧
      (xs.flatMap Atom.reads).Perm
        (ys.flatMap Source.Operand.references ++ (blockTemporaries new).map Prod.fst) := by
  induction hh with
  | nil => exact ⟨[], (List.append_nil _).symm, fun _ hx => absurd hx List.not_mem_nil, .nil, .refl _⟩
  | keep ha _ _ ih =>
    obtain ⟨new, hcode, hnew, hgives, hreads⟩ := ih
    refine ⟨new, hcode, hnew, hgives, ?_⟩
    rw [List.flatMap_cons, List.flatMap_cons, Source.Operand.reads_of_atom? ha, List.append_assoc]
    exact hreads.append_left _
  | @lift h h' t t' y ys a xs ha hfloat _ ih =>
    obtain ⟨new, hcode, hnew, hgives, hreads⟩ := ih
    obtain ⟨bits, rfl⟩ := eq_float_of_isOperand hfloat
    have htemp : isTemporary t.next.1 = true := t.isTemporary_nameAt t.used
    have htemps : blockTemporaries (.bind t.next.1 (.atom (.float bits)) :: new) =
        (t.next.1, .atom (.float bits)) :: blockTemporaries new := by
      simp [blockTemporaries, Expr.temporaries, htemp]
    -- The literal refers to nothing, and its temporary is read in its place.
    have hown : y.references = [] := by rw [← Source.Operand.reads_of_atom? ha]; rfl
    refine ⟨.bind t.next.1 (.atom (.float bits)) :: new, ?_, ?_, ?_, ?_⟩
    · rw [hcode, List.append_assoc]
      rfl
    · rintro x (_ | ⟨_, hx⟩)
      · exact ⟨_, bits, htemp, rfl⟩
      · exact hnew x hx
    · rw [htemps]
      exact .cons hgives
    · rw [htemps, List.flatMap_cons, List.flatMap_cons, hown, List.nil_append, t.reads_next,
        List.map_cons]
      exact (hreads.cons _).trans List.perm_middle.symm

/-- What goes in front of a statement are bindings of temporaries, and the statement is none. -/
theorem Built.literals {scope : Scope} {t t' : Temporaries} {y : Source.Statement} {x : Expr}
    {h : Hoisted} (hb : Built scope t y x h t') : Literals h.code ∧ x.isBind = false := by
  have hnone : Literals [] := fun _ hx => absurd hx List.not_mem_nil
  cases hb with
  | value _ => exact ⟨hnone, rfl⟩
  | branch _ _ => exact ⟨hnone, rfl⟩
  | branchElse _ _ _ => exact ⟨hnone, rfl⟩
  | operation hh hop =>
    obtain ⟨new, hcode, hnew, _⟩ := hh.tidy
    exact ⟨hcode ▸ hnew, (Source.of_operation? hop).2.2⟩

mutual

theorem Built.tidy : ∀ {scope : Scope} {t t' : Temporaries} {y : Source.Statement} {x : Expr}
    {h : Hoisted}, Built scope t y x h t' → Tidy t y.references (h.code ++ [x]) t'
  | _, _, _, _, _, _, .value ha => by
    rw [Source.Statement.references, ← Source.Operand.reads_of_atom? ha]
    exact tidy_plain (x := .atom _) rfl
  | _, _, _, _, _, _, .branch ha hfirst => by
    rw [Source.Statement.references, ← Source.Operand.reads_of_atom? ha]
    exact hfirst.tidy.branch _
  | _, _, _, _, _, _, .branchElse ha hfirst hsecond => by
    rw [Source.Statement.references, ← Source.Operand.reads_of_atom? ha, List.append_assoc]
    exact (hfirst.tidy.append hsecond.tidy).branchElse _
  | _, t, t', _, x, h, .operation hh hop => by
    obtain ⟨new, hcode, hnew, hgives, hreads⟩ := hh.tidy
    obtain ⟨hx, hnone, _⟩ := Source.of_operation? hop
    replace hcode : h.code = new := hcode
    have htemps : blockTemporaries (new ++ [x]) = blockTemporaries new := by
      rw [blockTemporaries_append, blockTemporaries, hnone, blockTemporaries, List.append_nil,
        List.append_nil]
    rw [Source.Statement.references, hcode]
    refine ⟨htemps ▸ hgives, fun e he => ?_, ?_⟩
    · rw [htemps, hnew.mem_temporaries] at he
      obtain ⟨_, bits, _, heq⟩ := hnew _ he
      exact ⟨bits, (Expr.bind.inj heq).2⟩
    · rw [htemps, blockReads_append, hnew.blockReads_eq, blockReads, hx, blockReads,
        List.nil_append, List.append_nil]
      exact hreads

theorem BlockBuilt.tidy : ∀ {scope : Scope} {t t' : Temporaries} {ys : List Source.Statement}
    {xs : List Expr}, BlockBuilt scope t ys xs t' → Tidy t (blockReferences ys) xs t'
  | _, _, _, _, _, .nil => tidy_nil _
  | _, _, _, _, _, .value _ hx hxs => by
    rw [blockReferences, List.append_cons]
    exact hx.tidy.append hxs.tidy
  | _, _, _, _, _, .bind _ hname hx hxs => by
    rw [blockReferences, List.append_cons]
    exact (hx.tidy.bind hname).append hxs.tidy

end

end Build

theorem Tidy.count_eq {t t' : Temporaries} {refs : List String} {xs : List Expr}
    (h : Tidy t refs xs t') {e : String × Expr} (he : e ∈ blockTemporaries xs) :
    (blockReads xs).count e.1 = 1 + refs.count e.1 := by
  rw [h.reads.count_eq, List.count_append,
    List.count_eq_one_of_mem h.gives.nodup (List.mem_map_of_mem he), Nat.add_comm]

mutual

theorem Expr.mem_temporaries_of_bindings : ∀ (x : Expr) {z : String},
    z ∈ x.bindings.map Prod.fst → isTemporary z = true → z ∈ x.temporaries.map Prod.fst
  | .atom _, _, hz, _ => by simp [Expr.bindings] at hz
  | .unary .., _, hz, _ => by simp [Expr.bindings] at hz
  | .binary .., _, hz, _ => by simp [Expr.bindings] at hz
  | .missing, _, hz, _ => by simp [Expr.bindings] at hz
  | .bind name init, z, hz, htemp => by
    rw [Expr.bindings, List.map_append, List.mem_append] at hz
    rw [Expr.temporaries]
    rcases hz with hz | hz
    · have hinit := init.mem_temporaries_of_bindings hz htemp
      split
      · exact List.mem_cons_of_mem _ hinit
      · exact hinit
    · obtain rfl : z = name := by simpa using hz
      simp [htemp]
  | .branch _ first none, z, hz, htemp => by
    rw [Expr.bindings] at hz
    rw [Expr.temporaries]
    exact mem_blockTemporaries_of_bindings first hz htemp
  | .branch _ first (some second), z, hz, htemp => by
    rw [Expr.bindings, List.map_append, List.mem_append] at hz
    rw [Expr.temporaries, List.map_append, List.mem_append]
    exact hz.imp (mem_blockTemporaries_of_bindings first · htemp)
      (mem_blockTemporaries_of_bindings second · htemp)

/-- A bound name is that of a temporary if it looks like one. -/
theorem mem_blockTemporaries_of_bindings : ∀ (xs : List Expr) {z : String},
    z ∈ (blockBindings xs).map Prod.fst → isTemporary z = true →
    z ∈ (blockTemporaries xs).map Prod.fst
  | [], _, hz, _ => hz
  | x :: xs, z, hz, htemp => by
    rw [blockBindings, List.map_append, List.mem_append] at hz
    rw [blockTemporaries, List.map_append, List.mem_append]
    exact hz.imp (x.mem_temporaries_of_bindings · htemp)
      (mem_blockTemporaries_of_bindings xs · htemp)

end

namespace Source.Func

/-- A name with the mark of temporaries is accepted as an operand if it is that of a temporary of the
function, and then it reads the temporary. So the operand of a literal is the only one that reads its
temporary just where the source does not refer to it. -/
theorem build_reads (src : Source.Func) {f : ExprBackend.Func} (h : src.build = .ok f) :
    (blockReads f.body).Perm (src.references ++ f.temporaries.map Prod.fst) ∧
      (∀ z ∈ src.references, isTemporary z = true → z ∈ f.temporaries.map Prod.fst) ∧
      ∀ e ∈ f.temporaries, (blockReads f.body).count e.1 = 1 + src.references.count e.1 := by
  obtain ⟨_, _, hplain, t, hbuilt⟩ := src.of_build h
  have htidy := hbuilt.tidy
  refine ⟨htidy.reads, fun z hz htemp => ?_, fun e he => htidy.count_eq he⟩
  have hread : z ∈ blockReads f.body := htidy.reads.mem_iff.2 (List.mem_append_left _ hz)
  -- What is read is in scope, and no parameter has the mark.
  rcases blockReads_inScope f.body f.paramTyping (src.loaderForm_build h).wellFormed z hread
    with hparam | hbound
  · obtain ⟨e, he, rfl⟩ := List.mem_map.1 hparam
    obtain ⟨p, hp, rfl⟩ := List.mem_map.1 he
    cases (hplain p hp).symm.trans htemp
  · exact mem_blockTemporaries_of_bindings f.body hbound htemp

/-- A literal of the enclosing block is read again in both branches. -/
theorem build_reads_enclosing :
    let src : Source.Func :=
      { name := "again"
        params := [⟨"big", "bool"⟩]
        body := [
          { name := "a", op := "-", args := [.scalar 1 .float "2.5"] },
          { cond := some (.scalar 2 .str "big")
            onTrue := [{ value := some (.scalar 3 .str "t#0") }]
            onFalse := some [{ op := "+", args := [.scalar 4 .str "a", .scalar 4 .str "t#0"] }] }] }
    let literal : Expr := .atom (.float 4612811918334230528)
    let f : ExprBackend.Func := ⟨"again", [⟨"big", .bool⟩],
      [.bind "t#0" literal, .bind "a" (.unary .neg (.var "t#0" .float) .float),
        .branch (.var "big" .bool) [.atom (.var "t#0" .float)]
          (some [.binary .plus (.var "a" .float) (.var "t#0" .float) .float])]⟩
    src.build = .ok f ∧ src.references.count "t#0" = 2 ∧ "t#0" ∈ f.temporaries.map Prod.fst ∧
      (blockReads f.body).count "t#0" = 3 := by
  intro src literal f
  have hbuild : src.build = .ok f := rfl
  have hcount : src.references.count "t#0" = 2 := by decide
  obtain ⟨_, hnames, hreads⟩ := build_reads src hbuild
  have hfirst : ("t#0", literal) ∈ f.temporaries := List.mem_of_getElem? (i := 0) rfl
  refine ⟨hbuild, hcount, hnames "t#0" (by decide) (by decide), ?_⟩
  rw [hreads _ hfirst, hcount]

/-- The second operand reads the temporary of the first, although no name of a source may have the
mark of temporaries. -/
theorem build_accepts_mark :
    let src : Source.Func :=
      { name := "f"
        body := [
          { op := "+", args := [.scalar 5 .float "1.5", .scalar 5 .str "t#0"], line := 4 }] }
    let f : ExprBackend.Func := ⟨"f", [],
      [.bind "t#0" (.atom (.float 4609434218613702656)),
        .binary .plus (.var "t#0" .float) (.var "t#0" .float) .float]⟩
    src.references = ["t#0"] ∧ src.build = .ok f ∧ (blockReads f.body).count "t#0" = 2 := by
  intro src f
  exact ⟨rfl, rfl, by decide⟩

end Source.Func

end ExprBackend
