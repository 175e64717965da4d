import ExprBackend.Proofs.Temporaries

/-!
# Hoisted literals

The temporaries of a block stand right in front of the statement that reads them. Where the source
refers to none of them, putting the literals back in their places gives the function as it is
written, statement by statement.
-/

namespace ExprBackend

namespace Source

mutual

/-- The expression of a statement with all its operands in place. -/
def Statement.direct? (scope : Typing) : Statement → Option Expr
  | ⟨_, _, some x, _, _, none, _, _, _⟩ => do
    return .atom (← x.atom? scope)
  | ⟨_, _, none, _, _, some c, onTrue, none, _⟩ => do
    return .branch (← c.atom? scope) (← blockDirect? scope onTrue) none
  | ⟨_, _, none, _, _, some c, onTrue, some ys, _⟩ => do
    return .branch (← c.atom? scope) (← blockDirect? scope onTrue) (some (← blockDirect? scope ys))
  | ⟨_, _, none, op, args, none, _, _, _⟩ => do
    operation? op (← args.mapM (Operand.atom? scope))
  | ⟨_, _, some _, _, _, some _, _, _, _⟩ => none

def blockDirect? (scope : Typing) : List Statement → Option (List Expr)
  | [] => some []
  | y :: ys => do
    let x ← y.direct? scope
    if y.name = "" then return x :: (← blockDirect? scope ys)
    else return .bind y.name x :: (← blockDirect? ((y.name, x.tyOf) :: scope) ys)

end

/-- A function statement by statement, with nothing put in front. -/
def Func.direct? (f : Func) : Option ExprBackend.Func := do
  let params ← f.params.mapM fun p => (Ty.ofName? p.ty).map (ExprBackend.Param.mk p.name)
  let body ← blockDirect? (params.map fun p => (p.name, p.ty)).reverse f.body
  return ⟨f.name, params, body⟩

end Source

def Expr.bindsTemporary : Expr → Bool
  | .bind name _ => isTemporary name
  | _ => false

mutual

/-- The blocks inside an expression, at any depth. -/
def Expr.blocks : Expr → List (List Expr)
  | .bind _ init => init.blocks
  | .branch _ onTrue none => onTrue :: blocksWithin onTrue
  | .branch _ onTrue (some b) => onTrue :: blocksWithin onTrue ++ b :: blocksWithin b
  | _ => []

def blocksWithin : List Expr → List (List Expr)
  | [] => []
  | x :: xs => x.blocks ++ blocksWithin xs

end

/-- A temporary gives way to the literal that it is bound to. -/
def Atom.restore (temps : List (String × Expr)) (x : Atom) : Atom :=
  match List.lookup x.name temps with
  | some (.atom a) => a
  | _ => x

mutual

def Expr.restore (temps : List (String × Expr)) : Expr → Expr
  | .atom x => .atom (x.restore temps)
  | .bind name init => .bind name (init.restore temps)
  | .unary op x ty => .unary op (x.restore temps) ty
  | .binary op l r ty => .binary op (l.restore temps) (r.restore temps) ty
  | .branch cond onTrue none => .branch (cond.restore temps) (blockRestore temps onTrue) none
  | .branch cond onTrue (some b) =>
    .branch (cond.restore temps) (blockRestore temps onTrue) (some (blockRestore temps b))
  | .missing => .missing

/-- The bindings of temporaries are left out. -/
def blockRestore (temps : List (String × Expr)) : List Expr → List Expr
  | [] => []
  | x :: xs => if x.bindsTemporary then blockRestore temps xs
    else x.restore temps :: blockRestore temps xs

end

namespace Func

def blocks (f : Func) : List (List Expr) := f.body :: blocksWithin f.body

/-- The function with its literals back in place. -/
def restored (f : Func) : Func := { f with body := blockRestore f.temporaries f.body }

end Func

/-- Each temporary of a block is read once by the first statement behind it that binds none. -/
def Grouped (b : List Expr) : Prop :=
  ∀ front z init back, b = front ++ .bind z init :: back → isTemporary z = true →
    ∃ temps x rest, back = temps ++ x :: rest ∧ (∀ e ∈ temps, e.bindsTemporary = true) ∧
      x.bindsTemporary = false ∧ x.reads.count z = 1

theorem Literals.bindsTemporary {code : List Expr} (h : Literals code) :
    ∀ x ∈ code, x.bindsTemporary = true := by
  intro x hx
  obtain ⟨z, bits, hz, rfl⟩ := h x hx
  exact hz

def Plain (refs : List String) : Prop := ∀ z ∈ refs, isTemporary z = false

theorem plain_append {refs more : List String} : Plain (refs ++ more) ↔ Plain refs ∧ Plain more := by
  simp only [Plain, List.mem_append, or_imp, forall_and]

theorem Source.blocks_of_operation? {op : String} {xs : List Atom} {x : Expr}
    (h : operation? op xs = some x) : x.blocks = [] := by
  match xs with
  | [] => cases h
  | [_] =>
    cases h
    rfl
  | [_, _] =>
    cases h
    rfl
  | _ :: _ :: _ :: _ => cases h

theorem grouped_nil : Grouped [] := by
  intro front z init back h
  exact absurd h.symm (by simp)

theorem Grouped.cons {code rest : List Expr} {x : Expr} (hrest : Grouped rest)
    (hcode : ∀ e ∈ code, e.bindsTemporary = true) (hx : x.bindsTemporary = false)
    (hreads : ∀ z init, .bind z init ∈ code → x.reads.count z = 1) :
    Grouped (code ++ x :: rest) := by
  intro front z init back heq hz
  -- The temporary stands in `code` or in `rest`, since `x` binds none.
  induction code generalizing front with
  | nil =>
    cases front with
    | nil =>
      obtain ⟨rfl, _⟩ := List.cons.inj heq
      exact absurd (hx.symm.trans hz) (by simp)
    | cons e front =>
      exact hrest front z init back (List.cons.inj heq).2 hz
  | cons e code ih =>
    cases front with
    | nil =>
      obtain ⟨rfl, rfl⟩ := List.cons.inj heq
      exact ⟨code, x, rest, rfl, fun e he => hcode e (List.mem_cons_of_mem _ he), hx,
        hreads z init List.mem_cons_self⟩
    | cons e' front =>
      exact ih (fun e he => hcode e (List.mem_cons_of_mem _ he))
        (fun z init h => hreads z init (List.mem_cons_of_mem _ h)) front (List.cons.inj heq).2

theorem blocksWithin_append (xs ys : List Expr) :
    blocksWithin (xs ++ ys) = blocksWithin xs ++ blocksWithin ys := by
  induction xs with
  | nil => rfl
  | cons x xs ih => simp only [List.cons_append, blocksWithin, ih, List.append_assoc]

theorem Literals.blocksWithin_eq {code : List Expr} (h : Literals code) : blocksWithin code = [] := by
  induction code with
  | nil => rfl
  | cons x code ih =>
    obtain ⟨z, bits, _, rfl⟩ := h x List.mem_cons_self
    rw [blocksWithin, ih h.tail]
    rfl

theorem Tidy.count_eq_one {t t' : Temporaries} {refs : List String} {xs : List Expr}
    (h : Tidy t refs xs t') (hrefs : Plain refs) {e : String × Expr}
    (he : e ∈ blockTemporaries xs) : (blockReads xs).count e.1 = 1 := by
  have hnone : refs.count e.1 = 0 := by
    refine List.count_eq_zero.2 fun hmem => ?_
    cases (hrefs e.1 hmem).symm.trans (h.gives.isTemporary e.1 (List.mem_map_of_mem he))
  rw [h.count_eq he, hnone]

/-- A statement reads each temporary in front of it once, if its references are plain. -/
theorem Tidy.count_reads {t t' : Temporaries} {refs : List String} {code : List Expr} {x : Expr}
    (h : Tidy t refs (code ++ [x]) t') (hcode : Literals code) (hrefs : Plain refs) :
    ∀ z init, .bind z init ∈ code → x.reads.count z = 1 := by
  intro z init hmem
  have htemp : (z, init) ∈ blockTemporaries (code ++ [x]) := by
    rw [blockTemporaries_append]
    exact List.mem_append_left _ (hcode.mem_temporaries.2 hmem)
  have hone := h.count_eq_one hrefs htemp
  rwa [blockReads_append, hcode.blockReads_eq, blockReads, blockReads, List.nil_append,
    List.append_nil] at hone

/-- A statement behind its literals, in front of the rest of a block. -/
theorem grouped_statement {code rest : List Expr} {e : Expr} (hcode : Literals code)
    (he : e.bindsTemporary = false) (hreads : ∀ z init, .bind z init ∈ code → e.reads.count z = 1)
    (hblocks : ∀ b ∈ e.blocks, Grouped b) (hrest : ∀ b ∈ rest :: blocksWithin rest, Grouped b) :
    ∀ b ∈ (code ++ e :: rest) :: blocksWithin (code ++ e :: rest), Grouped b := by
  intro b hb
  rw [blocksWithin_append, hcode.blocksWithin_eq, List.nil_append, blocksWithin, List.mem_cons,
    List.mem_append] at hb
  rcases hb with rfl | hb | hb
  · exact (hrest rest List.mem_cons_self).cons hcode.bindsTemporary he hreads
  · exact hblocks b hb
  · exact hrest b (List.mem_cons_of_mem _ hb)

theorem Expr.bindsTemporary_of_isBind {x : Expr} (h : x.isBind = false) :
    x.bindsTemporary = false := by
  cases x with
  | bind name init => cases h
  | _ => rfl

namespace Build

open Source (blockReferences)

mutual

theorem Built.grouped : ∀ {scope : Scope} {t t' : Temporaries} {y : Source.Statement} {x : Expr}
    {h : Hoisted}, Built scope t y x h t' → Plain y.references → ∀ b ∈ x.blocks, Grouped b
  | _, _, _, _, _, _, .value _, _ => fun _ hb => absurd hb List.not_mem_nil
  | _, _, _, _, _, _, .branch _ hfirst, hrefs => by
    rw [Source.Statement.references, plain_append] at hrefs
    rw [Expr.blocks]
    exact hfirst.grouped hrefs.2
  | _, _, _, _, _, _, .branchElse _ hfirst hsecond, hrefs => by
    rw [Source.Statement.references, plain_append, plain_append] at hrefs
    rw [Expr.blocks]
    intro b hb
    rcases List.mem_append.1 hb with hb | hb
    · exact hfirst.grouped hrefs.1.2 b hb
    · exact hsecond.grouped hrefs.2 b hb
  | _, _, _, _, _, _, .operation _ hop, _ => by
    rw [Source.blocks_of_operation? hop]
    exact fun _ hb => absurd hb List.not_mem_nil

/-- The block itself and all blocks inside it. -/
theorem BlockBuilt.grouped : ∀ {scope : Scope} {t t' : Temporaries} {ys : List Source.Statement}
    {xs : List Expr}, BlockBuilt scope t ys xs t' → Plain (blockReferences ys) →
    ∀ b ∈ xs :: blocksWithin xs, Grouped b
  | _, _, _, _, _, .nil, _ => by
    rintro b (_ | ⟨_, hb⟩)
    · exact grouped_nil
    · exact absurd hb List.not_mem_nil
  | _, _, _, _, _, .value _ hx hxs, hrefs => by
    rw [blockReferences, plain_append] at hrefs
    obtain ⟨hcode, hbind⟩ := hx.literals
    exact grouped_statement hcode (Expr.bindsTemporary_of_isBind hbind)
      (hx.tidy.count_reads hcode hrefs.1) (hx.grouped hrefs.1) (hxs.grouped hrefs.2)
  | _, _, _, _, _, .bind _ hname hx hxs, hrefs => by
    rw [blockReferences, plain_append] at hrefs
    obtain ⟨hcode, _⟩ := hx.literals
    refine grouped_statement hcode hname ?_ ?_ (hxs.grouped hrefs.2)
    · rw [Expr.reads]
      exact hx.tidy.count_reads hcode hrefs.1
    · rw [Expr.blocks]
      exact hx.grouped hrefs.1

end

end Build

def OnlyTemporaries (temps : List (String × Expr)) : Prop :=
  ∀ z, isTemporary z = false → List.lookup z temps = none

/-- Two scopes with the same names, temporaries apart. -/
def Agree (scope names : Typing) : Prop :=
  ∀ z, isTemporary z = false → List.lookup z scope = List.lookup z names

section Agree

variable {scope names : Typing} {z : String} {ty : Ty}

theorem Agree.cons (h : Agree scope names) (e : String × Ty) :
    Agree (e :: scope) (e :: names) := by
  intro y hy
  rw [List.lookup_cons, List.lookup_cons, h y hy]

theorem Agree.skip (h : Agree scope names) (hz : isTemporary z = true) :
    Agree ((z, ty) :: scope) names := by
  intro y hy
  have hne : y ≠ z := by
    rintro rfl
    cases hy.symm.trans hz
  rw [List.lookup_cons, beq_false_of_ne hne]
  exact h y hy

end Agree

theorem isTemporary_empty : isTemporary "" = false := by
  simp [isTemporary]

namespace Source

variable {scope names : Typing} {y : Operand} {a : Atom}

theorem Operand.plain_name (h : y.atom? scope = some a) (hrefs : Plain y.references) :
    isTemporary a.name = false := by
  by_cases hvar : a.isVar = true
  · rw [← Operand.reads_of_atom? h] at hrefs
    exact hrefs a.name (Atom.mem_reads.2 ⟨hvar, rfl⟩)
  · have hempty : a.name = "" := by simpa [Atom.isVar] using hvar
    rw [hempty, isTemporary_empty]

theorem Operand.atom?_agree (h : Agree scope names) (hy : y.atom? scope = some a)
    (hrefs : Plain y.references) : y.atom? names = some a := by
  cases y with
  | other line => cases hy
  | scalar line tag text =>
    cases tag with
    | str =>
      have hname := Operand.plain_name hy hrefs
      obtain ⟨ty, hty, rfl⟩ := Option.map_eq_some_iff.1 hy
      rw [Operand.atom?, ← h text hname, hty]
      rfl
    | _ => exact hy

end Source

section Restore

variable {temps : List (String × Expr)}

theorem Atom.restore_of_plain (ht : OnlyTemporaries temps) {x : Atom}
    (hx : isTemporary x.name = false) : x.restore temps = x := by
  rw [Atom.restore, ht x.name hx]

theorem blockRestore_literals {code : List Expr} (hcode : Literals code) (xs : List Expr) :
    blockRestore temps (code ++ xs) = blockRestore temps xs := by
  induction code with
  | nil => rfl
  | cons x code ih =>
    rw [List.cons_append, blockRestore, if_pos (hcode.bindsTemporary x List.mem_cons_self),
      ih hcode.tail]

theorem blockTy?_literals (code : List Expr) {xs : List Expr} (hxs : xs ≠ []) :
    blockTy? (code ++ xs) = blockTy? xs := by
  induction code with
  | nil => rfl
  | cons x code ih => rw [List.cons_append, blockTy?_cons (by simp [hxs]), ih]

namespace Build

open Source (blockReferences blockDirect?)

theorem Hoisting.restores (ht : OnlyTemporaries temps) {h h' : Hoisted} {t t' : Temporaries}
    {ys : List Source.Operand} {xs : List Atom} {names : Typing} (hh : Hoisting h t ys xs h' t')
    (hrefs : Plain (ys.flatMap Source.Operand.references)) (hscope : Agree h.scope names)
    (hlisted : ∀ z init, .bind z init ∈ h'.code → List.lookup z temps = some init) :
    ys.mapM (Source.Operand.atom? names) = some (xs.map (Atom.restore temps)) ∧
      (∀ x ∈ xs, (x.restore temps).ty = x.ty) ∧ Agree h'.scope names := by
  induction hh with
  | nil => exact ⟨rfl, fun _ hx => absurd hx List.not_mem_nil, hscope⟩
  | @keep h h' t t' y ys a xs ha _ _ ih =>
    rw [List.flatMap_cons, plain_append] at hrefs
    obtain ⟨hmore, hty, hscope'⟩ := ih hrefs.2 hscope hlisted
    have hsame := Atom.restore_of_plain ht (Source.Operand.plain_name ha hrefs.1)
    refine ⟨?_, ?_, hscope'⟩
    · rw [List.mapM_cons, Source.Operand.atom?_agree hscope ha hrefs.1, hmore, List.map_cons, hsame]
      rfl
    · rintro x (_ | ⟨_, hx⟩)
      · rw [hsame]
      · exact hty x hx
  | @lift h h' t t' y ys a xs ha _ hh ih =>
    rw [List.flatMap_cons, plain_append] at hrefs
    have htemp : isTemporary t.next.1 = true := t.isTemporary_nameAt t.used
    obtain ⟨hmore, hty, hscope'⟩ := ih hrefs.2 (hscope.skip htemp) hlisted
    obtain ⟨new, hcode, _⟩ := hh.tidy
    -- The literal is found under the name that it was bound to.
    have hback : (Atom.var t.next.1 a.ty).restore temps = a := by
      have hbound : List.lookup t.next.1 temps = some (.atom a) :=
        hlisted _ _ (by rw [hcode]; simp)
      rw [Atom.restore, show (Atom.var t.next.1 a.ty).name = t.next.1 from rfl, hbound]
    refine ⟨?_, ?_, hscope'⟩
    · rw [List.mapM_cons, Source.Operand.atom?_agree hscope ha hrefs.1, hmore, List.map_cons, hback]
      rfl
    · rintro x (_ | ⟨_, hx⟩)
      · rw [hback]
        rfl
      · exact hty x hx

theorem restore_operation {op : String} {xs : List Atom} {x : Expr}
    (h : Source.operation? op xs = some x) (hty : ∀ x ∈ xs, (x.restore temps).ty = x.ty) :
    Source.operation? op (xs.map (Atom.restore temps)) = some (x.restore temps) ∧
      (x.restore temps).ty? = x.ty? := by
  match xs with
  | [] => cases h
  | [y] =>
    cases h
    refine ⟨?_, rfl⟩
    rw [List.map_cons, List.map_nil, Source.operation?, Expr.restore, hty y (by simp)]
  | [l, r] =>
    cases h
    refine ⟨?_, rfl⟩
    rw [List.map_cons, List.map_cons, List.map_nil, Source.operation?, Expr.restore,
      hty l (by simp)]
  | _ :: _ :: _ :: _ => cases h

/-- What becomes of a block when the literals are put back. -/
structure BlockRestores (temps : List (String × Expr)) (names : Typing)
    (ys : List Source.Statement) (xs : List Expr) : Prop where
  direct : blockDirect? names ys = some (blockRestore temps xs)
  empty_iff : blockRestore temps xs = [] ↔ xs = []
  ty_eq : blockTy? (blockRestore temps xs) = blockTy? xs

theorem BlockRestores.cons {names : Typing} {ys : List Source.Statement} {code xs : List Expr}
    {y : Source.Statement} {e : Expr} (hrest : blockRestore temps xs = [] ↔ xs = [])
    (hrestTy : blockTy? (blockRestore temps xs) = blockTy? xs) (hcode : Literals code)
    (he : e.bindsTemporary = false) (hty : (e.restore temps).ty? = e.ty?)
    (hdirect : blockDirect? names (y :: ys) = some (e.restore temps :: blockRestore temps xs)) :
    BlockRestores temps names (y :: ys) (code ++ e :: xs) := by
  have hrestore : blockRestore temps (code ++ e :: xs) =
      e.restore temps :: blockRestore temps xs := by
    rw [blockRestore_literals hcode, blockRestore, if_neg (by simp [he])]
  refine ⟨hrestore ▸ hdirect, by simp [hrestore], ?_⟩
  rw [hrestore, blockTy?_literals code (List.cons_ne_nil _ _)]
  by_cases hxs : xs = []
  · rw [hrest.2 hxs, hxs, blockTy?, blockTy?, hty]
  · rw [blockTy?_cons fun h => hxs (hrest.1 h), blockTy?_cons hxs, hrestTy]

/-- The table lists what the temporaries of a block are bound to. -/
def Lists (temps : List (String × Expr)) (xs : List Expr) : Prop :=
  ∀ e ∈ blockTemporaries xs, List.lookup e.1 temps = some e.2

theorem lists_append {xs ys : List Expr} :
    Lists temps (xs ++ ys) ↔ Lists temps xs ∧ Lists temps ys := by
  simp only [Lists, blockTemporaries_append, List.mem_append, or_imp, forall_and]

mutual

theorem Built.restores (ht : OnlyTemporaries temps) : ∀ {scope names : Typing} {t t' : Temporaries}
    {y : Source.Statement} {x : Expr} {h : Hoisted}, Built scope t y x h t' → Plain y.references →
    Agree scope names → Lists temps (h.code ++ [x]) →
    y.direct? names = some (x.restore temps) ∧ (x.restore temps).ty? = x.ty? ∧ Agree h.scope names
  | _, _, _, _, _, _, _, .value ha, hrefs, hscope, _ => by
    rw [Source.Statement.references] at hrefs
    have hsame := Atom.restore_of_plain ht (Source.Operand.plain_name ha hrefs)
    rw [Source.Statement.direct?, Source.Operand.atom?_agree hscope ha hrefs, Expr.restore, hsame]
    exact ⟨rfl, rfl, hscope⟩
  | _, _, _, _, _, _, _, .branch ha hfirst, hrefs, hscope, hlists => by
    rw [Source.Statement.references, plain_append] at hrefs
    have hsame := Atom.restore_of_plain ht (Source.Operand.plain_name ha hrefs.1)
    rw [List.nil_append, Lists, blockTemporaries_branch] at hlists
    have htrue := hfirst.restores ht hrefs.2 hscope hlists
    rw [Source.Statement.direct?, Source.Operand.atom?_agree hscope ha hrefs.1, htrue.direct,
      Expr.restore, hsame, Expr.ty?, Expr.ty?]
    exact ⟨rfl, htrue.ty_eq, hscope⟩
  | _, _, _, _, _, _, _, .branchElse ha hfirst hsecond, hrefs, hscope, hlists => by
    rw [Source.Statement.references, plain_append, plain_append] at hrefs
    have hsame := Atom.restore_of_plain ht (Source.Operand.plain_name ha hrefs.1.1)
    rw [List.nil_append, Lists, blockTemporaries_branchElse, ← Lists, lists_append] at hlists
    have htrue := hfirst.restores ht hrefs.1.2 hscope hlists.1
    have hfalse := hsecond.restores ht hrefs.2 hscope hlists.2
    rw [Source.Statement.direct?, Source.Operand.atom?_agree hscope ha hrefs.1.1, htrue.direct,
      hfalse.direct, Expr.restore, hsame, Expr.ty?, Expr.ty?]
    exact ⟨rfl, htrue.ty_eq, hscope⟩
  | _, _, _, _, _, x, _, .operation hh hop, hrefs, hscope, hlists => by
    rw [Source.Statement.references] at hrefs
    obtain ⟨new, hcode, hnew, _⟩ := hh.tidy
    have hbound : ∀ z init, .bind z init ∈ new → List.lookup z temps = some init :=
      fun z init hmem => (lists_append.1 hlists).1 (z, init)
        (by rw [hcode]; exact (hnew.mem_temporaries (e := (z, init))).2 hmem)
    obtain ⟨hargs, hty, hscope'⟩ := hh.restores ht hrefs hscope (hcode ▸ hbound)
    obtain ⟨hoperation, hopTy⟩ := restore_operation hop hty
    rw [Source.Statement.direct?, hargs]
    exact ⟨hoperation, hopTy, hscope'⟩

theorem BlockBuilt.restores (ht : OnlyTemporaries temps) : ∀ {scope names : Typing}
    {t t' : Temporaries} {ys : List Source.Statement} {xs : List Expr}, BlockBuilt scope t ys xs t' →
    Plain (blockReferences ys) → Agree scope names → Lists temps xs →
    BlockRestores temps names ys xs
  | _, _, _, _, _, _, .nil, _, _, _ => ⟨rfl, Iff.rfl, rfl⟩
  | _, _, _, _, _, _, .value hname hx hxs, hrefs, hscope, hlists => by
    rw [blockReferences, plain_append] at hrefs
    rw [List.append_cons, lists_append] at hlists
    obtain ⟨hdirect, hty, hscope'⟩ := hx.restores ht hrefs.1 hscope hlists.1
    have hrest := hxs.restores ht hrefs.2 hscope' hlists.2
    obtain ⟨hcode, hbind⟩ := hx.literals
    refine .cons hrest.empty_iff hrest.ty_eq hcode (Expr.bindsTemporary_of_isBind hbind) hty ?_
    rw [blockDirect?, hdirect]
    simp [hname, hrest.direct]
  | _, _, _, _, _, _, .bind hname hplain hx hxs, hrefs, hscope, hlists => by
    rw [blockReferences, plain_append] at hrefs
    rw [List.append_cons, lists_append, Lists, blockTemporaries_bind hplain, ← Lists] at hlists
    obtain ⟨hdirect, hty, hscope'⟩ := hx.restores ht hrefs.1 hscope hlists.1
    have hrest := hxs.restores ht hrefs.2 (hscope'.cons _) hlists.2
    refine .cons hrest.empty_iff hrest.ty_eq hx.literals.1 hplain hty ?_
    rw [blockDirect?, hdirect]
    -- The name has the type of the written expression, which is that of the built one.
    simp only [tyOf, ← hty] at hrest
    simp [hname, Expr.restore, Expr.tyOf, hrest.direct]

end

end Build

end Restore

theorem Tidy.onlyTemporaries {t t' : Temporaries} {refs : List String} {xs : List Expr}
    (h : Tidy t refs xs t') : OnlyTemporaries (blockTemporaries xs) := by
  intro z hz
  by_contra hbound
  rw [← ne_eq, ← Option.isSome_iff_ne_none, lookup_isSome] at hbound
  cases hz.symm.trans (h.gives.isTemporary z hbound)

namespace Source.Func

/-- Where the source refers to no temporary, a built function differs from the written one only in
its temporaries. They are numbered in the order of the text, each is bound once, to a literal, and
read once, by the statement in front of which it stands. -/
theorem build_hoists (src : Source.Func) {f : ExprBackend.Func} (h : src.build = .ok f)
    (hrefs : ∀ z ∈ src.references, isTemporary z = false) :
    f.temporaries.map Prod.fst =
        (List.range f.temporaries.length).map (fun i => "t#" ++ toString i) ∧
      (∀ e ∈ f.temporaries, (∃ bits, e.2 = .atom (.float bits)) ∧
        (blockReads f.body).count e.1 = 1) ∧
      (∀ p ∈ f.params, isTemporary p.name = false) ∧
      (∀ b ∈ f.blocks, Grouped b) ∧
      src.direct? = some f.restored := by
  obtain ⟨hname, hparams, hplain, t, hbuilt⟩ := src.of_build h
  have htidy := hbuilt.tidy
  refine ⟨?_, fun e he => ⟨htidy.literal e he, htidy.count_eq_one hrefs he⟩, hplain,
    hbuilt.grouped hrefs, ?_⟩
  · have hnames := htidy.gives.eq_range
    rw [List.length_map, ← List.range_eq_range'] at hnames
    exact hnames
  · have hback := hbuilt.restores htidy.onlyTemporaries hrefs (fun _ _ => rfl)
      fun e he => lookup_of_mem htidy.gives.nodup he
    rw [direct?, hparams]
    simp only [Option.bind_eq_bind, Option.bind_some]
    rw [show f.params.map (fun p => (p.name, p.ty)) = f.paramTyping from rfl, hback.direct,
      ← hname]
    rfl

/-- Two literals of one statement, one in a branch, and one that stays where it is. -/
theorem build_hoists_area :
    let src : Source.Func :=
      { name := "area"
        params := [⟨"big", "bool"⟩]
        body := [
          { name := "a", op := "*", args := [.scalar 1 .float "3.25", .scalar 1 .float "2.0"] },
          { cond := some (.scalar 2 .str "big")
            onTrue := [{ op := "*", args := [.scalar 3 .str "a", .scalar 3 .float "1.5"] }]
            onFalse := some [{ value := some (.scalar 4 .float "2.5") }] }] }
    let product : Expr := .binary .times (.var "a" .float) (.var "t#2" .float) .float
    let inner : List Expr := [.bind "t#2" (.atom (.float 4609434218613702656)), product]
    let f : ExprBackend.Func := ⟨"area", [⟨"big", .bool⟩],
      [.bind "t#0" (.atom (.float 4614500768194494464)),
        .bind "t#1" (.atom (.float 4611686018427387904)),
        .bind "a" (.binary .times (.var "t#0" .float) (.var "t#1" .float) .float),
        .branch (.var "big" .bool) inner (some [.atom (.float 4612811918334230528)])]⟩
    let written : ExprBackend.Func := ⟨"area", [⟨"big", .bool⟩],
      [.bind "a" (.binary .times (.float 4614500768194494464) (.float 4611686018427387904) .float),
        .branch (.var "big" .bool)
          [.binary .times (.var "a" .float) (.float 4609434218613702656) .float]
          (some [.atom (.float 4612811918334230528)])]⟩
    src.build = .ok f ∧ src.references = ["big", "a"] ∧
      f.temporaries.map Prod.fst = ["t#0", "t#1", "t#2"] ∧
      (blockReads f.body).count "t#2" = 1 ∧ Grouped inner ∧ src.direct? = some written := by
  intro src product inner f written
  have hbuild : src.build = .ok f := rfl
  have hrefs : src.references = ["big", "a"] := rfl
  obtain ⟨hnames, htemps, _, hgrouped, hdirect⟩ := build_hoists src hbuild
    (by rw [hrefs]; decide)
  have hinner : inner ∈ f.blocks := by simp [f, Func.blocks, blocksWithin, Expr.blocks]
  have hlast : ("t#2", .atom (.float 4609434218613702656)) ∈ f.temporaries :=
    List.mem_of_getElem? (i := 2) rfl
  have hthree : (List.range f.temporaries.length).map (fun i => "t#" ++ toString i) =
      ["t#0", "t#1", "t#2"] := by decide
  exact ⟨hbuild, hrefs, hnames.trans hthree, (htemps _ hlast).2, hgrouped inner hinner, hdirect⟩

end Source.Func

end ExprBackend
