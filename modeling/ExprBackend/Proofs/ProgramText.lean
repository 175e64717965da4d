import ExprBackend.Expr.Printer
import ExprBackend.Proofs.Loading

/-!
# The layout of program text

The text of a program as rows, each of them some tabs and what follows them. The rows are read off
the program, without printing it. A program that was loaded has its rows as its text if tabs reach
for each of its statements, and no text at all if they do not for one of them.
-/

namespace ExprBackend

namespace Printer

structure Row where
  depth : Nat
  content : String
deriving DecidableEq, Repr

def tabs (depth : Nat) : String := String.ofList (List.replicate depth '\t')

def Row.text (r : Row) : String := tabs r.depth ++ r.content ++ "\n"

def rowsText : List Row → String
  | [] => ""
  | r :: rs => r.text ++ rowsText rs

@[simp]
theorem rowsText_nil : rowsText [] = "" := rfl

@[simp]
theorem rowsText_cons (r : Row) (rs : List Row) : rowsText (r :: rs) = r.text ++ rowsText rs := rfl

@[simp]
theorem rowsText_append (rs rs' : List Row) :
    rowsText (rs ++ rs') = rowsText rs ++ rowsText rs' := by
  induction rs with
  | nil => simp
  | cons r rs ih => simp [ih, String.append_assoc]

theorem rowsText_intercalate (sep : List Row) (blocks : List (List Row)) :
    rowsText (sep.intercalate blocks) = (rowsText sep).intercalate (blocks.map rowsText) := by
  induction blocks with
  | nil => rfl
  | cons rs rest ih =>
    cases rest with
    | nil => simp
    | cons rs' rest =>
      rw [List.intercalate_cons_cons, rowsText_append, rowsText_append, ih]
      simp only [List.map_cons, String.intercalate_cons_cons]

end Printer

open Printer
open scoped List

/-- What stands in the first row of an expression. -/
def Expr.heading : Expr → String
  | .atom x => x.text
  | .unary op x _ => op.symbol ++ x.text
  | .binary op l r _ => l.text ++ " " ++ op.symbol ++ " " ++ r.text
  | .bind name init => "let " ++ name ++ ": " ++ init.tyOf.name ++ " = " ++ init.heading
  | .branch cond _ _ => "if " ++ cond.text ++ " \x7b"
  | .missing => ""

mutual

/-- The rows of an expression behind the first. -/
def Expr.innerRows (depth : Nat) : Expr → List Row
  | .bind _ init => init.innerRows depth
  | .branch _ onTrue none => blockRows (depth + 1) onTrue ++ [⟨depth, "\x7d"⟩]
  | .branch _ onTrue (some b) =>
    blockRows (depth + 1) onTrue ++
      ⟨depth, "\x7d else \x7b"⟩ :: blockRows (depth + 1) b ++ [⟨depth, "\x7d"⟩]
  | _ => []

def blockRows (depth : Nat) : List Expr → List Row
  | [] => []
  | x :: xs => ⟨depth, x.heading⟩ :: x.innerRows depth ++ blockRows depth xs

end

structure Nested where
  depth : Nat
  statement : Expr

def Nested.row (s : Nested) : Row := ⟨s.depth, s.statement.heading⟩

mutual

/-- The statements inside of an expression that has `depth` blocks around it. -/
def Expr.nested (depth : Nat) : Expr → List Nested
  | .bind _ init => init.nested depth
  | .branch _ onTrue none => blockNested (depth + 1) onTrue
  | .branch _ onTrue (some b) => blockNested (depth + 1) onTrue ++ blockNested (depth + 1) b
  | _ => []

/-- The statements of a block at any depth, in the order of the text. -/
def blockNested (depth : Nat) : List Expr → List Nested
  | [] => []
  | x :: xs => ⟨depth, x⟩ :: x.nested depth ++ blockNested depth xs

end

def Func.heading (f : Func) : String :=
  "func " ++ f.name ++ "(" ++ ", ".intercalate (f.params.map Param.text) ++ ") " ++
    (f.result?.getD .int).name ++ " \x7b"

def Func.rows (f : Func) : List Row := ⟨0, f.heading⟩ :: blockRows 1 f.body ++ [⟨0, "\x7d"⟩]

/-- The rows of the functions, with an empty one between two of them. -/
def Program.rows (p : Program) : List Row := [⟨0, ""⟩].intercalate (p.funcs.map Func.rows)

def Func.nested (f : Func) : List Nested := blockNested 1 f.body

def Program.nested (p : Program) : List Nested := p.funcs.flatMap Func.nested

mutual

theorem Expr.rows_nested : ∀ (x : Expr) (depth : Nat),
    (x.nested depth).map Nested.row <+ x.innerRows depth
  | .bind name init, depth => by
    rw [Expr.nested, Expr.innerRows]
    exact init.rows_nested depth
  | .branch cond onTrue none, depth => by
    rw [Expr.nested, Expr.innerRows]
    exact (rows_blockNested onTrue (depth + 1)).trans (List.sublist_append_left _ _)
  | .branch cond onTrue (some b), depth => by
    rw [Expr.nested, Expr.innerRows, List.map_append]
    refine (List.Sublist.append (rows_blockNested onTrue (depth + 1)) ?_).trans
      (List.sublist_append_left _ _)
    exact (rows_blockNested b (depth + 1)).cons _
  | .atom x, depth => List.Sublist.refl []
  | .unary op x ty, depth => List.Sublist.refl []
  | .binary op l r ty, depth => List.Sublist.refl []
  | .missing, depth => List.Sublist.refl []

theorem rows_blockNested : ∀ (xs : List Expr) (depth : Nat),
    (blockNested depth xs).map Nested.row <+ blockRows depth xs
  | [], depth => List.Sublist.refl []
  | x :: xs, depth => by
    rw [blockNested, blockRows, List.map_append, List.map_cons]
    exact ((x.rows_nested depth).cons_cons _).append (rows_blockNested xs depth)

end

theorem Func.rows_nested (f : Func) : f.nested.map Nested.row <+ f.rows :=
  (rows_blockNested f.body 1).trans ((List.sublist_append_left _ _).cons _)

theorem sublist_intercalate {α : Type} (sep : List α) {xss yss : List (List α)}
    (h : List.Forall₂ List.Sublist xss yss) : xss.flatten <+ sep.intercalate yss := by
  induction h with
  | nil => exact List.Sublist.refl []
  | @cons xs ys xss yss hxs hrest ih =>
    cases yss with
    | nil =>
      cases hrest
      simpa using hxs
    | cons ys' yss =>
      rw [List.flatten_cons, List.intercalate_cons_cons, List.append_assoc]
      exact hxs.append (ih.trans (List.sublist_append_right _ _))

theorem Program.rows_nested (p : Program) : p.nested.map Nested.row <+ p.rows := by
  rw [Program.nested, List.map_flatMap, List.flatMap_def, Program.rows]
  apply sublist_intercalate
  rw [List.forall₂_map_left_iff, List.forall₂_map_right_iff, List.forall₂_same]
  exact fun f _ => f.rows_nested

namespace Printer

def Fits (s : Nested) : Prop := s.depth ≤ maxDepth

/-- Printing gives `a`, or fails for want of tabs. -/
structure Prints {α : Type} (r : Except PrintError α) (fits : Prop) (a : α) : Prop where
  ok : fits → r = .ok a
  tooDeep : ¬fits → r = .error (.fault (.indentation (maxDepth + 1) maxDepth))

namespace Prints

variable {α β : Type} {r : Except PrintError α} {fits fits' : Prop} {a : α}

theorem pure (a : α) : Prints (.ok a) True a := ⟨fun _ => rfl, fun h => absurd trivial h⟩

theorem bind {k : α → Except PrintError β} {b : β} (h : Prints r fits a)
    (hk : Prints (k a) fits' b) : Prints (r >>= k) (fits ∧ fits') b where
  ok hfits := by
    rw [h.ok hfits.1]
    exact hk.ok hfits.2
  tooDeep hfits := by
    by_cases hfirst : fits
    · rw [h.ok hfirst]
      exact hk.tooDeep fun hrest => hfits ⟨hfirst, hrest⟩
    · rw [h.tooDeep hfirst]
      rfl

theorem within (h : Prints r fits a) (place : Place) : Prints (within place r) fits a where
  ok hfits := by
    rw [h.ok hfits]
    rfl
  tooDeep hfits := by
    rw [h.tooDeep hfits]
    rfl

theorem congr (h : Prints r fits a) (hiff : fits ↔ fits') : Prints r fits' a := propext hiff ▸ h

theorem indent {depth : Nat} (h : depth ≤ maxDepth + 1) :
    Prints (indent depth) (depth ≤ maxDepth) (tabs depth) where
  ok hfits := if_pos hfits
  tooDeep hfits := by
    obtain rfl : depth = maxDepth + 1 := by omega
    exact if_neg hfits

theorem mapM {γ : Type} {g : γ → Except PrintError α} {fits : γ → Prop} {out : γ → α} :
    ∀ xs : List γ, (∀ x ∈ xs, Prints (g x) (fits x) (out x)) →
      Prints (xs.mapM g) (∀ x ∈ xs, fits x) (xs.map out)
  | [], _ => (pure []).congr (by simp)
  | x :: xs, h => by
    rw [List.mapM_cons]
    have hrest := mapM xs fun y hy => h y (List.mem_cons_of_mem x hy)
    refine Prints.congr (Prints.bind (h x List.mem_cons_self) (Prints.bind hrest (pure _))) ?_
    simp

end Prints

/-- A statement without the indentation in front of it. -/
def statementText (depth : Nat) : Expr → Except PrintError String
  | .bind name init => do
    let ty ← shownTy init.ty?
    let value ← exprText depth init
    return "let " ++ name ++ ": " ++ ty ++ " = " ++ value
  | x => exprText depth x

theorem statementText_of_isBind {x : Expr} (h : x.isBind = false) (depth : Nat) :
    statementText depth x = exprText depth x := by
  cases x with
  | bind name init => cases h
  | _ => rfl

theorem blockText_statement (depth : Nat) (x : Expr) (xs : List Expr) :
    blockText depth (x :: xs) = (do
      let tabs ← indent depth
      let line ← statementText depth x
      let rest ← blockText depth xs
      return tabs ++ line ++ "\n" ++ rest) := by
  cases x with
  | bind name init =>
    rw [blockText, statementText]
    simp only [bind_assoc, pure_bind, String.append_assoc]
  | _ => rfl

theorem shownTy_of_isSome {ty : Option Ty} (h : ty.isSome = true) :
    shownTy ty = .ok (ty.getD .int).name := by
  obtain ⟨ty, rfl⟩ := Option.isSome_iff_exists.1 h
  rfl

mutual

/-- What is printed for a statement is its first row from the heading on, and its other rows. -/
theorem prints_statementText : ∀ (x : Expr) (scope : Typing) (depth : Nat),
    x.wellFormed scope = true → depth ≤ maxDepth →
      ∃ shown, Prints (statementText depth x) (∀ s ∈ x.nested depth, Fits s) shown ∧
        shown ++ "\n" = x.heading ++ "\n" ++ rowsText (x.innerRows depth)
  | .atom x, scope, depth, _, _ => ⟨_, (Prints.pure _).congr (by simp [Expr.nested]), by
    simp [Expr.heading, Expr.innerRows]⟩
  | .unary op x ty, scope, depth, _, _ => ⟨_, (Prints.pure _).congr (by simp [Expr.nested]), by
    simp [Expr.heading, Expr.innerRows]⟩
  | .binary op l r ty, scope, depth, _, _ => ⟨_, (Prints.pure _).congr (by simp [Expr.nested]), by
    simp [Expr.heading, Expr.innerRows]⟩
  | .bind name init, scope, depth, h, hdepth => by
    rw [Expr.wellFormed, Bool.and_eq_true, Bool.not_eq_true'] at h
    obtain ⟨shown, hshown, htext⟩ := prints_statementText init scope depth h.2 hdepth
    rw [statementText_of_isBind h.1] at hshown
    rw [statementText, shownTy_of_isSome (init.ty?_isSome scope h.2)]
    refine ⟨_, Prints.congr (Prints.bind (Prints.pure _)
      (Prints.bind hshown (Prints.pure _))) ?_, ?_⟩
    · simp [Expr.nested]
    · rw [Expr.heading, Expr.innerRows, String.append_assoc, htext]
      simp only [Expr.tyOf, String.append_assoc]
  | .branch cond onTrue none, scope, depth, h, hdepth => by
    rw [Expr.wellFormed, Bool.and_eq_true] at h
    have hfirst := prints_blockText onTrue scope (depth + 1) h.2 (by omega)
    have htabs := Prints.indent (Nat.le_succ_of_le hdepth)
    refine ⟨_, Prints.congr (Prints.bind (hfirst.within .onTrue)
      (Prints.bind htabs (Prints.pure _))) ?_, ?_⟩
    · simp [Expr.nested, hdepth]
    · simp [Expr.heading, Expr.innerRows, Row.text, String.append_assoc]
  | .branch cond onTrue (some b), scope, depth, h, hdepth => by
    simp only [Expr.wellFormed, Bool.and_eq_true] at h
    have hfirst := prints_blockText onTrue scope (depth + 1) h.1.2 (by omega)
    have hsecond := prints_blockText b scope (depth + 1) h.2 (by omega)
    have htabs := Prints.indent (Nat.le_succ_of_le hdepth)
    refine ⟨_, Prints.congr (Prints.bind (hfirst.within .onTrue) (Prints.bind htabs
      (Prints.bind (hsecond.within .onFalse) (Prints.pure _)))) ?_, ?_⟩
    · simp [Expr.nested, hdepth, or_imp, forall_and]
    · simp [Expr.heading, Expr.innerRows, Row.text, String.append_assoc]
  | .missing, scope, depth, h, _ => by simp [Expr.wellFormed] at h

theorem prints_blockText : ∀ (xs : List Expr) (scope : Typing) (depth : Nat),
    blockWellFormed xs scope = true → depth ≤ maxDepth + 1 →
      Prints (blockText depth xs) (∀ s ∈ blockNested depth xs, Fits s)
        (rowsText (blockRows depth xs))
  | [], scope, depth, _, _ => (Prints.pure _).congr (by simp [blockNested])
  | x :: xs, scope, depth, h, hdepth => by
    rw [blockWellFormed, Bool.and_eq_true] at h
    rw [blockText_statement]
    have htabs := Prints.indent hdepth
    by_cases hfits : depth ≤ maxDepth
    · obtain ⟨shown, hshown, htext⟩ := prints_statementText x scope depth h.1 hfits
      have hrest := prints_blockText xs _ depth h.2 hdepth
      have hrows : rowsText (⟨depth, x.heading⟩ :: x.innerRows depth) =
          tabs depth ++ shown ++ "\n" := by
        simp only [rowsText_cons, Row.text, String.append_assoc, htext]
      rw [blockRows, rowsText_append, hrows]
      refine Prints.congr (Prints.bind htabs (Prints.bind hshown
        (Prints.bind hrest (Prints.pure _)))) ?_
      simp [blockNested, Fits, hfits, or_imp, forall_and]
    · -- The first statement is too deep, and so its block is.
      refine ⟨fun hall => absurd (hall ⟨depth, x⟩ (by simp [blockNested])) hfits, fun _ => ?_⟩
      rw [htabs.tooDeep hfits]
      rfl

end

theorem prints_func {f : Func} (hf : f.LoaderForm) :
    Prints f.render (∀ s ∈ f.nested, Fits s) (rowsText f.rows) := by
  have hbody := prints_blockText f.body f.paramTyping 1 hf.wellFormed (by decide)
  have hty : f.result?.isSome = true := blockTy?_isSome f.body f.paramTyping hf.wellFormed
  have htext : rowsText f.rows =
      "func " ++ f.name ++ "(" ++ ", ".intercalate (f.params.map Param.text) ++ ") " ++
        (f.result?.getD .int).name ++ " \x7b\n" ++ rowsText (blockRows 1 f.body) ++ "\x7d\n" := by
    simp [Func.rows, Func.heading, Row.text, tabs, String.append_assoc]
  rw [Func.render, shownTy_of_isSome hty, htext]
  refine Prints.congr (Prints.bind (Prints.pure _) (Prints.bind (hbody.within .body)
    (Prints.pure _))) ?_
  simp [Func.nested]

theorem prints_program {p : Program} (hp : ∀ f ∈ p.funcs, f.LoaderForm) :
    Prints p.render (∀ s ∈ p.nested, Fits s) (rowsText p.rows) := by
  have hfuncs := Prints.mapM p.funcs fun f hf => (prints_func (hp f hf)).within (.func f.name)
  have htext : rowsText p.rows = "\n".intercalate (p.funcs.map fun f => rowsText f.rows) := by
    rw [Program.rows, rowsText_intercalate, List.map_map]
    rfl
  rw [Program.render, htext]
  refine Prints.congr (Prints.bind hfuncs (Prints.pure _)) ?_
  simp only [Program.nested, List.mem_flatMap, and_true]
  exact ⟨fun h s hs => let ⟨f, hf, hs⟩ := hs; h f hf s hs, fun h f hf s hs => h s ⟨f, hf, hs⟩⟩

end Printer

/-- A program has its rows as its text if no statement has more blocks around it than there are
tabs, and fails to print otherwise. Among its rows are, in order, those in which its statements
start, each with a tab for every block around the statement. -/
theorem Program.render_of_loaderForm {p : Program} (h : ∀ f ∈ p.funcs, f.LoaderForm) :
    ((∀ s ∈ p.nested, s.depth ≤ maxDepth) → p.render = .ok (rowsText p.rows)) ∧
      ((∃ s ∈ p.nested, maxDepth < s.depth) →
        p.render = .error (.fault (.indentation (maxDepth + 1) maxDepth))) ∧
      p.nested.map Nested.row <+ p.rows := by
  have hprints := prints_program h
  refine ⟨hprints.ok, ?_, p.rows_nested⟩
  rintro ⟨s, hs, hdeep⟩
  exact hprints.tooDeep fun hfits => absurd (hfits s hs) (by simpa [Fits] using hdeep)

/-- Described functions are printed within the tabs, and only there. -/
theorem Program.render_ofSource {srcs : List Source.Func} {p : Program}
    (h : Program.ofSource srcs = .ok p) :
    ((∀ s ∈ p.nested, s.depth ≤ maxDepth) → p.render = .ok (rowsText p.rows)) ∧
      ((∃ s ∈ p.nested, maxDepth < s.depth) →
        p.render = .error (.fault (.indentation (maxDepth + 1) maxDepth))) ∧
      p.nested.map Nested.row <+ p.rows :=
  Program.render_of_loaderForm (Program.loaderForm_ofSource h)

/-- The same for a text. -/
theorem Program.render_of_parse {text : String} {p : Program} (h : Program.parse text = .ok p) :
    ((∀ s ∈ p.nested, s.depth ≤ maxDepth) → p.render = .ok (rowsText p.rows)) ∧
      ((∃ s ∈ p.nested, maxDepth < s.depth) →
        p.render = .error (.fault (.indentation (maxDepth + 1) maxDepth))) ∧
      p.nested.map Nested.row <+ p.rows :=
  Program.render_of_loaderForm (Program.loaderForm_parse h)

/-- A binding of a condition, with a statement in its branch and one behind it. -/
def bindingText : String := "funcs:
- name: f
  body:
  - let: y
    if: 1
    then:
    - value: 2
  - value: y
"

theorem Program.render_ofSource_binding : ∃ p, Program.parse bindingText = .ok p ∧
    p.nested.map Nested.row = [⟨1, "let y: int = if 1 \x7b"⟩, ⟨2, "2"⟩, ⟨1, "y"⟩] ∧
    p.nested.map Nested.row <+ p.rows ∧ p.render = .ok (rowsText p.rows) := by
  have hcheck : (Program.parse bindingText).toOption.any (fun p =>
      p.nested.map Nested.row = [⟨1, "let y: int = if 1 \x7b"⟩, ⟨2, "2"⟩, ⟨1, "y"⟩]) = true := by
    decide +kernel
  obtain ⟨p, hp, hrows⟩ := Program.of_parse hcheck
  have hrows := of_decide_eq_true hrows
  have hfits : ∀ r ∈ p.nested.map Nested.row, r.depth ≤ maxDepth := by
    rw [hrows]
    decide
  obtain ⟨srcs, _, hbuild⟩ := Program.exists_ofSource hp
  obtain ⟨hrender, _, hsublist⟩ := Program.render_ofSource hbuild
  exact ⟨p, hp, hrows, hsublist, hrender fun s hs => hfits s.row (List.mem_map_of_mem hs)⟩

/-- Conditions within each other, with one statement in the innermost branch. -/
def conditionsText : Nat → String
  | 0 => "\x7bvalue: 1\x7d"
  | n + 1 => "\x7bif: 1, then: [" ++ conditionsText n ++ "]\x7d"

/-- The statement within fifteen conditions is one tab too deep. -/
def deepText : String := "funcs:
- name: f
  body: [" ++ conditionsText 15 ++ "]
"

/-- A program that was loaded and that has no text. -/
theorem Program.render_deepText : ∃ p, Program.parse deepText = .ok p ∧
    p.render = .error (.fault (.indentation 16 15)) := by
  have hcheck : (Program.parse deepText).toOption.any
      (fun p => p.render = .error (.fault (.indentation 16 15))) = true := by
    decide +kernel
  obtain ⟨p, hp, hrender⟩ := Program.of_parse hcheck
  exact ⟨p, hp, of_decide_eq_true hrender⟩

end ExprBackend
