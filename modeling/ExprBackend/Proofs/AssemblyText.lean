import ExprBackend.Proofs.Results
import ExprBackend.Proofs.Spelling

/-!
# Assembly text

The text of a list of instructions determines the instructions. It is cut into lines, each line into
a mnemonic and its fields, and a mnemonic with the number of its fields belongs to one instruction.
-/

namespace ExprBackend

open Text

inductive Line where
  | text
  | global (name : String)
  | label (name : String)
  | operation (mnemonic : String) (fields : List String)

namespace Line

def render : Line → String
  | .text => ".text"
  | .global name => ".globl " ++ name
  | .label name => name ++ ":"
  | .operation mnemonic [] => "\t" ++ mnemonic
  | .operation mnemonic (f :: fs) => "\t" ++ mnemonic ++ "\t" ++ ", ".intercalate (f :: fs)

/-- No part of the line has a separator. -/
def IsUnbroken : Line → Prop
  | .text => True
  | .global name | .label name => Unbroken name
  | .operation mnemonic fields => Unbroken mnemonic ∧ ∀ f ∈ fields, Unbroken f

def moreFields : List String → List Char
  | [] => []
  | f :: fs => ',' :: ' ' :: (f.toList ++ moreFields fs)

theorem toList_intercalate (f : String) (fs : List String) :
    (", ".intercalate (f :: fs)).toList = f.toList ++ moreFields fs := by
  induction fs generalizing f with
  | nil => simp [moreFields]
  | cons g gs ih =>
    rw [String.intercalate_cons_cons, String.toList_append, String.toList_append, ih, moreFields,
      List.append_assoc]
    rfl

theorem resumes_moreFields (fs : List String) : Resumes ',' (moreFields fs) := by
  cases fs with
  | nil => exact Or.inl rfl
  | cons f fs => exact Or.inr ⟨_, rfl⟩

theorem moreFields_inj {fs gs : List String} (hfs : ∀ f ∈ fs, Unbroken f)
    (hgs : ∀ g ∈ gs, Unbroken g) (h : moreFields fs = moreFields gs) : fs = gs := by
  induction fs generalizing gs with
  | nil =>
    cases gs with
    | nil => rfl
    | cons g gs => cases h
  | cons f fs ih =>
    cases gs with
    | nil => cases h
    | cons g gs =>
      rw [List.forall_mem_cons] at hfs hgs
      obtain ⟨hfirst, hmore⟩ := cut_inj (hfs.1.notMem (by decide)) (hgs.1.notMem (by decide))
        (resumes_moreFields fs) (resumes_moreFields gs) (List.cons.inj (List.cons.inj h).2).2
      rw [String.toList_inj.1 hfirst, ih hfs.2 hgs.2 hmore]

def allFields : List String → List Char
  | [] => []
  | f :: fs => '\t' :: (f.toList ++ moreFields fs)

theorem toList_operation (mnemonic : String) (fields : List String) :
    (operation mnemonic fields).render.toList = '\t' :: (mnemonic.toList ++ allFields fields) := by
  cases fields with
  | nil => simp [render, allFields]
  | cons f fs =>
    rw [render, String.toList_append, toList_intercalate]
    simp [allFields]

theorem operation_inj {m n : String} {fs gs : List String} (hm : Unbroken m) (hn : Unbroken n)
    (hfs : ∀ f ∈ fs, Unbroken f) (hgs : ∀ g ∈ gs, Unbroken g)
    (h : (operation m fs).render = (operation n gs).render) : m = n ∧ fs = gs := by
  have hresumes : ∀ fields, Resumes '\t' (allFields fields) := by
    intro fields
    cases fields with
    | nil => exact Or.inl rfl
    | cons f fs => exact Or.inr ⟨_, rfl⟩
  have hchars := congrArg String.toList h
  rw [toList_operation, toList_operation] at hchars
  obtain ⟨hmnemonic, hfields⟩ := cut_inj (hm.notMem (by decide)) (hn.notMem (by decide))
    (hresumes fs) (hresumes gs) (List.cons.inj hchars).2
  refine ⟨String.toList_inj.1 hmnemonic, ?_⟩
  cases fs with
  | nil =>
    cases gs with
    | nil => rfl
    | cons g gs => cases hfields
  | cons f fs =>
    cases gs with
    | nil => cases hfields
    | cons g gs =>
      -- With a comma in front the first field is like the others.
      refine moreFields_inj hfs hgs ?_
      rw [moreFields, moreFields, (List.cons.inj hfields).2]

/-- Which of the four kinds of line a text is. -/
def kindOfText (s : String) : Nat :=
  if s.toList.head? = some '\t' then 3
  else if ':' ∈ s.toList then 2
  else if s = ".text" then 0
  else 1

def kind : Line → Nat
  | .text => 0
  | .global _ => 1
  | .label _ => 2
  | .operation _ _ => 3

theorem kindOfText_render {l : Line} (h : l.IsUnbroken) : kindOfText l.render = l.kind := by
  cases l with
  | text => rfl
  | global name =>
    have hcolon : ':' ∉ name.toList := Unbroken.notMem h (by decide)
    have hne : ".globl " ++ name ≠ ".text" := fun heq => by
      simpa using congrArg String.toList heq
    simp [kindOfText, kind, render, hcolon, hne]
  | label name =>
    have htab : '\t' ∉ name.toList := Unbroken.notMem h (by decide)
    have hhead : (name ++ ":").toList.head? ≠ some '\t' := by
      intro hsome
      obtain ⟨rest, hrest⟩ := List.head?_eq_some_iff.1 hsome
      have hmem : '\t' ∈ (name ++ ":").toList := hrest ▸ List.mem_cons_self
      simp [htab] at hmem
    rw [kindOfText, render, if_neg hhead, if_pos (by simp)]
    rfl
  | operation mnemonic fields =>
    rw [kindOfText, toList_operation]
    rfl

theorem render_inj {k l : Line} (hk : k.IsUnbroken) (hl : l.IsUnbroken)
    (h : k.render = l.render) : k = l := by
  have hkind : k.kind = l.kind := by rw [← kindOfText_render hk, h, kindOfText_render hl]
  cases k with
  | text =>
    cases l with
    | text => rfl
    | _ => cases hkind
  | global name =>
    cases l with
    | global other => exact congrArg global ((String.append_right_inj _).1 h)
    | _ => cases hkind
  | label name =>
    cases l with
    | label other => exact congrArg label ((String.append_left_inj _).1 h)
    | _ => cases hkind
  | operation m fs =>
    cases l with
    | operation n gs =>
      obtain ⟨rfl, rfl⟩ := operation_inj hk.1 hl.1 hk.2 hl.2 h
      rfl
    | _ => cases hkind

theorem newline_notMem {l : Line} (h : l.IsUnbroken) : '\n' ∉ l.render.toList := by
  have hfields : ∀ fs : List String, (∀ f ∈ fs, Unbroken f) → '\n' ∉ moreFields fs := by
    intro fs hfs
    induction fs with
    | nil => simp [moreFields]
    | cons f fs ih =>
      rw [List.forall_mem_cons] at hfs
      simp [moreFields, hfs.1.notMem (by decide : '\n' ∈ separators), ih hfs.2]
  cases l with
  | text => decide
  | global name => simp [render, Unbroken.notMem h (by decide : '\n' ∈ separators)]
  | label name => simp [render, Unbroken.notMem h (by decide : '\n' ∈ separators)]
  | operation mnemonic fields =>
    rw [toList_operation]
    have hmnemonic := h.1.notMem (by decide : '\n' ∈ separators)
    cases fields with
    | nil => simp [allFields, hmnemonic]
    | cons f fs =>
      obtain ⟨_, hall⟩ := h
      rw [List.forall_mem_cons] at hall
      simp [allFields, hmnemonic, hall.1.notMem (by decide : '\n' ∈ separators), hfields fs hall.2]

end Line

def Cond.isDeclared : Cond → Bool
  | .other _ => false
  | _ => true

def FloatOp.isDeclared : FloatOp → Bool
  | .other _ => false
  | _ => true

namespace Instr

/-- An instruction whose parts all have a spelling of their own: registers exist, operands are there,
conditions and float operations have a meaning, a predicate with a meaning is not given by its code,
and names have no separator, as those of letters, digits, underscores and dots have none. -/
def Spelled : Instr → Prop
  | .text | .cqo | .ret => True
  | .global name | .label name | .jmp name => Unbroken name
  | .mov dst src | .movsd dst src | .movq dst src | .add dst src | .sub dst src | .and dst src
  | .cmp dst src => dst.Spelled ∧ src.Spelled
  | .imul dst src | .imul3 dst src _ => IsRegister dst.number ∧ src.Spelled
  | .idiv src => src.Spelled
  | .neg dst => dst.Spelled
  | .set cond dst => cond.isDeclared = true ∧ dst.HasByte
  | .farith op dst src => op.isDeclared = true ∧ IsRegister dst.number ∧ src.Spelled
  | .cmpsd dst src pred =>
    IsRegister dst.number ∧ src.Spelled ∧ Predicate.ofCode pred.code = pred
  | .jcc cond target => cond.isDeclared = true ∧ Unbroken target
  | .push r | .pop r => IsRegister r.number
  | .absent => False

instance : (x : Instr) → Decidable x.Spelled
  | .text | .cqo | .ret => inferInstanceAs (Decidable True)
  | .global _ | .label _ | .jmp _ => inferInstanceAs (Decidable (Unbroken _))
  | .mov _ _ | .movsd _ _ | .movq _ _ | .add _ _ | .sub _ _ | .and _ _ | .cmp _ _ =>
    inferInstanceAs (Decidable (Operand.Spelled _ ∧ Operand.Spelled _))
  | .imul _ _ | .imul3 _ _ _ => inferInstanceAs (Decidable (IsRegister _ ∧ Operand.Spelled _))
  | .idiv _ | .neg _ => inferInstanceAs (Decidable (Operand.Spelled _))
  | .set _ _ => inferInstanceAs (Decidable (_ = true ∧ Operand.HasByte _))
  | .farith _ _ _ => inferInstanceAs (Decidable (_ = true ∧ IsRegister _ ∧ Operand.Spelled _))
  | .cmpsd _ _ _ => inferInstanceAs (Decidable (IsRegister _ ∧ Operand.Spelled _ ∧ _ = _))
  | .jcc _ _ => inferInstanceAs (Decidable (_ = true ∧ Unbroken _))
  | .push _ | .pop _ => inferInstanceAs (Decidable (IsRegister _))
  | .absent => inferInstanceAs (Decidable False)

def line : Instr → Line
  | .text => .text
  | .global name => .global name
  | .label name => .label name
  | .mov dst src => .operation "mov" [dst.text, src.text]
  | .movsd dst src => .operation "movsd" [dst.text, src.text]
  | .movq dst src => .operation "movq" [dst.text, src.text]
  | .add dst src => .operation "add" [dst.text, src.text]
  | .sub dst src => .operation "sub" [dst.text, src.text]
  | .and dst src => .operation "and" [dst.text, src.text]
  | .imul dst src => .operation "imul" [(Operand.reg dst).text, src.text]
  | .imul3 dst src factor =>
    .operation "imul" [(Operand.reg dst).text, src.text, toString factor.toInt]
  | .cqo => .operation "cqo" []
  | .idiv src => .operation "idiv" [src.text]
  | .neg dst => .operation "neg" [dst.text]
  | .cmp l r => .operation "cmp" [l.text, r.text]
  | .set cond dst => .operation ("set" ++ cond.suffix) [dst.byteText]
  | .farith op dst src => .operation op.mnemonic [(Operand.xreg dst).text, src.text]
  | .cmpsd dst src pred =>
    .operation "cmpsd" [(Operand.xreg dst).text, src.text, toString pred.code]
  | .jmp target => .operation "jmp" [target]
  | .jcc cond target => .operation ("j" ++ cond.suffix) [target]
  | .push src => .operation "push" [(Operand.reg src).text]
  | .pop dst => .operation "pop" [(Operand.reg dst).text]
  | .ret => .operation "ret" []
  | .absent => .operation "" []

variable {x y : Instr} {dst src : Operand}

theorem line1_eq (mnemonic : String) (h : src.Spelled) :
    line1 mnemonic src = .ok (Line.operation mnemonic [src.text]).render := by
  rw [line1, Operand.render_eq h]
  rfl

theorem line2_eq (mnemonic : String) (hdst : dst.Spelled) (hsrc : src.Spelled) :
    line2 mnemonic dst src = .ok (Line.operation mnemonic [dst.text, src.text]).render := by
  rw [line2, Operand.render_eq hdst, Operand.render_eq hsrc]
  simp [bind, Except.bind, pure, Except.pure, Line.render, String.append_assoc]

/-- A third field behind two operands. -/
theorem line3_eq (mnemonic third : String) (hdst : dst.Spelled) (hsrc : src.Spelled) :
    (do return (← line2 mnemonic dst src) ++ ", " ++ third : Except Fault String) =
      .ok (Line.operation mnemonic [dst.text, src.text, third]).render := by
  rw [line2_eq mnemonic hdst hsrc]
  simp [bind, Except.bind, pure, Except.pure, Line.render, String.append_assoc]

theorem render_eq (h : x.Spelled) : x.render = .ok x.line.render := by
  cases x with
  | text | cqo | ret => rfl
  | global name | label name | jmp name => rfl
  | mov dst src | movsd dst src | movq dst src | add dst src | sub dst src | and dst src
  | cmp dst src | imul dst src => exact line2_eq _ h.1 h.2
  | imul3 dst src factor => exact line3_eq _ _ h.1 h.2
  | idiv o | neg o | push o | pop o => exact line1_eq _ h
  | set cond dst =>
    rw [render, Operand.renderByte_eq h.2]
    rfl
  | farith op dst src => exact line2_eq _ h.2.1 h.2.2
  | cmpsd dst src pred => exact line3_eq _ _ h.1 h.2.1
  | jcc cond target => rfl
  | absent => cases h

theorem isUnbroken_line (h : x.Spelled) : x.line.IsUnbroken := by
  have hone : ∀ {m f : String}, Unbroken m → Unbroken f → (Line.operation m [f]).IsUnbroken :=
    fun hm hf => ⟨hm, by simp [hf]⟩
  have htwo : ∀ {m : String} {d o : Operand}, Unbroken m → d.Spelled → o.Spelled →
      (Line.operation m [d.text, o.text]).IsUnbroken :=
    fun hm hd ho => ⟨hm, by simp [Operand.unbroken_text hd, Operand.unbroken_text ho]⟩
  have hthree : ∀ {m : String} {d o : Operand} (n : Int), Unbroken m → d.Spelled → o.Spelled →
      (Line.operation m [d.text, o.text, toString n]).IsUnbroken := by
    intro m d o n hm hd ho
    refine ⟨hm, ?_⟩
    simpa [Operand.unbroken_text hd, Operand.unbroken_text ho] using unbroken_int n
  have hsuffix : ∀ {m : String} {cond : Cond}, Unbroken m → cond.isDeclared = true →
      Unbroken (m ++ cond.suffix) := by
    intro m cond hm hcond
    refine unbroken_append.2 ⟨hm, ?_⟩
    cases cond with
    | other s => cases hcond
    | _ => decide
  cases x with
  | text => trivial
  | cqo | ret => exact ⟨by decide, by simp⟩
  | global name | label name => exact h
  | mov dst src | movsd dst src | movq dst src | add dst src | sub dst src | and dst src
  | cmp dst src | imul dst src => exact htwo (by decide) h.1 h.2
  | imul3 dst src factor => exact hthree _ (by decide) h.1 h.2
  | idiv o | neg o => exact hone (by decide) (Operand.unbroken_text h)
  | push r | pop r => exact hone (by decide) (Operand.unbroken_text (a := .reg r) h)
  | set cond dst => exact hone (hsuffix (by decide) h.1) (Operand.unbroken_byteText h.2)
  | farith op dst src =>
    refine htwo ?_ h.2.1 h.2.2
    cases op with
    | other s => cases h.1
    | _ => decide
  | cmpsd dst src pred => exact hthree _ (by decide) h.1 h.2.1
  | jmp target => exact hone (by decide) h
  | jcc cond target => exact hone (hsuffix (by decide) h.1) h.2
  | absent => cases h

end Instr

/-- A way to read operands and lowest bytes. -/
structure Reader where
  operand : String → Operand
  byte : String → Operand

namespace Reader

def reg (R : Reader) (s : String) : Reg :=
  match R.operand s with
  | .reg r => r
  | _ => .rax

def xreg (R : Reader) (s : String) : XReg :=
  match R.operand s with
  | .xreg r => r
  | _ => .xmm0

def number (s : String) : Int := s.toInt?.getD 0

/-- The instruction with one field that a mnemonic stands for. -/
def unary (R : Reader) (a : String) : String → Instr
  | "idiv" => .idiv (R.operand a)
  | "neg" => .neg (R.operand a)
  | "push" => .push (R.reg a)
  | "pop" => .pop (R.reg a)
  | "sete" => .set .e (R.byte a)
  | "setne" => .set .ne (R.byte a)
  | "setl" => .set .l (R.byte a)
  | "setle" => .set .le (R.byte a)
  | "setg" => .set .g (R.byte a)
  | "setge" => .set .ge (R.byte a)
  | "je" => .jcc .e a
  | "jne" => .jcc .ne a
  | "jl" => .jcc .l a
  | "jle" => .jcc .le a
  | "jg" => .jcc .g a
  | "jge" => .jcc .ge a
  | _ => .jmp a

def binary (R : Reader) (a b : String) : String → Instr
  | "mov" => .mov (R.operand a) (R.operand b)
  | "movsd" => .movsd (R.operand a) (R.operand b)
  | "movq" => .movq (R.operand a) (R.operand b)
  | "add" => .add (R.operand a) (R.operand b)
  | "sub" => .sub (R.operand a) (R.operand b)
  | "and" => .and (R.operand a) (R.operand b)
  | "cmp" => .cmp (R.operand a) (R.operand b)
  | "imul" => .imul (R.reg a) (R.operand b)
  | op => .farith (FloatOp.ofMnemonic op) (R.xreg a) (R.operand b)

def ternary (R : Reader) (a b c : String) : String → Instr
  | "imul" => .imul3 (R.reg a) (R.operand b) (Int64.ofInt (number c))
  | _ => .cmpsd (R.xreg a) (R.operand b) (Predicate.ofCode (number c))

def instr (R : Reader) : Line → Instr
  | .text => .text
  | .global name => .global name
  | .label name => .label name
  | .operation "cqo" [] => .cqo
  | .operation "ret" [] => .ret
  | .operation mnemonic [a] => R.unary a mnemonic
  | .operation mnemonic [a, b] => R.binary a b mnemonic
  | .operation mnemonic [a, b, c] => R.ternary a b c mnemonic
  | _ => .absent

structure Faithful (R : Reader) : Prop where
  operand : ∀ o : Operand, o.Spelled → R.operand o.text = o
  byte : ∀ o : Operand, o.HasByte → R.byte o.byteText = o

theorem exists_faithful : ∃ R : Reader, R.Faithful := by
  have htext : Set.InjOn Operand.text {o | o.Spelled} := fun _ ha _ hb => Operand.text_inj ha hb
  have hbyte : Set.InjOn Operand.byteText {o | o.HasByte} :=
    fun _ ha _ hb => Operand.byteText_inj ha hb
  exact ⟨⟨Function.invFunOn Operand.text {o | o.Spelled},
    Function.invFunOn Operand.byteText {o | o.HasByte}⟩,
    fun _ ho => htext.leftInvOn_invFunOn ho, fun _ ho => hbyte.leftInvOn_invFunOn ho⟩

theorem number_toString (n : Int) : number (toString n) = n := by
  rw [number, Int.toString_eq_repr, Int.toInt?_repr]
  rfl

variable {R : Reader} (hR : R.Faithful)
include hR

theorem Faithful.reg {r : Reg} (h : IsRegister r.number) : R.reg (Operand.reg r).text = r := by
  rw [Reader.reg, hR.operand (.reg r) h]

theorem Faithful.xreg {r : XReg} (h : IsRegister r.number) : R.xreg (Operand.xreg r).text = r := by
  rw [Reader.xreg, hR.operand (.xreg r) h]

theorem Faithful.instr {x : Instr} (h : x.Spelled) : R.instr x.line = x := by
  cases x with
  | text | cqo | ret => rfl
  | global name | label name | jmp name => rfl
  | mov dst src | movsd dst src | movq dst src | add dst src | sub dst src | and dst src
  | cmp dst src => simp [Instr.line, Reader.instr, binary, hR.operand _ h.1, hR.operand _ h.2]
  | imul dst src => simp [Instr.line, Reader.instr, binary, hR.reg h.1, hR.operand _ h.2]
  | imul3 dst src factor =>
    rw [Instr.line, Reader.instr, ternary, hR.reg h.1, hR.operand _ h.2, number_toString,
      Int64.ofInt_toInt]
  | idiv o | neg o => simp [Instr.line, Reader.instr, unary, hR.operand _ h]
  | push r | pop r => simp [Instr.line, Reader.instr, unary, hR.reg h]
  | set cond dst =>
    cases cond with
    | other s => cases h.1
    | _ => simp [Instr.line, Reader.instr, unary, Cond.suffix, hR.byte _ h.2]
  | farith op dst src =>
    cases op with
    | other s => cases h.1
    | _ =>
      simp [Instr.line, Reader.instr, binary, FloatOp.mnemonic, FloatOp.ofMnemonic, hR.xreg h.2.1,
        hR.operand _ h.2.2]
  | cmpsd dst src pred =>
    have hread : R.instr (Instr.cmpsd dst src pred).line = .cmpsd (R.xreg (Operand.xreg dst).text)
      (R.operand src.text) (Predicate.ofCode (number (toString pred.code))) := rfl
    rw [hread, hR.xreg h.1, hR.operand _ h.2.1, number_toString, h.2.2]
  | jcc cond target =>
    cases cond with
    | other s => cases h.1
    | _ => rfl
  | absent => cases h

end Reader

def Line.renderAll : List Line → String
  | [] => ""
  | l :: ls => l.render ++ "\n" ++ renderAll ls

theorem Line.renderAll_inj {ks ls : List Line} (hks : ∀ k ∈ ks, k.IsUnbroken)
    (hls : ∀ l ∈ ls, l.IsUnbroken) (h : renderAll ks = renderAll ls) : ks = ls := by
  have hcons : ∀ l more, (renderAll (l :: more)).toList =
      l.render.toList ++ '\n' :: (renderAll more).toList := by
    intro l more
    simp [renderAll]
  replace h := congrArg String.toList h
  induction ks generalizing ls with
  | nil =>
    cases ls with
    | nil => rfl
    | cons l ls =>
      rw [hcons] at h
      simp [renderAll] at h
  | cons k ks ih =>
    cases ls with
    | nil =>
      rw [hcons] at h
      simp [renderAll] at h
    | cons l ls =>
      rw [List.forall_mem_cons] at hks hls
      rw [hcons, hcons] at h
      obtain ⟨hfirst, hmore⟩ := cut_inj (newline_notMem hks.1) (newline_notMem hls.1)
        (Or.inr ⟨_, rfl⟩) (Or.inr ⟨_, rfl⟩) h
      rw [render_inj hks.1 hls.1 (String.toList_inj.1 hfirst),
        ih hks.2 hls.2 (List.cons.inj hmore).2]

namespace Instr

theorem renderAll_eq {xs : List Instr} (h : ∀ x ∈ xs, x.Spelled) :
    renderAll xs = .ok (Line.renderAll (xs.map line)) := by
  induction xs with
  | nil => rfl
  | cons x xs ih =>
    rw [List.forall_mem_cons] at h
    rw [renderAll, render_eq h.1, ih h.2]
    rfl

/-- Instructions that are spelled can be printed, and the bytes of their text determine them. -/
theorem text_determines_code (xs ys : List Instr) (hxs : ∀ x ∈ xs, x.Spelled)
    (hys : ∀ y ∈ ys, y.Spelled) :
    ∃ s t, renderAll xs = .ok s ∧ renderAll ys = .ok t ∧ (s.toUTF8 = t.toUTF8 → xs = ys) := by
  refine ⟨_, _, renderAll_eq hxs, renderAll_eq hys, fun hbytes => ?_⟩
  have hunbroken : ∀ zs : List Instr, (∀ z ∈ zs, z.Spelled) → ∀ l ∈ zs.map line, l.IsUnbroken := by
    intro zs hzs l hl
    obtain ⟨z, hz, rfl⟩ := List.mem_map.1 hl
    exact isUnbroken_line (hzs z hz)
  have hlines : xs.map line = ys.map line :=
    Line.renderAll_inj (hunbroken xs hxs) (hunbroken ys hys) (String.toByteArray_inj.1 hbytes)
  obtain ⟨R, hR⟩ := Reader.exists_faithful
  have hback : ∀ zs : List Instr, (∀ z ∈ zs, z.Spelled) → (zs.map line).map R.instr = zs := by
    intro zs hzs
    rw [List.map_map]
    exact (List.map_congr_left fun z hz => hR.instr (hzs z hz)).trans (List.map_id zs)
  rw [← hback xs hxs, hlines, hback ys hys]

/-- Two multiplications with one mnemonic, offsets of both signs, and a number as an integer and as
the bits of a float. -/
theorem text_determines_code_alike :
    let xs : List Instr := [.label ".Lf_end0", .imul .rax (.reg .rcx),
      .mov (.mem ⟨.rbp, 16⟩) (.imm 16), .set .l (.reg .rbx), .jcc .l ".Lf_end0"]
    let ys : List Instr := [.label ".Lf_end0", .imul3 .rax (.reg .rcx) 16,
      .mov (.mem ⟨.rbp, -16⟩) (.fimm 16), .set .le (.mem ⟨.rbx, 0⟩), .jcc .le ".Lf_end0"]
    (∀ x ∈ xs, x.Spelled) ∧ (∀ y ∈ ys, y.Spelled) ∧
      ∃ s t, renderAll xs = .ok s ∧ renderAll ys = .ok t ∧ s.toUTF8 ≠ t.toUTF8 := by
  intro xs ys
  have hxs : ∀ x ∈ xs, x.Spelled := by decide
  have hys : ∀ y ∈ ys, y.Spelled := by decide
  obtain ⟨s, t, hs, ht, hsame⟩ := text_determines_code xs ys hxs hys
  exact ⟨hxs, hys, s, t, hs, ht, fun hbytes => absurd (hsame hbytes) (by decide)⟩

end Instr

end ExprBackend
