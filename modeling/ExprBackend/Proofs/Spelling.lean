import ExprBackend.Asm.Printer
import Mathlib

/-!
# Spelling of operands

The text of an operand determines it. Operands of different kinds begin differently, numbers are
written in one way only, and an address is cut at its first blank. No operand has a character that
ends a part of a line.
-/

namespace ExprBackend

namespace Text

/-- Empty, or with a separator in front. -/
def Resumes (sep : Char) (cs : List Char) : Prop := cs = [] ∨ ∃ rest, cs = sep :: rest

theorem Resumes.head_mem {sep x : Char} {front cs more : List Char} (h : Resumes sep cs)
    (heq : cs = x :: front ++ more) : sep ∈ x :: front := by
  rcases h with rfl | ⟨rest, rfl⟩
  · cases heq
  · obtain ⟨rfl, _⟩ := List.cons.inj heq
    exact List.mem_cons_self

/-- A text is cut at its first separator in one way. -/
theorem cut_inj {sep : Char} {a b c d : List Char} (ha : sep ∉ a) (hb : sep ∉ b)
    (hc : Resumes sep c) (hd : Resumes sep d) (h : a ++ c = b ++ d) : a = b ∧ c = d := by
  induction a generalizing b with
  | nil =>
    cases b with
    | nil => exact ⟨rfl, h⟩
    | cons x b => exact absurd (hc.head_mem h) hb
  | cons x a ih =>
    cases b with
    | nil => exact absurd (hd.head_mem h.symm) ha
    | cons y b =>
      obtain ⟨rfl, hrest⟩ := List.cons.inj h
      obtain ⟨rfl, hcd⟩ := ih (fun hx => ha (List.mem_cons_of_mem x hx))
        (fun hx => hb (List.mem_cons_of_mem x hx)) hrest
      exact ⟨rfl, hcd⟩

/-- The characters that end a part of a line: the line itself, a mnemonic, an operand, a label. -/
def separators : List Char := ['\n', '\t', ',', ':']

def Unbroken (s : String) : Prop := ∀ c ∈ s.toList, c ∉ separators

instance (s : String) : Decidable (Unbroken s) := List.decidableBAll (· ∉ separators) s.toList

theorem unbroken_append {s t : String} : Unbroken (s ++ t) ↔ Unbroken s ∧ Unbroken t := by
  simp only [Unbroken, String.toList_append, List.mem_append, or_imp, forall_and]

theorem Unbroken.notMem {s : String} (h : Unbroken s) {c : Char} (hc : c ∈ separators) :
    c ∉ s.toList := fun hmem => h c hmem hc

theorem toString_int_inj {m n : Int} : toString m = toString n ↔ m = n := Int.repr_inj

theorem mem_toString_int {n : Int} {c : Char} (h : c ∈ (toString n).toList) :
    c.isDigit = true ∨ c = '-' := by
  have hdigit : ∀ k : Nat, c ∈ k.repr.toList → c.isDigit = true := by
    intro k hk
    rw [Nat.repr_eq_ofList_toDigits, String.toList_ofList] at hk
    exact Nat.isDigit_of_mem_toDigits (by decide) (by decide) hk
  rw [Int.toString_eq_repr, Int.repr_eq_if] at h
  split at h
  · exact Or.inl (hdigit _ h)
  · rw [String.toList_append, List.mem_append] at h
    rcases h with hsign | hk
    · exact Or.inr (by simpa using hsign)
    · exact Or.inl (hdigit _ hk)

theorem not_isDigit_of_mem_separators {c : Char} (h : c ∈ separators) :
    c.isDigit = false ∧ c ≠ '-' := by
  simp only [separators, List.mem_cons, List.not_mem_nil, or_false] at h
  rcases h with rfl | rfl | rfl | rfl <;> decide

theorem unbroken_int (n : Int) : Unbroken (toString n) := by
  intro c hc hsep
  obtain ⟨hdigit, hsign⟩ := not_isDigit_of_mem_separators hsep
  rcases mem_toString_int hc with h | h
  · cases hdigit.symm.trans h
  · exact hsign h

theorem digitChar_inj : ∀ m < 16, ∀ n < 16, Nat.digitChar m = Nat.digitChar n → m = n := by
  decide

theorem digitChar_notMem_separators : ∀ n < 16, Nat.digitChar n ∉ separators := by
  decide

theorem hexDigits_eq (n : Nat) :
    hexDigits n = if n < 16 then [n.digitChar] else hexDigits (n / 16) ++ [(n % 16).digitChar] :=
  Nat.toDigits_eq_if (by decide)

theorem hexDigits_ne_nil (n : Nat) : hexDigits n ≠ [] := Nat.toDigits_ne_nil

theorem hexDigits_inj {m n : Nat} (h : hexDigits m = hexDigits n) : m = n := by
  induction m using Nat.strongRecOn generalizing n with
  | ind m ih =>
    -- One digit stands alone, and two or more have others in front of the last.
    have halone : ∀ k j d : Nat, [Nat.digitChar j] ≠ hexDigits k ++ [Nat.digitChar d] := by
      intro k j d heq
      have hlength := congrArg List.length heq
      simp [hexDigits_ne_nil] at hlength
    rw [hexDigits_eq m, hexDigits_eq n] at h
    split at h <;> split at h
    next hm hn => exact digitChar_inj m hm n hn (List.singleton_injective h)
    next => exact absurd h (halone _ _ _)
    next => exact absurd h.symm (halone _ _ _)
    next hm hn =>
      obtain ⟨hfront, hlast⟩ := List.append_inj' h rfl
      have hdiv : m / 16 = n / 16 := ih (m / 16) (by omega) hfront
      have hmod : m % 16 = n % 16 :=
        digitChar_inj _ (Nat.mod_lt m (by decide)) _ (Nat.mod_lt n (by decide))
          (List.singleton_injective hlast)
      omega

theorem markedHex_inj {m n : Nat} : markedHex m = markedHex n ↔ m = n := by
  refine ⟨fun h => hexDigits_inj ?_, fun h => h ▸ rfl⟩
  rw [markedHex, markedHex, String.append_right_inj] at h
  simpa using congrArg String.toList h

theorem unbroken_markedHex (n : Nat) : Unbroken (markedHex n) := by
  rw [markedHex, unbroken_append]
  refine ⟨by decide, ?_⟩
  rw [Unbroken, String.toList_ofList]
  induction n using Nat.strongRecOn with
  | ind n ih =>
    intro c hc
    rw [hexDigits_eq] at hc
    split at hc
    next hn =>
      obtain rfl := List.mem_singleton.1 hc
      exact digitChar_notMem_separators n hn
    next =>
      rcases List.mem_append.1 hc with hc | hc
      · exact ih (n / 16) (by omega) c hc
      · obtain rfl := List.mem_singleton.1 hc
        exact digitChar_notMem_separators _ (Nat.mod_lt n (by decide))

end Text

open Text

def IsRegister (number : Int) : Prop := 0 ≤ number ∧ number < 16

instance (number : Int) : Decidable (IsRegister number) := inferInstanceAs (Decidable (_ ∧ _))

/-- What holds of sixteen numbers holds of all registers. -/
theorem IsRegister.of_index {p : Int → Prop} (h : ∀ i : Fin 16, p (i : Nat)) {n : Int}
    (hn : IsRegister n) : p n := by
  obtain ⟨hlow, hhigh⟩ := hn
  have hindex := h ⟨n.toNat, by omega⟩
  rwa [Int.toNat_of_nonneg hlow] at hindex

namespace Reg

variable {r q : Reg}

theorem eq_of_spelling {spell : Reg → String}
    (hspell : ∀ i j : Fin 16, spell ⟨(i : Nat)⟩ = spell ⟨(j : Nat)⟩ → i = j)
    (hr : IsRegister r.number) (hq : IsRegister q.number) (h : spell r = spell q) : r = q := by
  obtain ⟨m⟩ := r
  obtain ⟨n⟩ := q
  revert h
  apply hr.of_index (p := fun m => spell ⟨m⟩ = spell ⟨n⟩ → (⟨m⟩ : Reg) = ⟨n⟩)
  intro i
  apply hq.of_index (p := fun n => spell ⟨(i : Nat)⟩ = spell ⟨n⟩ → (⟨(i : Nat)⟩ : Reg) = ⟨n⟩)
  intro j h
  rw [hspell i j h]

theorem name_inj (hr : IsRegister r.number) (hq : IsRegister q.number) (h : r.name = q.name) :
    r = q :=
  eq_of_spelling (by decide) hr hq h

theorem byteName_inj (hr : IsRegister r.number) (hq : IsRegister q.number)
    (h : r.byteName = q.byteName) : r = q :=
  eq_of_spelling (by decide) hr hq h

/-- Names of registers begin with `r` and have no blank. -/
theorem of_name (hr : IsRegister r.number) :
    Unbroken r.name ∧ ' ' ∉ r.name.toList ∧ r.name.toList.head? = some 'r' :=
  hr.of_index (p := fun n => Unbroken (name ⟨n⟩) ∧ ' ' ∉ (name ⟨n⟩).toList ∧
    (name ⟨n⟩).toList.head? = some 'r') (by decide)

theorem of_byteName (hr : IsRegister r.number) :
    Unbroken r.byteName ∧ ' ' ∉ r.byteName.toList :=
  hr.of_index (p := fun n => Unbroken (byteName ⟨n⟩) ∧ ' ' ∉ (byteName ⟨n⟩).toList) (by decide)

end Reg

namespace XReg

theorem name_inj {r q : XReg} (h : r.name = q.name) : r = q := by
  obtain ⟨m⟩ := r
  obtain ⟨n⟩ := q
  rw [name, name, String.append_right_inj, toString_int_inj] at h
  exact congrArg XReg.mk h

theorem unbroken_name (r : XReg) : Unbroken r.name :=
  unbroken_append.2 ⟨by decide, unbroken_int r.number⟩

end XReg

namespace Mem

/-- What stands behind the base of an address. -/
def displacement (n : Int) : String :=
  if n > 0 then " + " ++ toString n else if n < 0 then " - " ++ toString (-n) else ""

theorem address_eq (m : Mem) :
    m.address = "[" ++ (m.base.name ++ displacement m.offset.toInt) ++ "]" := by
  simp only [address, displacement]
  split
  · simp only [String.append_assoc]
  · split
    · simp only [String.append_assoc]
    · simp only [String.append_empty, String.append_assoc]

theorem resumes_displacement (n : Int) : Resumes ' ' (displacement n).toList := by
  unfold displacement
  split
  · exact Or.inr ⟨_, String.toList_append⟩
  · split
    · exact Or.inr ⟨_, String.toList_append⟩
    · exact Or.inl rfl

theorem unbroken_displacement (n : Int) : Unbroken (displacement n) := by
  unfold displacement
  split
  · exact unbroken_append.2 ⟨by decide, unbroken_int n⟩
  · split
    · exact unbroken_append.2 ⟨by decide, unbroken_int (-n)⟩
    · decide

/-- The number that a displacement adds. -/
def added : List Char → Int
  | ' ' :: '+' :: ' ' :: digits => (String.ofList digits).toInt?.getD 0
  | ' ' :: '-' :: ' ' :: digits => -(String.ofList digits).toInt?.getD 0
  | _ => 0

theorem added_displacement (n : Int) : added (displacement n).toList = n := by
  unfold displacement
  split
  · simp [added, Int.toInt?_repr]
  · split
    · simp [added, Int.toInt?_repr]
    · simp [added]
      omega

theorem address_inj {m n : Mem} (hm : IsRegister m.base.number) (hn : IsRegister n.base.number)
    (h : m.address = n.address) : m = n := by
  rw [address_eq, address_eq, String.append_left_inj, String.append_right_inj] at h
  obtain ⟨_, hmblank, _⟩ := Reg.of_name hm
  obtain ⟨_, hnblank, _⟩ := Reg.of_name hn
  obtain ⟨hbase, htail⟩ := cut_inj hmblank hnblank (resumes_displacement _)
    (resumes_displacement _) (by simpa only [String.toList_append] using congrArg String.toList h)
  have hoffset : m.offset.toInt = n.offset.toInt := by
    rw [← added_displacement m.offset.toInt, htail, added_displacement]
  rw [show m = ⟨m.base, m.offset⟩ from rfl, Reg.name_inj hm hn (String.toList_inj.1 hbase),
    Int32.toInt_inj.1 hoffset]

theorem unbroken_address {m : Mem} (hm : IsRegister m.base.number) : Unbroken m.address := by
  rw [address_eq, unbroken_append, unbroken_append, unbroken_append]
  exact ⟨⟨by decide, (Reg.of_name hm).1, unbroken_displacement _⟩, by decide⟩

end Mem

namespace Operand

def text (o : Operand) : String := o.render.toOption.getD ""

def byteText (o : Operand) : String := o.renderByte.toOption.getD ""

/-- An operand that is there, with registers that exist. -/
def Spelled : Operand → Prop
  | .reg r => IsRegister r.number
  | .xreg r => IsRegister r.number
  | .mem m => IsRegister m.base.number
  | .imm _ | .fimm _ => True
  | .absent => False

/-- A general register or a word of memory, so that there is a lowest byte. -/
def HasByte : Operand → Prop
  | .reg r => IsRegister r.number
  | .mem m => IsRegister m.base.number
  | _ => False

instance : (o : Operand) → Decidable o.Spelled
  | .reg _ | .xreg _ | .mem _ => inferInstanceAs (Decidable (IsRegister _))
  | .imm _ | .fimm _ => inferInstanceAs (Decidable True)
  | .absent => inferInstanceAs (Decidable False)

instance : (o : Operand) → Decidable o.HasByte
  | .reg _ | .mem _ => inferInstanceAs (Decidable (IsRegister _))
  | .xreg _ | .imm _ | .fimm _ | .absent => inferInstanceAs (Decidable False)

variable {a b : Operand}

theorem render_eq (h : a.Spelled) : a.render = .ok a.text := by
  cases a with
  | absent => cases h
  | _ => rfl

theorem renderByte_eq (h : a.HasByte) : a.renderByte = .ok a.byteText := by
  cases a with
  | reg r => rfl
  | mem m => rfl
  | _ => cases h

def kindOfText : List Char → String
  | 'r' :: _ => "asm.Reg"
  | 'x' :: _ => "asm.XReg"
  | 'q' :: _ => "asm.Mem"
  | '0' :: 'x' :: _ => "asm.FImm"
  | _ => "asm.Imm"

theorem kindOfText_int (n : Int) : kindOfText (toString n).toList = "asm.Imm" := by
  have hchars : ∀ c ∈ (toString n).toList, c.isDigit = true ∨ c = '-' := fun _ => mem_toString_int
  revert hchars
  generalize (toString n).toList = cs
  intro hchars
  unfold kindOfText
  split
  next => exact absurd (hchars 'r' List.mem_cons_self) (by decide)
  next => exact absurd (hchars 'x' List.mem_cons_self) (by decide)
  next => exact absurd (hchars 'q' List.mem_cons_self) (by decide)
  next => exact absurd (hchars 'x' (List.mem_cons_of_mem _ List.mem_cons_self)) (by decide)
  next => rfl

theorem kindOfText_text (h : a.Spelled) : kindOfText a.text.toList = a.kind := by
  cases a with
  | reg r =>
    obtain ⟨_, _, hhead⟩ := Reg.of_name h
    obtain ⟨cs, hcs⟩ := List.head?_eq_some_iff.1 hhead
    rw [show (Operand.reg r).text = r.name from rfl, hcs]
    rfl
  | xreg r => simp [text, render, Except.toOption, XReg.name, kindOfText, kind]
  | imm v => exact kindOfText_int v.toInt
  | fimm bits => simp [text, render, Except.toOption, markedHex, kindOfText, kind]
  | mem m => simp [text, render, Except.toOption, kindOfText, kind]
  | absent => cases h

/-- Operands that are spelled alike are equal. -/
theorem text_inj (ha : a.Spelled) (hb : b.Spelled) (h : a.text = b.text) : a = b := by
  have hkind : a.kind = b.kind := by rw [← kindOfText_text ha, h, kindOfText_text hb]
  cases a with
  | reg r =>
    cases b with
    | reg q => exact congrArg reg (Reg.name_inj ha hb h)
    | _ => simp [kind] at hkind
  | xreg r =>
    cases b with
    | xreg q => exact congrArg xreg (XReg.name_inj h)
    | _ => simp [kind] at hkind
  | imm v =>
    cases b with
    | imm w => exact congrArg imm (Int64.toInt_inj.1 (toString_int_inj.1 h))
    | _ => simp [kind] at hkind
  | fimm v =>
    cases b with
    | fimm w => exact congrArg fimm (UInt64.toNat_inj.1 (markedHex_inj.1 h))
    | _ => simp [kind] at hkind
  | mem m =>
    cases b with
    | mem n => exact congrArg mem (Mem.address_inj ha hb ((String.append_right_inj _).1 h))
    | _ => simp [kind] at hkind
  | absent => cases ha

theorem unbroken_text (h : a.Spelled) : Unbroken a.text := by
  cases a with
  | reg r => exact (Reg.of_name h).1
  | xreg r => exact r.unbroken_name
  | imm v => exact unbroken_int v.toInt
  | fimm bits => exact unbroken_markedHex bits.toNat
  | mem m => exact unbroken_append.2 ⟨by decide, Mem.unbroken_address h⟩
  | absent => cases h

/-- Only the byte of a word in memory has a blank. -/
theorem byteText_inj (ha : a.HasByte) (hb : b.HasByte) (h : a.byteText = b.byteText) : a = b := by
  have hblank : ∀ m : Mem, ' ' ∈ (mem m).byteText.toList := by
    intro m
    rw [show (mem m).byteText = "byte ptr " ++ m.address from rfl, String.toList_append]
    exact List.mem_append_left _ (by decide)
  cases a with
  | reg r =>
    have hr : ' ' ∉ (reg r).byteText.toList := (Reg.of_byteName ha).2
    cases b with
    | reg q => exact congrArg reg (Reg.byteName_inj ha hb h)
    | mem n => exact absurd (hblank n) (h ▸ hr)
    | _ => cases hb
  | mem m =>
    cases b with
    | reg q =>
      have hq : ' ' ∉ (reg q).byteText.toList := (Reg.of_byteName hb).2
      exact absurd (hblank m) (h ▸ hq)
    | mem n => exact congrArg mem (Mem.address_inj ha hb ((String.append_right_inj _).1 h))
    | _ => cases hb
  | _ => cases ha

theorem unbroken_byteText (h : a.HasByte) : Unbroken a.byteText := by
  cases a with
  | reg r => exact (Reg.of_byteName h).1
  | mem m => exact unbroken_append.2 ⟨by decide, Mem.unbroken_address h⟩
  | _ => cases h

end Operand

end ExprBackend
