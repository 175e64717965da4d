import ExprBackend.Proofs.Control
import ExprBackend.Proofs.Footprint
import Std.Data.String.ToNat

/-!
# Labels

Every label in the code of a function is defined once, so that a jump leads to the place of its
label, and every jump in the code of a body leads to a label of that body.
-/

namespace ExprBackend

def labelNames (xs : List Instr) : List String :=
  xs.filterMap fun
    | .label name => some name
    | _ => none

@[simp] theorem labelNames_nil : labelNames [] = [] := rfl

@[simp] theorem labelNames_label (name : String) (xs : List Instr) :
    labelNames (.label name :: xs) = name :: labelNames xs := rfl

theorem labelNames_cons_of_ne {x : Instr} (h : ∀ name, x ≠ .label name) (xs : List Instr) :
    labelNames (x :: xs) = labelNames xs := by
  cases x with
  | label name => exact absurd rfl (h name)
  | _ => rfl

@[simp] theorem labelNames_append (xs ys : List Instr) :
    labelNames (xs ++ ys) = labelNames xs ++ labelNames ys := List.filterMap_append

namespace Code

/-- Each label that stands in the code is known by its place. -/
def Resolves (code : Code) : Prop :=
  ∀ (pc : Nat) (name : String), code.instrs[pc]? = some (.label name) →
    code.labels[name]? = some pc

theorem addLabels_cons_of_ne {x : Instr} (h : ∀ name, x ≠ .label name) (i : Nat)
    (xs : List Instr) (t : Std.TreeMap String Nat) :
    addLabels i (x :: xs) t = addLabels (i + 1) xs t := by
  cases x with
  | label name => exact absurd rfl (h name)
  | _ => rfl

theorem addLabels_of_notMem {name : String} {xs : List Instr} (h : name ∉ labelNames xs) (i : Nat)
    (t : Std.TreeMap String Nat) : (addLabels i xs t)[name]? = t[name]? := by
  induction xs generalizing i t with
  | nil => rfl
  | cons x xs ih =>
    by_cases hx : ∃ other, x = .label other
    · obtain ⟨other, rfl⟩ := hx
      rw [labelNames_label, List.mem_cons, not_or] at h
      rw [addLabels, ih h.2, Std.TreeMap.getElem?_insert, if_neg]
      exact fun heq => h.1 (Std.LawfulEqCmp.compare_eq_iff_eq.1 heq).symm
    · have hne : ∀ other, x ≠ .label other := fun other heq => hx ⟨other, heq⟩
      rw [labelNames_cons_of_ne hne] at h
      rw [addLabels_cons_of_ne hne, ih h]

theorem addLabels_of_getElem? {name : String} {xs : List Instr} (hnodup : (labelNames xs).Nodup)
    {k : Nat} (hk : xs[k]? = some (.label name)) (i : Nat) (t : Std.TreeMap String Nat) :
    (addLabels i xs t)[name]? = some (i + k) := by
  induction xs generalizing i k t with
  | nil => simp at hk
  | cons x xs ih =>
    cases k with
    | zero =>
      obtain rfl : x = .label name := by simpa using hk
      rw [labelNames_label, List.nodup_cons] at hnodup
      rw [addLabels, addLabels_of_notMem hnodup.1, Std.TreeMap.getElem?_insert_self]
      rfl
    | succ k =>
      rw [List.getElem?_cons_succ] at hk
      have hplace : i + 1 + k = i + (k + 1) := by omega
      by_cases hx : ∃ other, x = .label other
      · obtain ⟨other, rfl⟩ := hx
        rw [labelNames_label, List.nodup_cons] at hnodup
        rw [addLabels, ih hnodup.2 hk, hplace]
      · have hne : ∀ other, x ≠ .label other := fun other heq => hx ⟨other, heq⟩
        rw [labelNames_cons_of_ne hne] at hnodup
        rw [addLabels_cons_of_ne hne, ih hnodup hk, hplace]

theorem resolves_ofList {xs : List Instr} (h : (labelNames xs).Nodup) :
    (Code.ofList xs).Resolves := by
  intro pc name hpc
  have hk : xs[pc]? = some (.label name) := by simpa [Code.ofList] using hpc
  rw [Code.ofList, addLabels_of_getElem? h hk, Nat.zero_add]

end Code

def jumpTargets (xs : List Instr) : List String := xs.filterMap Instr.jumpTarget?

@[simp] theorem jumpTargets_append (xs ys : List Instr) :
    jumpTargets (xs ++ ys) = jumpTargets xs ++ jumpTargets ys := List.filterMap_append

section Straight

variable {P : Operand → Prop} {xs : List Instr}

theorem Straight.labelNames (h : Straight P xs) : labelNames xs = [] := by
  rw [ExprBackend.labelNames, List.filterMap_eq_nil_iff]
  intro x hx
  have hplain := (h x hx).1
  cases x with
  | label name => cases hplain
  | _ => rfl

theorem Straight.jumpTargets (h : Straight P xs) : jumpTargets xs = [] := by
  rw [ExprBackend.jumpTargets, List.filterMap_eq_nil_iff]
  intro x hx
  have hplain := (h x hx).1
  cases x with
  | jmp target => cases hplain
  | jcc cond target => cases hplain
  | _ => rfl

end Straight

namespace Codegen

variable {code : List Instr}

/-- The characters of a label without its number, the last one first. -/
def stem (label : String) : List Char := label.toList.reverse.dropWhile Char.isDigit

section Stem

variable {kind : String} {c : Char} {cs : List Char} (hkind : kind.toList.reverse = c :: cs)
  (hc : c.isDigit = false)
include hkind hc

theorem stem_label (func : String) (n : Nat) :
    stem (".L" ++ func ++ kind ++ toString n) = c :: (cs ++ (".L" ++ func).toList.reverse) := by
  have hdigits : ∀ d ∈ (toString n).toList.reverse, d.isDigit = true := by
    intro d hd
    rw [List.mem_reverse, Nat.toString_eq_repr, Nat.toList_repr] at hd
    exact Nat.isDigit_of_mem_toDigits (by decide) (by decide) hd
  rw [stem, String.toList_append, List.reverse_append, List.dropWhile_append_of_pos hdigits,
    String.toList_append (t := kind), List.reverse_append, hkind, List.cons_append,
    List.dropWhile_cons_of_neg (by simp [hc])]

/-- What is in front of the number tells the function, whatever its name ends in. -/
theorem label_inj {f g : String} {j k : Nat} :
    ".L" ++ f ++ kind ++ toString j = ".L" ++ g ++ kind ++ toString k ↔ f = g ∧ j = k := by
  constructor
  · intro h
    have hstem := congrArg stem h
    rw [stem_label hkind hc, stem_label hkind hc, List.cons.injEq, List.append_cancel_left_eq,
      List.reverse_inj, String.toList_inj, String.append_right_inj] at hstem
    obtain rfl := hstem.2
    rw [String.append_right_inj] at h
    exact ⟨rfl, Nat.repr_inj.1 h⟩
  · rintro ⟨rfl, rfl⟩
    rfl

end Stem

theorem elseLabel_inj {f g : String} {j k : Nat} :
    elseLabel f j = elseLabel g k ↔ f = g ∧ j = k := label_inj (c := 'e') rfl rfl

theorem endLabel_inj {f g : String} {j k : Nat} :
    endLabel f j = endLabel g k ↔ f = g ∧ j = k := label_inj (c := 'd') rfl rfl

theorem elseLabel_ne_endLabel (f g : String) (j k : Nat) : elseLabel f j ≠ endLabel g k := by
  intro h
  have hstem := congrArg stem h
  unfold elseLabel endLabel at hstem
  rw [stem_label (c := 'e') rfl rfl, stem_label (c := 'd') rfl rfl, List.cons.injEq] at hstem
  exact absurd hstem.1 (by decide)

/-- Labels of conditions whose numbers lie in a range, each once. -/
structure LabelsIn (func : String) (lo hi : Nat) (names : List String) : Prop where
  nodup : names.Nodup
  number : ∀ name ∈ names, ∃ k, lo ≤ k ∧ k < hi ∧ (name = elseLabel func k ∨ name = endLabel func k)

theorem LabelsIn.nil (func : String) (lo hi : Nat) : LabelsIn func lo hi [] := ⟨by simp, by simp⟩

theorem LabelsIn.append {func : String} {lo mid hi : Nat} {xs ys : List String}
    (hxs : LabelsIn func lo mid xs) (hys : LabelsIn func mid hi ys) (hlo : lo ≤ mid)
    (hhi : mid ≤ hi) : LabelsIn func lo hi (xs ++ ys) := by
  refine ⟨List.nodup_append.2 ⟨hxs.nodup, hys.nodup, fun a ha b hb hab => ?_⟩, fun name hname => ?_⟩
  · obtain ⟨j, _, hj, hname⟩ := hxs.number a ha
    obtain ⟨k, hk, _, hname'⟩ := hys.number b hb
    have hne : j ≠ k := by omega
    rcases hname with h | h <;> rcases hname' with h' | h' <;> rw [hab, h'] at h
    · exact hne (elseLabel_inj.1 h).2.symm
    · exact elseLabel_ne_endLabel func func j k h.symm
    · exact elseLabel_ne_endLabel func func k j h
    · exact hne (endLabel_inj.1 h).2.symm
  · rcases List.mem_append.1 hname with h | h
    · obtain ⟨k, hk, hk', heq⟩ := hxs.number name h
      exact ⟨k, hk, by omega, heq⟩
    · obtain ⟨k, hk, hk', heq⟩ := hys.number name h
      exact ⟨k, by omega, hk', heq⟩

theorem LabelsIn.perm {func : String} {lo hi : Nat} {xs ys : List String}
    (h : LabelsIn func lo hi xs) (hperm : xs.Perm ys) : LabelsIn func lo hi ys :=
  ⟨hperm.nodup_iff.1 h.nodup, fun name hname => h.number name (hperm.mem_iff.2 hname)⟩

theorem labelsIn_pair (func : String) (n : Nat) :
    LabelsIn func n (n + 1) [elseLabel func n, endLabel func n] := by
  refine ⟨by simp [elseLabel_ne_endLabel], fun name hname => ⟨n, Nat.le_refl n, Nat.lt_succ_self n, ?_⟩⟩
  simpa using hname

/-- No operand is ruled out. -/
theorem anywhere : ∀ o ∈ volatile, (fun _ : Operand => True) o := fun _ _ => trivial

theorem labelNames_branchCode (func : String) (n : Nat) (c : Operand) (first second : List Instr) :
    labelNames (branchCode func n c first second) = labelNames first ++
      elseLabel func n :: (labelNames second ++ [endLabel func n]) := by
  have hcond : labelNames (unimm c).1 = [] := (straight_unimm anywhere c).labelNames
  have hcmp (xs : List Instr) : labelNames (.cmp (unimm c).2 (.imm 0) :: xs) = labelNames xs := rfl
  have hjcc (xs : List Instr) : labelNames (.jcc .e (elseLabel func n) :: xs) = labelNames xs := rfl
  have hjmp (xs : List Instr) : labelNames (.jmp (endLabel func n) :: xs) = labelNames xs := rfl
  simp only [branchCode, labelNames_append, labelNames_label, labelNames_nil, List.append_assoc,
    List.cons_append, hcond, hcmp, hjcc, hjmp, List.nil_append]

theorem jumpTargets_branchCode (func : String) (n : Nat) (c : Operand)
    (first second : List Instr) :
    jumpTargets (branchCode func n c first second) = elseLabel func n ::
      (jumpTargets first ++ endLabel func n :: jumpTargets second) := by
  have hcond : jumpTargets (unimm c).1 = [] := (straight_unimm anywhere c).jumpTargets
  have hcmp (xs : List Instr) : jumpTargets (.cmp (unimm c).2 (.imm 0) :: xs) = jumpTargets xs := rfl
  have hjcc (xs : List Instr) : jumpTargets (.jcc .e (elseLabel func n) :: xs) =
    elseLabel func n :: jumpTargets xs := rfl
  have hjmp (xs : List Instr) : jumpTargets (.jmp (endLabel func n) :: xs) =
    endLabel func n :: jumpTargets xs := rfl
  have hlabel (name : String) (xs : List Instr) :
    jumpTargets (.label name :: xs) = jumpTargets xs := rfl
  have hnil : jumpTargets [] = [] := rfl
  simp only [branchCode, jumpTargets_append, List.append_assoc, List.cons_append, hcond, hcmp, hjcc,
    hjmp, hlabel, hnil, List.nil_append, List.append_nil]

theorem labelsIn_branchCode {func : String} {n mid hi : Nat} (c : Operand)
    {first second : List Instr} (hmid : n + 1 ≤ mid) (hhi : mid ≤ hi)
    (hfirst : LabelsIn func (n + 1) mid (labelNames first))
    (hsecond : LabelsIn func mid hi (labelNames second)) :
    LabelsIn func n hi (labelNames (branchCode func n c first second)) := by
  have hall := (labelsIn_pair func n).append (hfirst.append hsecond hmid hhi) (Nat.le_succ n)
    (Nat.le_trans hmid hhi)
  refine hall.perm ?_
  rw [labelNames_branchCode]
  simp only [List.cons_append, List.nil_append]
  refine .trans (.cons _ ?_) List.perm_middle.symm
  rw [← List.append_assoc]
  exact (List.perm_append_singleton _ _).symm

theorem location_branches {asg : Assignment} {name : String} {s s' : Supply}
    {place : Option Operand} (h : location asg name s = .ok (place, s')) :
    s'.branches = s.branches := by
  rcases location_cases h with ⟨_, _, rfl⟩ | ⟨_, _, _, rfl⟩ | ⟨_, _, _, rfl⟩ | ⟨_, _, rfl⟩ <;> rfl

/-- The labels of code that was made with the numbers between two supplies. They are all that the
code jumps to. -/
structure Supply.LabelsOf (func : String) (s s' : Supply) (code : List Instr) : Prop where
  le : s.branches ≤ s'.branches
  labels : LabelsIn func s.branches s'.branches (labelNames code)
  jumps : jumpTargets code ⊆ labelNames code

theorem Supply.labelsOf_straight {func : String} {s : Supply} {P : Operand → Prop}
    (h : Straight P code) : Supply.LabelsOf func s s code where
  le := Nat.le_refl _
  labels := h.labelNames ▸ .nil func _ _
  jumps := by simp [h.jumpTargets]

theorem Supply.labelsOf_nil {func : String} {s : Supply} : Supply.LabelsOf func s s [] :=
  labelsOf_straight (straight_nil (P := fun _ => True))

theorem Supply.LabelsOf.append {func : String} {s s₁ s' : Supply} {xs ys : List Instr}
    (hxs : Supply.LabelsOf func s s₁ xs) (hys : Supply.LabelsOf func s₁ s' ys) :
    Supply.LabelsOf func s s' (xs ++ ys) where
  le := Nat.le_trans hxs.le hys.le
  labels := labelNames_append xs ys ▸ hxs.labels.append hys.labels hxs.le hys.le
  jumps := by
    rw [jumpTargets_append, labelNames_append]
    exact List.append_subset.2 ⟨List.subset_append_of_subset_left _ hxs.jumps,
      List.subset_append_of_subset_right _ hys.jumps⟩

theorem Supply.LabelsOf.branch {func : String} {s s₁ s' : Supply} (c : Operand)
    {first second : List Instr}
    (hfirst : Supply.LabelsOf func { s with branches := s.branches + 1 } s₁ first)
    (hsecond : Supply.LabelsOf func s₁ s' second) :
    Supply.LabelsOf func s s' (branchCode func s.branches c first second) where
  le := Nat.le_trans (Nat.le_of_succ_le hfirst.le) hsecond.le
  labels := labelsIn_branchCode c hfirst.le hsecond.le hfirst.labels hsecond.labels
  jumps := by
    intro target htarget
    rw [jumpTargets_branchCode, List.mem_cons, List.mem_append, List.mem_cons] at htarget
    rw [labelNames_branchCode, List.mem_append, List.mem_cons, List.mem_append, List.mem_singleton]
    rcases htarget with htarget | htarget | htarget | htarget
    · exact Or.inr (Or.inl htarget)
    · exact Or.inl (hfirst.jumps htarget)
    · exact Or.inr (Or.inr (Or.inr htarget))
    · exact Or.inr (Or.inr (Or.inl (hsecond.jumps htarget)))

mutual

theorem statement_labels {func : String} {asg : Assignment} : ∀ (x : Expr) {scope scope' : Scope}
    {dst : Option Operand} {s s' : Supply} {code : List Instr},
    statement func asg x scope dst s = .ok ((code, scope'), s') → Supply.LabelsOf func s s' code
  | .atom x, _, _, _, _, _, _, h => by
    obtain ⟨src, _, hcode, _, rfl⟩ := statement_atom.1 h
    exact Supply.labelsOf_straight (straight_deliver anywhere (fun _ _ => trivial) hcode)
  | .bind name init, _, _, _, s, s', code, h => by
    obtain ⟨place, s₁, hloc⟩ := statement_bind h
    have hstart {code : List Instr} (hlabels : Supply.LabelsOf func s₁ s' code) :
        Supply.LabelsOf func s s' code := by
      have hsame := location_branches hloc
      exact ⟨hsame ▸ hlabels.le, hsame ▸ hlabels.labels, hlabels.jumps⟩
    cases place with
    | none =>
      rw [statement_bind_none hloc] at h
      exact hstart (statement_labels init h)
    | some p =>
      obtain ⟨first, scope₁, last, hinit, hlast, rfl, _⟩ := (statement_bind_some hloc).1 h
      exact (hstart (statement_labels init hinit)).append
        (Supply.labelsOf_straight (straight_deliver anywhere (fun _ _ => trivial) hlast))
  | .unary op x ty, _, _, none, _, _, _, h => by
    obtain ⟨_, _, hx⟩ | ⟨rfl, _, rfl⟩ := statement_unwanted h
    · cases hx
    · exact Supply.labelsOf_nil
  | .unary op x ty, _, _, some d, _, _, _, h => by
    obtain ⟨src, _, hcode, _, rfl⟩ := statement_unary.1 h
    exact Supply.labelsOf_straight (straight_unary anywhere trivial hcode)
  | .binary op l r ty, _, _, none, _, _, _, h => by
    obtain ⟨_, _, hx⟩ | ⟨rfl, _, rfl⟩ := statement_unwanted h
    · cases hx
    · exact Supply.labelsOf_nil
  | .binary op l r ty, _, _, some d, _, _, _, h => by
    obtain ⟨hcode, _, rfl⟩ := statement_binary.1 h
    exact Supply.labelsOf_straight (straight_binary anywhere trivial hcode)
  | .branch cond onTrue none, _, _, none, _, _, _, h => by
    obtain ⟨_, _, hx⟩ | ⟨rfl, _, rfl⟩ := statement_unwanted h
    · cases hx
    · exact Supply.labelsOf_nil
  | .branch cond onTrue (some b), _, _, none, _, _, _, h => by
    obtain ⟨_, _, hx⟩ | ⟨rfl, _, rfl⟩ := statement_unwanted h
    · cases hx
    · exact Supply.labelsOf_nil
  | .branch cond onTrue none, _, _, some d, _, _, _, h => by
    obtain ⟨c, first, s₁, second, _, hfirst, hsecond, rfl, _⟩ := statement_branch.1 h
    obtain ⟨rfl, rfl⟩ := StateT.pure_eq_ok.1 hsecond
    exact (block_labels onTrue hfirst).branch c (Supply.labelsOf_nil)
  | .branch cond onTrue (some b), _, _, some d, _, _, _, h => by
    obtain ⟨c, first, s₁, second, _, hfirst, hsecond, rfl, _⟩ := statement_branch.1 h
    exact (block_labels onTrue hfirst).branch c (block_labels b hsecond)
  | .missing, _, _, _, _, _, _, h => by cases h

theorem block_labels {func : String} {asg : Assignment} : ∀ (xs : List Expr) {scope : Scope}
    {dst : Option Operand} {s s' : Supply} {code : List Instr},
    block func asg xs scope dst s = .ok (code, s') → Supply.LabelsOf func s s' code
  | [], _, _, _, _, _, h => by
    obtain ⟨rfl, rfl⟩ := block_nil.1 h
    exact Supply.labelsOf_nil
  | [x], _, _, _, _, _, h => by
    obtain ⟨scope', hx⟩ := block_single.1 h
    exact statement_labels x hx
  | x :: y :: xs, _, _, _, _, _, h => by
    obtain ⟨first, scope₁, s₁, rest, hx, hrest, rfl⟩ := block_cons.1 h
    exact (statement_labels x hx).append (block_labels (y :: xs) hrest)

end

end Codegen

end ExprBackend
