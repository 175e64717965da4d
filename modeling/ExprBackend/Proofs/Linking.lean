import ExprBackend.Proofs.Compilation
import ExprBackend.Proofs.Convention
import ExprBackend.Proofs.Relocation

/-!
# Linking

Functions are linked by putting their codes behind one another. No label is defined twice then,
since each label tells the function that it belongs to, and a call of a function does what it does
on the code of that function alone.
-/

namespace ExprBackend

open Machine

namespace Codegen

/-- A label that the code of a function may define. -/
def LabelOf (func label : String) : Prop :=
  label = func ∨ ∃ k, label = elseLabel func k ∨ label = endLabel func k

theorem startsWith_label (func kind : String) (n : Nat) :
    (".L" ++ func ++ kind ++ toString n).startsWith ".L" = true := by
  rw [String.startsWith_string_iff]
  simp only [String.toList_append, List.append_assoc]
  exact List.prefix_append _ _

/-- A label belongs to one function: labels of conditions cannot be names, and what stands in front
of their numbers tells the name. -/
theorem LabelOf.unique {f g label : String} (hf : f.startsWith ".L" = false)
    (hg : g.startsWith ".L" = false) (h : LabelOf f label) (h' : LabelOf g label) : f = g := by
  rcases h with rfl | ⟨j, rfl | rfl⟩
  · rcases h' with h' | ⟨k, rfl | rfl⟩
    · exact h'
    · cases hf.symm.trans (startsWith_label g "_else" k)
    · cases hf.symm.trans (startsWith_label g "_end" k)
  · rcases h' with rfl | ⟨k, h' | h'⟩
    · cases hg.symm.trans (startsWith_label f "_else" j)
    · exact (elseLabel_inj.1 h').1
    · exact absurd h' (elseLabel_ne_endLabel f g j k)
  · rcases h' with rfl | ⟨k, h' | h'⟩
    · cases hg.symm.trans (startsWith_label f "_end" j)
    · exact absurd h'.symm (elseLabel_ne_endLabel g f k j)
    · exact (endLabel_inj.1 h').1

variable {f : Func} {asg : Assignment} {code : List Instr}

theorem labelOf_of_mem (hcode : f.code asg = .ok code) {label : String}
    (h : label ∈ labelNames code) : LabelOf f.name label := by
  obtain ⟨names, n, hnames, hlabels⟩ := labelNames_code hcode
  rw [hnames, List.mem_cons] at h
  rcases h with rfl | h
  · exact Or.inl rfl
  · obtain ⟨k, _, _, hk⟩ := hlabels.number label h
    exact Or.inr ⟨k, hk⟩

theorem plain_entry {name : String} {frame : Nat} {saved : List Reg} :
    ∀ x ∈ entry name frame saved, x ≠ .ret ∧ x.jumpTarget? = none := by
  unfold entry
  split <;> simp [Instr.jumpTarget?]

theorem plain_restore {saved : List Reg} :
    ∀ x ∈ restore saved, x ≠ .ret ∧ x.jumpTarget? = none := by
  rw [restore, List.forall_mem_append]
  simp [Instr.jumpTarget?]

theorem jumpTargets_of_plain {xs : List Instr}
    (h : ∀ x ∈ xs, x ≠ .ret ∧ x.jumpTarget? = none) : jumpTargets xs = [] :=
  List.filterMap_eq_nil_iff.2 fun x hx => (h x hx).2

/-- A function jumps to its own labels only. -/
theorem jumpTargets_code (h : f.code asg = .ok code) : jumpTargets code ⊆ labelNames code := by
  obtain ⟨_, load, scope, ty, body, supply, hload, _, hblock, rfl⟩ := code_eq_ok.1 h
  have hstart : jumpTargets [.text, .global f.name] = [] := rfl
  have hret : jumpTargets [.ret] = [] := rfl
  rw [← List.append_assoc load, epilogue_eq]
  simp only [jumpTargets_append, labelNames_append, hstart, jumpTargets_of_plain plain_entry,
    jumpTargets_of_plain plain_restore, hret, List.nil_append, List.append_nil]
  intro label hlabel
  have hinside := jumps_inside hload hblock
  simp only [jumpTargets_append, labelNames_append] at hinside
  exact List.mem_append_right _ (List.mem_append_right _ (List.mem_append_left _ (hinside hlabel)))

/-- From the label of a function on, its code does the same wherever it stands. -/
theorem tracks_code {own linked : Code} {k : Nat} {m : Machine} (hcode : f.code asg = .ok code)
    (hroom : f.Addressable) (hspares : SparesReserved f asg) (hres : own.Resolves)
    (hres' : linked.Resolves) (hat : own.Copied linked k 0 code)
    (hstack : m.Stack [callerAddress]) : Tracks own linked k 2 m := by
  have hsaved : ∀ r ∈ savedRegs asg, r ∈ Reg.calleeSaved := fun r => savedRegs_calleeSaved
  obtain ⟨_, load, scope, ty, body, supply, hload, _, hblock, hall⟩ := code_eq_ok.1 hcode
  rw [hall, ← List.append_assoc load, epilogue_eq] at hat
  have hparts := hat.append_right
  apply tracks_executeAll plain_entry hparts.append_left
  intro m₁ hentry
  have hframe : supply.slots.frameSize < 2 ^ 31 := by
    by_contra hlarge
    obtain ⟨e, m₂, htrap, _⟩ := entry_traps (Nat.le_of_not_lt hlarge) (hroom.frameSize_lt hblock) m
    cases htrap.symm.trans hentry
  obtain ⟨m₂, hentry₂, hopens⟩ :=
    entry_ok hframe hsaved (List.length_filter_le _ Reg.calleeSaved) m
  cases hentry.symm.trans hentry₂
  apply tracks_stretch hres hres' hparts.append_right.append_left (jumps_inside hload hblock)
    Cell.rbp_notMem_workspace (writes_workspace hload hblock hspares hframe m₁.base) rfl
  intro m₂ hbody
  obtain ⟨m₃, m₄, hrestore, hpop, _⟩ :=
    restore_ok hsaved nodup_savedRegs (hopens.caller hstack hbody hframe)
  have hend := hparts.append_right.append_right
  apply tracks_executeAll plain_restore hend.append_left
  intro m₅ hm₅
  cases hrestore.symm.trans hm₅
  exact tracks_ret hend.append_right.here.head hend.append_right.there.head hpop

end Codegen

open Codegen

theorem labelNames_flatMap {α : Type} (xs : List α) (code : α → List Instr) :
    labelNames (xs.flatMap code) = xs.flatMap fun x => labelNames (code x) :=
  List.filterMap_flatMap

namespace CompiledUnit

variable {u v : CompiledUnit} {units : List CompiledUnit}

def Compiled (u : CompiledUnit) : Prop := ∃ opts, u.func.compile opts = .ok u

theorem Compiled.code (h : u.Compiled) : u.func.code u.assignment = .ok u.code := by
  obtain ⟨opts, hu⟩ := h
  exact (Func.of_compile hu).2.2.2

theorem Compiled.sparesReserved (h : u.Compiled) : SparesReserved u.func u.assignment := by
  obtain ⟨opts, hu⟩ := h
  obtain ⟨_, hcheck, hassign, _⟩ := Func.of_compile hu
  intro z _ r hr
  exact ((Pools.accepted_of_check hcheck).reg r (Func.mem_general_of_assignment hassign hr)).1

theorem disjoint_labelNames (hu : u.Compiled) (hv : v.Compiled)
    (hlocal : u.func.name.startsWith ".L" = false) (hlocal' : v.func.name.startsWith ".L" = false)
    (hne : u.func.name ≠ v.func.name) : (labelNames u.code).Disjoint (labelNames v.code) := by
  intro label hlabel hlabel'
  exact hne ((labelOf_of_mem hu.code hlabel).unique hlocal hlocal' (labelOf_of_mem hv.code hlabel'))

section Link

variable (hcompiled : ∀ u ∈ units, u.Compiled) (hnames : (units.map fun u => u.func.name).Nodup)
  (hlocal : ∀ u ∈ units, u.func.name.startsWith ".L" = false)
include hcompiled hnames hlocal

theorem nodup_labelNames_link : (labelNames (units.flatMap (·.code))).Nodup := by
  rw [labelNames_flatMap, List.nodup_flatMap]
  constructor
  · intro u hu
    exact nodup_labelNames_code (hcompiled u hu).code
  · apply (List.pairwise_map.1 hnames).imp_of_mem
    intro u v hu hv hne
    exact disjoint_labelNames (hcompiled u hu) (hcompiled v hv) (hlocal u hu) (hlocal v hv) hne

theorem call_link {before after : List CompiledUnit} (hunits : units = before ++ u :: after)
    (hroom : u.func.Addressable) (limit : Int64) (args : List UInt64) :
    call (.ofList (units.flatMap (·.code))) limit u.func.name args =
      EStateM.adaptExcept (CallError.moved (before.flatMap (·.code)).length)
        (call (.ofList u.code) limit u.func.name args) := by
  have hu : u.Compiled := hcompiled u (by simp [hunits])
  have hres := resolves_code hu.code
  have hres' := Code.resolves_ofList (nodup_labelNames_link hcompiled hnames hlocal)
  have hcode : units.flatMap (·.code) =
      before.flatMap (·.code) ++ (u.code ++ after.flatMap (·.code)) := by
    rw [hunits, List.flatMap_append, List.flatMap_cons]
  have hat : (Code.ofList u.code).Copied (.ofList (units.flatMap (·.code)))
      (before.flatMap (·.code)).length 0 u.code :=
    ⟨Code.at_ofList rfl, (Code.at_ofList hcode).append_right.append_left⟩
  obtain ⟨hplace, hplace'⟩ := hat.getElem? (getElem?_code hu.code)
  apply call_moved (hres _ _ hplace) (hres' _ _ hplace')
  intro m hstack
  exact tracks_code hu.code hroom hu.sparesReserved hres hres' hat hstack

end Link

/-- Linking functions changes none of them. Their labels stay apart, each jumps to labels of its own
only, and a call returns the same values and leaves the same machine as on the code of the function
alone, or it fails in the same way, at a place that is further on by the code in front. -/
theorem call_unchanged_by_linking
    (hcompiled : ∀ u ∈ units, ∃ opts, u.func.compile opts = .ok u)
    (hnames : (units.map fun u => u.func.name).Nodup)
    (hlocal : ∀ u ∈ units, u.func.name.startsWith ".L" = false)
    (hroom : ∀ u ∈ units, u.func.Addressable) :
    (labelNames (units.flatMap (·.code))).Nodup ∧
      (∀ u ∈ units, jumpTargets u.code ⊆ labelNames u.code) ∧
      ∀ before u after, units = before ++ u :: after →
        ∀ (limit : Int64) (args : List UInt64) (m : Machine),
          call (.ofList (units.flatMap (·.code))) limit u.func.name args m =
            EStateM.adaptExcept (CallError.moved (before.flatMap (·.code)).length)
              (call (.ofList u.code) limit u.func.name args) m := by
  refine ⟨nodup_labelNames_link hcompiled hnames hlocal, ?_, ?_⟩
  · intro u hu
    exact jumpTargets_code (Compiled.code (hcompiled u hu))
  · intro before u after hunits limit args m
    have hu : u ∈ units := by simp [hunits]
    rw [call_link hcompiled hnames hlocal hunits (hroom u hu)]

/-- The quotient of 6 and a number other than 0, under some name. -/
def sixOver (name : String) : Func where
  name := name
  params := [⟨"x", .int⟩]
  body := [.branch (.var "x" .int) [.binary .div (.int 6) (.var "x" .int) .int]
    (some [.atom (.var "x" .int)])]

/-- The name of the second function is the end of a label of the first one. -/
theorem call_unchanged_by_linking_alike :
    ∃ u v, (sixOver "f").compile {} = .ok u ∧ (sixOver "f_else0").compile {} = .ok v ∧
      ".Lf_else0" ∈ labelNames u.code ∧ (labelNames (u.code ++ v.code)).Nodup ∧
      (call (.ofList (u.code ++ v.code)) 0 "f_else0" [3]).run' {} = some ⟨2, 0⟩ := by
  have hfirst : ((sixOver "f").compile {}).toOption.any
      (fun u => decide (".Lf_else0" ∈ labelNames u.code)) = true := by
    decide +kernel
  have hsecond : ((sixOver "f_else0").compile {}).toOption.any
      (fun v => decide ((call (.ofList v.code) 0 "f_else0" [3]).run' {} = some ⟨2, 0⟩)) = true := by
    decide +kernel
  obtain ⟨u, hu, hlabel⟩ := (Option.any_eq_true _ _).1 hfirst
  obtain ⟨v, hv, hvalue⟩ := (Option.any_eq_true _ _).1 hsecond
  have hu := Except.eq_ok_of_toOption hu
  have hv := Except.eq_ok_of_toOption hv
  have hufunc : u.func = sixOver "f" := (Func.of_compile hu).1
  have hvfunc : v.func = sixOver "f_else0" := (Func.of_compile hv).1
  have hcompiled : ∀ w ∈ [u, v], ∃ opts, w.func.compile opts = .ok w := by
    rw [List.forall_mem_cons, List.forall_mem_singleton, hufunc, hvfunc]
    exact ⟨⟨_, hu⟩, ⟨_, hv⟩⟩
  have hnames : ([u, v].map fun w => w.func.name).Nodup := by
    rw [List.map_cons, List.map_singleton, hufunc, hvfunc]
    decide
  have hlocal : ∀ w ∈ [u, v], w.func.name.startsWith ".L" = false := by
    rw [List.forall_mem_cons, List.forall_mem_singleton, hufunc, hvfunc]
    decide +kernel
  have hroom : ∀ w ∈ [u, v], w.func.Addressable := by
    rw [List.forall_mem_cons, List.forall_mem_singleton, hufunc, hvfunc]
    decide
  obtain ⟨hnodup, _, hcall⟩ := call_unchanged_by_linking hcompiled hnames hlocal hroom
  have hcode : [u, v].flatMap (·.code) = u.code ++ v.code := by simp
  have hrun := hcall [u] v [] rfl 0 [3] {}
  rw [hcode, hvfunc] at hrun
  rw [hcode] at hnodup
  refine ⟨u, v, hu, hv, of_decide_eq_true hlabel, hnodup, ?_⟩
  rw [← of_decide_eq_true hvalue]
  exact EStateM.run'_adaptExcept hrun

end CompiledUnit

end ExprBackend
