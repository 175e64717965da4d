import ExprBackend.Proofs.Outcomes
import ExprBackend.Proofs.PoolIndependence
import ExprBackend.Proofs.Workers

/-!
# What comes of a loaded program

A program of described functions is compiled without a fault, and a function of it is refused only
for a part of it that breaks a rule. The units of a program that is compiled need not be usable:
the types of conditions and of branches are not checked, so that code may test a float as an integer
or put a truth value into a float register. It is said exactly for which functions this happens.
-/

namespace ExprBackend

namespace Func

variable {f : Func} {opts : Options}

/-- A loaded function is compiled, or it has a part that breaks a rule. -/
theorem compile_outcome (hf : f.LoaderForm) (hpools : opts.pools.check = .ok ())
    (hdump : opts.dumpExprs = false) :
    (∃ u, f.compile opts = .ok u) ∨
      ∃ v, f.compile opts = .error (.violation f.name v) ∧
        ∃ x ∈ blockParts f.body, Refusal v x := by
  obtain ⟨asg, hasg, hfits⟩ := assignment_ok hf (Pools.accepted_of_check hpools)
  rcases code_outcome hf hfits.suits with ⟨code, hcode, _⟩ | ⟨v, hcode, hcause⟩
  · apply Or.inl
    refine ⟨⟨f, asg, code⟩, ?_⟩
    simp only [compile, hpools, hdump, hasg, Except.mapError, bind, Except.bind, hcode]
    rfl
  · apply Or.inr
    refine ⟨v, ?_, hcause⟩
    simp only [compile, hpools, hdump, hasg, Except.mapError, bind, Except.bind, hcode]
    rfl

end Func

/-- A unit of a program is that of one of its functions. -/
theorem Program.of_mem_units {p : Program} {opts : Options} {units : List CompiledUnit}
    (h : p.compile opts = .ok units) {u : CompiledUnit} (hu : u ∈ units) :
    ∃ f ∈ p.funcs, f.compile opts = .ok u := by
  rw [Program.compile_eq_gather] at h
  obtain ⟨o, ho, rfl⟩ := Except.exists_of_mapM (mapM_of_gather h) hu
  exact List.mem_map.1 ho

/-- A program is compiled without a fault, and a function of it fails only for a part that it has. -/
theorem Program.failure_cause {p : Program} (hp : ∀ f ∈ p.funcs, f.LoaderForm) {opts : Options}
    (hpools : opts.pools.check = .ok ()) (hdump : opts.dumpExprs = false) :
    (∀ e, p.compile opts ≠ .error (.fault e)) ∧
    ∀ f ∈ p.funcs, ∀ e, f.compile opts = .error e →
      ∃ v, e = .violation f.name v ∧ ∃ x ∈ blockParts f.body, Refusal v x := by
  have hfunc (f : Func) (hf : f ∈ p.funcs) (e : CompileError) (h : f.compile opts = .error e) :
      ∃ v, e = .violation f.name v ∧ ∃ x ∈ blockParts f.body, Refusal v x := by
    rcases Func.compile_outcome (hp f hf) hpools hdump with ⟨u, hu⟩ | ⟨v, hv, hcause⟩
    · cases hu.symm.trans h
    · cases hv.symm.trans h
      exact ⟨v, rfl, hcause⟩
  refine ⟨fun e h => ?_, hfunc⟩
  rw [Program.compile_eq_gather] at h
  obtain ⟨f, hf, hfault⟩ := List.mem_map.1 (mem_of_gather_error h)
  obtain ⟨v, hv, _⟩ := hfunc f hf _ hfault
  cases hv

/-- A program of described functions is compiled without a fault, whatever registers there are. A
function of it fails only for a part that it has: a remainder of floats, a negation of a float, or
a condition whose branches end in values of which one is a float and the other is not. -/
theorem Program.compile_refused_only_for_cause (srcs : List Source.Func) (p : Program)
    (hp : Program.ofSource srcs = .ok p) (opts : Options) (hpools : opts.pools.check = .ok ())
    (hdump : opts.dumpExprs = false) :
    (∀ e, p.compile opts ≠ .error (.fault e)) ∧
    ∀ f ∈ p.funcs, ∀ e, f.compile opts = .error e →
      ∃ v, e = .violation f.name v ∧ ∃ x ∈ blockParts f.body, Refusal v x :=
  Program.failure_cause (Program.loaderForm_ofSource hp) hpools hdump

/-- The same for a text. -/
theorem Program.compile_refused_of_parse (text : String) (p : Program)
    (hparse : Program.parse text = .ok p) (opts : Options) (hpools : opts.pools.check = .ok ())
    (hdump : opts.dumpExprs = false) :
    (∀ e, p.compile opts ≠ .error (.fault e)) ∧
    ∀ f ∈ p.funcs, ∀ e, f.compile opts = .error e →
      ∃ v, e = .violation f.name v ∧ ∃ x ∈ blockParts f.body, Refusal v x :=
  Program.failure_cause (Program.loaderForm_parse hparse) hpools hdump

/-- One function for each rule that can be broken. -/
def refusedText : String := "funcs:
- name: rest
  body:
  - op: '%'
    args: [1.5, 1.5]
- name: none
  body:
  - op: '!'
    args: [1.5]
- name: either
  body:
  - if: 1
    then:
    - value: 1.5
    else:
    - value: 1
"

def Func.failure? (opts : Options) (f : Func) : Option CompileError :=
  match f.compile opts with
  | .ok _ => none
  | .error e => some e

theorem Func.compile_eq_error {opts : Options} {f : Func} {e : CompileError}
    (h : f.failure? opts = some e) : f.compile opts = .error e := by
  unfold Func.failure? at h
  split at h
  · cases h
  next e' he =>
    rw [he, Option.some.inj h]

/-- Each of the three rules is broken by a loaded function. -/
theorem Program.compile_refused_only_for_cause_each :
    ∃ p, Program.parse refusedText = .ok p ∧ p.funcs.length = 3 ∧
      (∀ e, p.compile {} ≠ .error (.fault e)) ∧
      ∀ f ∈ p.funcs, ∃ v, f.compile {} = .error (.violation f.name v) ∧
        ∃ x ∈ blockParts f.body, Refusal v x := by
  have hcheck : (Program.parse refusedText).toOption.any (fun p =>
      decide (p.funcs.length = 3) && p.funcs.all fun f => (f.failure? {}).isSome) = true := by
    decide +kernel
  obtain ⟨p, hp, hfuncs⟩ := Program.of_parse hcheck
  rw [Bool.and_eq_true, decide_eq_true_iff, List.all_eq_true] at hfuncs
  obtain ⟨srcs, _, hbuild⟩ := Program.exists_ofSource hp
  obtain ⟨hfault, hcause⟩ := Program.compile_refused_only_for_cause srcs p hbuild {} rfl rfl
  refine ⟨p, hp, hfuncs.1, hfault, fun f hf => ?_⟩
  obtain ⟨e, he⟩ := Option.isSome_iff_exists.1 (hfuncs.2 f hf)
  have hfail := Func.compile_eq_error he
  obtain ⟨v, rfl, hx⟩ := hcause f hf e hfail
  exact ⟨v, hfail, hx⟩

theorem assemble_ok_iff {units : List CompiledUnit} :
    (∃ source, assemble units = .ok source) ↔ ∀ u ∈ units, ∀ x ∈ u.code, x.Printable := by
  have htexts : (∃ texts, units.mapM (fun u => Instr.renderAll u.code) = .ok texts) ↔
      ∀ u ∈ units, ∃ text, Instr.renderAll u.code = .ok text := by
    induction units with
    | nil => exact iff_of_true ⟨_, rfl⟩ (by simp)
    | cons u units ih =>
      rw [List.forall_mem_cons, ← ih]
      simp only [List.mapM_cons, Except.bind_eq_ok]
      constructor
      · rintro ⟨_, text, htext, texts, htexts, _⟩
        exact ⟨⟨text, htext⟩, texts, htexts⟩
      · rintro ⟨⟨text, htext⟩, texts, htexts⟩
        exact ⟨_, text, htext, texts, htexts, rfl⟩
  simp only [Instr.renderAll_ok_iff] at htexts
  rw [← htexts]
  constructor
  · rintro ⟨source, hsource⟩
    obtain ⟨texts, htexts, _⟩ := Except.bind_eq_ok.1 hsource
    exact ⟨texts, htexts⟩
  · rintro ⟨texts, htexts⟩
    exact ⟨_, Except.bind_eq_ok.2 ⟨texts, htexts, rfl⟩⟩

instance (f : Func) (asg : Assignment) : Decidable (f.Usable asg) :=
  inferInstanceAs (Decidable (_ ∧ _))

/-- What the code of a unit of a loaded function depends on. -/
theorem Func.compile_shows {f : Func} (hf : f.LoaderForm) {opts : Options} {u : CompiledUnit}
    (h : f.compile opts = .ok u) :
    Shows u.code (u.func.Usable u.assignment)
      (∀ e ∈ u.func.emitted u.assignment, e.printable = true) := by
  obtain ⟨rfl, hpools, hasg, hcode⟩ := Func.of_compile h
  obtain ⟨asg, hasg', hfits⟩ := Func.assignment_ok hf (Pools.accepted_of_check hpools)
  cases hasg.symm.trans hasg'
  rcases Func.code_outcome hf hfits.suits with ⟨code, hcode', hshows⟩ | ⟨v, hcode', _⟩
  · cases hcode.symm.trans hcode'
    exact hshows
  · cases hcode.symm.trans hcode'

/-- The units of a compiled program are as usable as their functions. -/
theorem Program.units_usable_iff {p : Program} (hp : ∀ f ∈ p.funcs, f.LoaderForm) {opts : Options}
    {units : List CompiledUnit} (hunits : p.compile opts = .ok units) :
    (∀ u ∈ units, (∀ x ∈ u.code, x.Legal) ↔ u.func.Usable u.assignment) ∧
    ((∃ source, assemble units = .ok source) ↔
      ∀ u ∈ units, ∀ e ∈ u.func.emitted u.assignment, e.printable = true) := by
  have hshows (u : CompiledUnit) (hu : u ∈ units) : Shows u.code (u.func.Usable u.assignment)
      (∀ e ∈ u.func.emitted u.assignment, e.printable = true) := by
    obtain ⟨f, hf, hcompile⟩ := Program.of_mem_units hunits hu
    exact Func.compile_shows (hp f hf) hcompile
  constructor
  · intro u hu
    exact (hshows u hu).legal_iff
  · rw [assemble_ok_iff]
    constructor
    · intro h u hu
      exact (hshows u hu).printable_iff.1 (h u hu)
    · intro h u hu
      exact (hshows u hu).printable_iff.2 (h u hu)

/-- The units of a program of described functions that is compiled are legal exactly as far as no
condition whose value is wanted is held as a float, no comparison or negation is put into a float
register, and the frame fits into 32 bits. They have a text exactly if no comparison of integers
and no negation is put into a float register. -/
theorem Program.compiled_usable_iff (srcs : List Source.Func) (p : Program)
    (hp : Program.ofSource srcs = .ok p) (opts : Options) (units : List CompiledUnit)
    (hunits : p.compile opts = .ok units) :
    (∀ u ∈ units, (∀ x ∈ u.code, x.Legal) ↔ u.func.Usable u.assignment) ∧
    ((∃ source, assemble units = .ok source) ↔
      ∀ u ∈ units, ∀ e ∈ u.func.emitted u.assignment, e.printable = true) :=
  Program.units_usable_iff (Program.loaderForm_ofSource hp) hunits

/-- The same for a text. -/
theorem Program.compiled_usable_of_parse (text : String) (p : Program)
    (hparse : Program.parse text = .ok p) (opts : Options) (units : List CompiledUnit)
    (hunits : p.compile opts = .ok units) :
    (∀ u ∈ units, (∀ x ∈ u.code, x.Legal) ↔ u.func.Usable u.assignment) ∧
    ((∃ source, assemble units = .ok source) ↔
      ∀ u ∈ units, ∀ e ∈ u.func.emitted u.assignment, e.printable = true) :=
  Program.units_usable_iff (Program.loaderForm_parse hparse) hunits

/-- A comparison of floats decides between two floats. -/
def largerText : String := "funcs:
- name: larger
  params:
  - name: a
    type: float
  - name: b
    type: float
  body:
  - let: less
    op: <
    args: [a, b]
  - if: less
    then:
    - value: b
    else:
    - value: a
"

theorem Program.compiled_usable_iff_larger :
    ∃ p units, Program.parse largerText = .ok p ∧ p.compile {} = .ok units ∧ units.length = 1 ∧
      (∀ u ∈ units, ∀ x ∈ u.code, x.Legal) ∧ ∃ source, assemble units = .ok source := by
  have hcheck : (Program.parse largerText).toOption.any (fun p => (p.compile {}).toOption.any
      fun units => decide (units.length = 1) && units.all fun u =>
        decide (u.func.Usable u.assignment) &&
          (u.func.emitted u.assignment).all Emitted.printable) = true := by
    decide +kernel
  obtain ⟨p, hp, hunits⟩ := Program.of_parse hcheck
  obtain ⟨units, hunits, hall⟩ := (Option.any_eq_true _ _).1 hunits
  simp only [Bool.and_eq_true, List.all_eq_true, decide_eq_true_eq] at hall
  have hcompile := Except.eq_ok_of_toOption hunits
  obtain ⟨srcs, _, hbuild⟩ := Program.exists_ofSource hp
  obtain ⟨hlegal, hsource⟩ := Program.compiled_usable_iff srcs p hbuild {} units hcompile
  refine ⟨p, units, hp, hcompile, hall.1, fun u hu => (hlegal u hu).2 (hall.2 u hu).1, ?_⟩
  exact hsource.2 fun u hu => (hall.2 u hu).2

/-- A truth value in a branch of a float, and a float as a condition. -/
def unusableText : String := "funcs:
- name: less
  params:
  - name: a
    type: int
  body:
  - if: a
    then:
    - value: 1.5
    else:
    - op: <
      args: [a, 1]
- name: half
  body:
  - if: 1.5
    then:
    - value: 1
    else:
    - value: 2
"

/-- Both functions are compiled. Neither code is legal, and the first has no text. -/
theorem Program.compiled_not_usable :
    ∃ p units, Program.parse unusableText = .ok p ∧ p.compile {} = .ok units ∧ units.length = 2 ∧
      (∀ u ∈ units, ∃ x ∈ u.code, ¬ x.Legal) ∧ assemble units = .error (.byteless "xmm0") := by
  have hcheck : (Program.parse unusableText).toOption.any (fun p => (p.compile {}).toOption.any
      fun units => decide (units.length = 2) &&
        (units.all fun u => u.code.any fun
          | .mov d src => !Machine.encodable d src true
          | _ => false) &&
        match assemble units with
        | .ok _ => false
        | .error e => decide (e = .byteless "xmm0")) = true := by
    decide +kernel
  obtain ⟨p, hp, hunits⟩ := Program.of_parse hcheck
  obtain ⟨units, hunits, hall⟩ := (Option.any_eq_true _ _).1 hunits
  simp only [Bool.and_eq_true, List.all_eq_true, List.any_eq_true, decide_eq_true_eq] at hall
  obtain ⟨⟨hlength, hmoves⟩, hsource⟩ := hall
  refine ⟨p, units, hp, Except.eq_ok_of_toOption hunits, hlength, fun u hu => ?_, ?_⟩
  · obtain ⟨x, hx, hrefused⟩ := hmoves u hu
    refine ⟨x, hx, ?_⟩
    split at hrefused
    · exact Instr.not_legal_mov (Bool.not_eq_true' _ ▸ hrefused)
    · cases hrefused
  · split at hsource
    · cases hsource
    next e he => rw [he, of_decide_eq_true hsource]

end ExprBackend
