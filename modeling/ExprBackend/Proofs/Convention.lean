import ExprBackend.Proofs.Confinement
import ExprBackend.Proofs.Outcomes

/-!
# The calling convention

A call of a well-typed function that returns has handed back the frame pointer and all registers
that belong to the caller, has taken from the stack nothing but the address of the caller, and has
left alone the memory from that address upward. This does not depend on how registers are shared:
whatever the locations of its names, a body works in its own frame and in registers that are free
or that were saved.
-/

namespace ExprBackend

open Machine

namespace Cell

/-- What the body of a function may change: float registers, words of its frame, and registers that
are neither pointers to the stack nor owned by the caller, unless they were saved. -/
def workspace (saved : List Reg) (frame : Nat) (base : Int64) : Set Cell :=
  {c | (∃ i, c = .xreg i) ∨
    (∃ i, c = .reg i ∧ c ≠ .rsp ∧ c ≠ .rbp ∧ ∀ r ∈ Reg.calleeSaved, c = .ofReg r → r ∈ saved) ∨
    ∃ k : Nat, 0 < k ∧ 8 * k ≤ frame ∧ c = .frame base (-(8 * k))}

section Workspace

variable {saved : List Reg} {frame : Nat} {base : Int64}

theorem rsp_notMem_workspace : Cell.rsp ∉ workspace saved frame base := by
  rintro (⟨i, h⟩ | ⟨_, _, h, _⟩ | ⟨k, _, _, h⟩)
  · cases h
  · exact h rfl
  · simp [Cell.frame, Cell.rsp] at h

theorem rbp_notMem_workspace : Cell.rbp ∉ workspace saved frame base := by
  rintro (⟨i, h⟩ | ⟨_, _, _, h, _⟩ | ⟨k, _, _, h⟩)
  · cases h
  · exact h rfl
  · simp [Cell.frame, Cell.rbp] at h

theorem ofReg_notMem_workspace {r : Reg} (hr : r ∈ Reg.calleeSaved) (hsaved : r ∉ saved) :
    Cell.ofReg r ∉ workspace saved frame base := by
  rintro (⟨i, h⟩ | ⟨_, _, _, _, h⟩ | ⟨k, _, _, h⟩)
  · simp [Cell.ofReg] at h
  · exact hsaved (h r hr rfl)
  · simp [Cell.ofReg, Cell.frame] at h

/-- The words of a frame are below the frame pointer. -/
theorem word_notMem_workspace (hframe : frame < 2 ^ 31) {a : Int64}
    (ha : Cell.word a ∉ Cell.below base) : Cell.word a ∉ workspace saved frame base := by
  rintro (⟨i, h⟩ | ⟨_, h, _⟩ | ⟨k, hpos, hk, h⟩)
  · cases h
  · cases h
  · exact ha (Or.inr ⟨-(8 * k), by omega, by omega, h⟩)

theorem frame_notMem_workspace (hframe : frame < 2 ^ 31) {k : Int} (hlow : -2 ^ 40 ≤ k)
    (hhigh : k < 2 ^ 40) (hk : k < -frame ∨ 0 ≤ k) :
    Cell.frame base k ∉ workspace saved frame base := by
  rintro (⟨i, h⟩ | ⟨_, h, _⟩ | ⟨j, hpos, hj, h⟩)
  · cases h
  · cases h
  · rw [Cell.frame_inj (by omega) (by omega) (by omega) (by omega)] at h
    omega

end Workspace

end Cell

namespace Codegen

variable {f : Func} {asg : Assignment} {slots frame : Nat} {o : Operand} {m m' : Machine}

/-- The operands that the code of a function may write: registers that no name is given, and the
places of its names. -/
def Owned (f : Func) (asg : Assignment) (slots : Nat) (o : Operand) : Prop :=
  o ∈ volatile ∨ ∃ z ∈ f.bindings.map Prod.fst, Held asg slots 0 z o

theorem target?_slot {offset : Int} (h : InFrame offset) (m : Machine) :
    m.target? (.mem (.slot offset)) = some (.frame m.base offset) := by
  have hword : (Int32.ofInt offset).toInt64 = Int64.ofInt offset :=
    Int32.toInt64_ofInt h.lower (Int.le_of_lt_add_one h.upper)
  rw [Cell.frame, ← hword]
  rfl

theorem mem_workspace_of_volatile {c : Cell} (ho : o ∈ volatile) (hc : m.target? o = some c)
    (saved : List Reg) (frame : Nat) (base : Int64) : c ∈ Cell.workspace saved frame base := by
  -- general registers that are free of any owner
  have hfree (i : Fin 16) (hi : i ∈ [0, 2, 10, 11]) :
      Cell.reg i ∈ Cell.workspace saved frame base := by
    have hall : ∀ i ∈ ([0, 2, 10, 11] : List (Fin 16)), Cell.reg i ≠ .rsp ∧ Cell.reg i ≠ .rbp ∧
        ∀ r ∈ Reg.calleeSaved, Cell.reg i ≠ .ofReg r := by decide
    obtain ⟨hrsp, hrbp, hcallee⟩ := hall i hi
    exact Or.inr (Or.inl ⟨i, rfl, hrsp, hrbp, fun r hr h => absurd h (hcallee r hr)⟩)
  simp only [volatile, List.mem_cons, List.not_mem_nil, or_false] at ho
  rcases ho with rfl | rfl | rfl | rfl | rfl | rfl | rfl
  · cases hc
    exact hfree 0 (by decide)
  · cases hc
    exact hfree 2 (by decide)
  · cases hc
    exact hfree 10 (by decide)
  · cases hc
    exact hfree 11 (by decide)
  · cases hc
    exact Or.inl ⟨_, rfl⟩
  · cases hc
    exact Or.inl ⟨_, rfl⟩
  · cases hc
    exact Or.inl ⟨_, rfl⟩

theorem mem_savedRegs {z : String} {r : Reg} (hr : r ∈ Reg.calleeSaved)
    (h : asg.find? z = some (.reg r)) : r ∈ savedRegs asg := by
  refine List.mem_filter.2 ⟨hr, List.any_eq_true.2 ⟨(z, .reg r), mem_of_lookup h, ?_⟩⟩
  exact decide_eq_true rfl

/-- No name of a function is given a register that has another purpose. -/
def SparesReserved (f : Func) (asg : Assignment) : Prop :=
  ∀ z ∈ f.bindings.map Prod.fst, ∀ r, asg.find? z = some (.reg r) → r ∉ Reg.reserved

theorem sparesReserved_of_suits (h : asg.Suits f .all) : SparesReserved f asg := by
  intro z hz r hr
  obtain ⟨⟨_, ty⟩, he, rfl⟩ := List.mem_map.1 hz
  obtain ⟨l, hl, hkind⟩ := h.located _ he
  obtain rfl := Option.some.inj (hr.symm.trans hl)
  have hpools : Pools.all.Accepted := Pools.accepted_of_check rfl
  exact (hpools.reg r hkind.2).1

/-- A register that a name is given is no pointer to the stack, and it is saved if the caller owns
it. Slots are words of the frame. -/
theorem mem_workspace_of_held (hspares : SparesReserved f asg) (hslots : 8 * slots ≤ frame)
    (hframe : frame < 2 ^ 31) {z : String} (hz : z ∈ f.bindings.map Prod.fst)
    (h : Held asg slots 0 z o) {c : Cell} (hc : m.target? o = some c) :
    c ∈ Cell.workspace (savedRegs asg) frame m.base := by
  cases h with
  | reg hfind =>
    next r =>
    obtain ⟨i, hi, rfl⟩ := Option.map_eq_some_iff.1 hc
    have hfixed : Cell.reg i ∉ Cell.reserved m.base :=
      Cell.reg_notMem_reserved hi (hspares z hz r hfind)
    refine Or.inr (Or.inl ⟨i, rfl, ?_, ?_, fun r' hr' hcell => ?_⟩)
    · intro hrsp
      exact hfixed (Or.inr (by simp [hrsp, Cell.fixed]))
    · intro hrbp
      exact hfixed (Or.inr (by simp [hrbp, Cell.fixed]))
    · obtain ⟨j, hj⟩ := registerIndex?_calleeSaved hr'
      rw [Cell.ofReg_of_index hj, Cell.reg.injEq] at hcell
      obtain rfl : r = r' := by
        have hnumber : r.number = r'.number := by
          rw [eq_of_registerIndex? hi, eq_of_registerIndex? hj, hcell]
        cases r
        cases r'
        exact congrArg Reg.mk hnumber
      exact mem_savedRegs hr' hfind
  | xreg hfind =>
    obtain ⟨i, _, rfl⟩ := Option.map_eq_some_iff.1 hc
    exact Or.inl ⟨i, rfl⟩
  | slot hpos hk =>
    next k =>
    have hoffset : InFrame (-(8 * k)) := ⟨by omega, by omega, ⟨-k, by omega⟩⟩
    rw [target?_slot hoffset, Option.some.injEq] at hc
    exact Or.inr (Or.inr ⟨k, hpos, by omega, hc.symm⟩)
  | argument hi => exact absurd hi (Nat.not_lt_zero _)

theorem Owned.mem_workspace (h : Owned f asg slots o) (hspares : SparesReserved f asg)
    (hslots : 8 * slots ≤ frame) (hframe : frame < 2 ^ 31) {c : Cell}
    (hc : m.target? o = some c) : c ∈ Cell.workspace (savedRegs asg) frame m.base := by
  rcases h with ho | ⟨z, hz, hheld⟩
  · exact mem_workspace_of_volatile ho hc _ _ _
  · exact mem_workspace_of_held hspares hslots hframe hz hheld hc

section Body

variable {load body : List Instr} {scope : Scope} {ty : Ty} {supply : Supply}
  (hload : loadParams asg 0 f.params [] = .ok (load, scope))
  (hblock : block f.name asg f.body scope (some (resultPlace ty)) {} = .ok (body, supply))
include hload hblock

theorem writes_owned : ∀ x ∈ load ++ body, x.Writes (Owned f asg supply.slots.used) := by
  have hvolatile : ∀ o ∈ volatile, Owned f asg supply.slots.used o := fun o ho => Or.inl ho
  have hparam (p : Param) (hp : p ∈ f.params) : p.name ∈ f.bindings.map Prod.fst :=
    List.mem_map.2 ⟨_, Func.mem_bindings_param hp, rfl⟩
  have hresult : resultPlace ty ∈ volatile := by
    unfold resultPlace
    split
    · simp [volatile]
    · simp [volatile]
  refine List.forall_mem_append.2 ⟨?_, ?_⟩
  · refine (straight_loadParams hvolatile (fun p hp r hr => ?_) (fun p hp r hr => ?_) hload).writes
    · exact Or.inr ⟨p.name, hparam p hp, .reg hr⟩
    · exact Or.inr ⟨p.name, hparam p hp, .xreg hr⟩
  · refine block_writes hvolatile f.body hblock (Nat.le_refl _) ?_ fun z hz o hheld => ?_
    · rintro d ⟨⟩
      exact hvolatile _ hresult
    · refine Or.inr ⟨z, ?_, hheld⟩
      rw [Func.bindings, List.map_append]
      exact List.mem_append_right _ hz

theorem jumps_inside : jumpTargets (load ++ body) ⊆ labelNames (load ++ body) := by
  have hnone : jumpTargets load = [] := (straight_loadParams anywhere (fun _ _ _ _ => trivial)
    (fun _ _ _ _ => trivial) hload).jumpTargets
  rw [jumpTargets_append, labelNames_append, hnone, List.nil_append]
  exact List.subset_append_of_subset_right _ (block_labels f.body hblock).jumps

theorem writes_workspace (hspares : SparesReserved f asg)
    (hframe : supply.slots.frameSize < 2 ^ 31) (base : Int64) :
    ∀ x ∈ load ++ body, ∀ m : Machine, m.base = base → x.Writes fun o => ∀ c,
      m.target? o = some c → c ∈ Cell.workspace (savedRegs asg) supply.slots.frameSize base := by
  have hslots : 8 * supply.slots.used ≤ supply.slots.frameSize := by
    unfold Slots.frameSize
    omega
  intro x hx m hbase
  apply (writes_owned hload hblock x hx).mono
  intro o ho c hc
  exact hbase ▸ ho.mem_workspace hspares hslots hframe hc

/-- A run from the start of a body that ends well comes to the end of the body, and by then the body
has only changed its own cells. -/
theorem run_body {code : Code} {pc steps : Nat} (hres : code.Resolves)
    (hat : code.At pc (load ++ body)) (hspares : SparesReserved f asg)
    (hframe : supply.slots.frameSize < 2 ^ 31) (hrun : run code steps pc m = .ok () m') :
    ∃ steps' m₁,
      ChangesOnly (Cell.workspace (savedRegs asg) supply.slots.frameSize m.base) m m₁ ∧
        run code steps' (pc + (load ++ body).length : Nat) m₁ = .ok () m' :=
  run_leaves (i := 0) hres hat (jumps_inside hload hblock) Cell.rbp_notMem_workspace
    (writes_workspace hload hblock hspares hframe m.base) (Nat.zero_le _) rfl hrun

end Body

theorem entry_refused {name : String} {saved : List Reg} (hlarge : 2 ^ 31 ≤ frame)
    (hframe : frame < 2 ^ 63) (m : Machine) :
    ∃ m', executeAll (entry name frame saved) m =
      .error (.illegal (.wideImmediate (Int64.ofNat frame))) m' := by
  have hwide : fitsImm32 (Int64.ofNat frame) = false := by
    have hint : (Int64.ofNat frame).toInt = frame := Int64.toInt_ofNat_of_lt hframe
    simp only [fitsImm32, Bool.decide_and, Bool.and_eq_false_iff, decide_eq_false_iff_not,
      Int64.le_iff_toInt_le, hint]
    refine Or.inr ?_
    simp
    omega
  have hsub (m : Machine) : execute (.sub (.reg .rsp) (.imm (Int64.ofNat frame))) m =
      .error (.illegal (.wideImmediate (Int64.ofNat frame))) m := by
    simp only [execute, combine, checkOperands, hwide]
    rfl
  have hpos : frame ≠ 0 := by omega
  obtain ⟨m₁, hm₁⟩ : ∃ m₁, m₁ = m.pushed (m.cell .rbp) := ⟨_, rfl⟩
  have hpush : execute (.push .rbp) m = .ok () m₁ := hm₁ ▸ execute_push_ok rfl m
  obtain ⟨m₂, hm₂⟩ : ∃ m₂, m₂ = m₁.setCell .rbp (m₁.cell .rsp) := ⟨_, rfl⟩
  have hmov : execute (.mov (.reg .rbp) (.reg .rsp)) m₁ = .ok () m₂ :=
    hm₂ ▸ execute_mov rfl rfl rfl
  refine ⟨m₂, ?_⟩
  rw [entry, List.append_assoc, if_neg hpos]
  refine (executeAll_cons rfl _).trans ((executeAll_cons hpush _).trans ?_)
  exact (executeAll_cons hmov _).trans (executeAll_cons_error (hsub m₂) _)

theorem entry_traps {name : String} {saved : List Reg} (hlarge : 2 ^ 31 ≤ frame)
    (hframe : frame < 2 ^ 63) (m : Machine) : Traps (entry name frame saved) m := by
  obtain ⟨m', h⟩ := entry_refused hlarge hframe m
  exact ⟨_, m', h, by simp⟩

theorem frame_lt_of_run {code : Code} {pc steps : Nat} {name : String} {saved : List Reg}
    (hat : code.At pc (entry name frame saved)) (hsize : frame < 2 ^ 63)
    (hrun : run code steps pc m = .ok () m') : frame < 2 ^ 31 := by
  by_contra hlarge
  obtain ⟨e, m'', hfails⟩ := fails_of_traps hat (entry_traps (Nat.le_of_not_lt hlarge) hsize m) steps
  cases hfails.symm.trans hrun

/-- Addresses are compared as numbers with a sign: what is below an address is before it. -/
theorem word_ne_frame {a top : Int64} (htop : -2 ^ 62 ≤ top.toInt) (ha : top ≤ a) {k : Int}
    (hlow : -2 ^ 62 ≤ k) (hk : k < 0) : Cell.word a ≠ .frame top k := by
  intro h
  have hsum : a.toInt = top.toInt + k := by
    have hupper := Int64.toInt_lt top
    rw [Cell.word.inj h, Int64.toInt_add, Int64.toInt_ofInt_of_le (by omega) (by omega),
      Int.bmod_eq_of_le (by omega) (by omega)]
  rw [Int64.le_iff_toInt_le] at ha
  omega

/-- What a run of a function leaves as it was, apart from the address of the caller that it takes
from the stack. -/
structure Keeps (m m' : Machine) : Prop where
  rsp : m'.cell .rsp = m.cell .rsp + 8
  rbp : m'.cell .rbp = m.cell .rbp
  registers : ∀ r ∈ Reg.calleeSaved, m'.cell (.ofReg r) = m.cell (.ofReg r)
  memory : ∀ a, (m.cell .rsp).toInt64 ≤ a → m'.cell (.word a) = m.cell (.word a)

/-- A body cannot reach the address of the caller. -/
theorem Opens.caller {m₁ m₂ : Machine} {saved : List Reg} {args : List UInt64}
    (hopens : Opens frame saved m m₁) (hstack : m.Stack (callerAddress :: args))
    (hbody : ChangesOnly (Cell.workspace saved frame m₁.base) m₁ m₂) (hframe : frame < 2 ^ 31) :
    m₂.cell (.frame m₂.base 8) = callerAddress := by
  have hbase : m₂.base = m₁.base := by
    rw [Machine.base, Machine.base, hbody _ Cell.rbp_notMem_workspace]
  rw [hbase, hbody _ (Cell.frame_notMem_workspace hframe (by omega) (by omega) (by omega))]
  exact hopens.word hstack (i := 0) rfl (by omega)

/-- The three parts of a function together: what is pushed at its start is out of reach of its body
and is popped at its end. -/
theorem Opens.keeps {m₁ m₂ : Machine} {saved : List Reg} (hopens : Opens frame saved m m₁)
    (hbody : ChangesOnly (Cell.workspace saved frame m₁.base) m₁ m₂)
    (hcloses : Closes saved m₂ m') (hframe : frame < 2 ^ 31)
    (hsaved : ∀ r ∈ saved, r ∈ Reg.calleeSaved) (hfew : saved.length ≤ 5)
    (htop : -2 ^ 62 ≤ (m.cell .rsp).toInt64.toInt) : Keeps m m' := by
  have hrbp : m₂.cell .rbp = m₁.cell .rbp := hbody _ Cell.rbp_notMem_workspace
  have hbase : m₂.base = m₁.base := by rw [Machine.base, Machine.base, hrbp]
  have hstack : m₂.Stack (saved.reverse.map fun r => m.cell (.ofReg r)) := by
    intro i w hw
    have hi : i < saved.length := by simpa using (List.getElem?_eq_some_iff.1 hw).1
    have hplace : Cell.frame (m₁.cell .rsp).toInt64 (8 * i) =
        .frame m₁.base (-frame - 8 * saved.length + 8 * i) := by
      rw [Cell.frame, Cell.frame, hopens.rsp, Int64.ofInt_add (_ - _), Int64.add_assoc]
    rw [hbody _ Cell.rsp_notMem_workspace, hplace,
      hbody _ (Cell.frame_notMem_workspace hframe (by omega) (by omega) (by omega)), ← hplace]
    exact hopens.stack i w hw
  refine ⟨?_, ?_, fun r hr => ?_, fun a ha => ?_⟩
  · rw [hcloses.rsp, hrbp, hopens.rbp]
    grind
  · rw [hcloses.rbp, hbase,
      hbody _ (Cell.frame_notMem_workspace hframe (by omega) (by omega) (by omega)), hopens.link]
  · by_cases hmem : r ∈ saved
    · exact hcloses.handedBack _ hstack r hmem
    · obtain ⟨hrsp, hrbp, _⟩ := Cell.ofReg_ne hr
      have hother : ∀ r' ∈ saved, Cell.ofReg r ≠ .ofReg r' := fun r' hr' h =>
        hmem (Cell.ofReg_inj hr (hsaved r' hr') h ▸ hr')
      rw [hcloses.same _ hrsp hrbp hother, hbody _ (Cell.ofReg_notMem_workspace hr hmem),
        hopens.offStack (Cell.offStack_ofReg hr) hrbp]
  · have hbelow (k : Int) (hlow : -2 ^ 40 ≤ k) (hk : k ≤ 0) : Cell.word a ≠ .frame m₁.base k := by
      have hshift : k = k - 8 + 8 := by omega
      rw [hopens.base, hshift, Cell.frame_sub]
      exact word_ne_frame htop ha (by omega) (by omega)
    have hnotBelow : Cell.word a ∉ Cell.below m₁.base := by
      rintro (h | ⟨k, hlow, hk, h⟩)
      · cases h
      · exact hbelow k hlow (by omega) h
    rw [hcloses.same _ (by simp [Cell.rsp]) (by simp [Cell.rbp]) fun r _ => by simp [Cell.ofReg],
      hbody _ (Cell.word_notMem_workspace hframe hnotBelow),
      hopens.same _ hnotBelow (hbelow 0 (by omega) (by omega)) (by simp [Cell.rbp])]

/-- A run of the code of a function that ends well keeps to the convention. -/
theorem run_keeps {code : List Instr} (hcode : f.code asg = .ok code) (hf : f.LoaderForm)
    (ht : f.WellTyped) (hroom : 8 * (blockBindings f.body).length + 16 < 2 ^ 63)
    (hsuits : asg.Suits f .all) {args : List UInt64} (hstack : m.Stack (callerAddress :: args))
    (htop : -2 ^ 62 ≤ (m.cell .rsp).toInt64.toInt) {steps : Nat}
    (hrun : run (.ofList code) steps 2 m = .ok () m') : Keeps m m' := by
  have hsaved : ∀ r ∈ savedRegs asg, r ∈ Reg.calleeSaved := fun r => savedRegs_calleeSaved
  have hfew : (savedRegs asg).length ≤ 5 := List.length_filter_le _ Reg.calleeSaved
  obtain ⟨load, scope, ty, body, supply, hload, hty, hblock, _⟩ := Func.parts_ok hf ht hsuits
  have hall : code = [Instr.text, .global f.name] ++ (entry f.name supply.slots.frameSize
      (savedRegs asg) ++ ((load ++ body) ++ epilogue (savedRegs asg))) := by
    rw [List.append_assoc load]
    exact Except.ok.inj (hcode.symm.trans (code_eq_ok.2
      ⟨hf.named, load, scope, ty, body, supply, hload, hty, hblock, rfl⟩))
  have hat := (Code.at_ofList hall).append_right
  have hframe : supply.slots.frameSize < 2 ^ 31 :=
    frame_lt_of_run hat.append_left (frameSize_lt hblock (by omega)) hrun
  obtain ⟨m₁, hentry, hopens⟩ := entry_ok hframe hsaved hfew m
  obtain ⟨steps₁, hrun₁⟩ := (reaches_of_executeAll hat.append_left hentry).run_ok hrun
  obtain ⟨steps₂, m₂, hbody, hrun₂⟩ := run_body hload hblock (resolves_code hcode)
    hat.append_right.append_left (sparesReserved_of_suits hsuits) hframe hrun₁
  have hcaller := hopens.caller hstack hbody hframe
  obtain ⟨_, m₃, m₄, hreach, _, hreturns, hcloses⟩ := epilogue_returns hsaved nodup_savedRegs
    hat.append_right.append_right hcaller
  rcases hreturns.run hreach steps₂ with hend | ⟨_, m₅, hlimit⟩
  · cases hend.symm.trans hrun₂
    exact hopens.keeps hbody hcloses hframe hsaved hfew htop
  · cases hlimit.symm.trans hrun₂

theorem call_eq_ok {code : Code} {limit : Int64} {name : String} {args : List UInt64}
    {r : CallResult} (h : call code limit name args m = .ok r m') :
    ∃ pc m₁, code.labels[name]? = some pc ∧ enter args m = .ok () m₁ ∧
      run code (stepsOf limit) pc m₁ = .ok () m' := by
  unfold call at h
  split at h
  · cases h
  next pc hlabel =>
    split at h
    · cases h
    next m₁ henter =>
      split at h
      · cases h
      next hrun =>
        cases h
        exact ⟨pc, m₁, hlabel, henter, hrun⟩

theorem toInt64_stack (n : Nat) :
    (stackTop - 8 * UInt64.ofNat n).toInt64 = Int64.ofInt (2 ^ 20 - 8 * n) := by
  rw [UInt64.toInt64_sub, UInt64.toInt64_mul, UInt64.toInt64_ofNat', Int64.ofInt_sub,
    Int64.ofInt_mul, Int64.ofInt_eq_ofNat]
  rfl

/-- The place of an argument on the stack of a call. -/
theorem load_argument {caller : UInt64} {args : List UInt64} (hstack : m.Stack (caller :: args))
    (hrsp : m.cell .rsp = stackTop - 8 * UInt64.ofNat (args.length + 1)) {i : Nat} {w : UInt64}
    (hw : args[i]? = some w) :
    m.load (stackTop - 8 * UInt64.ofNat (args.length - i)).toInt64 = w := by
  have hi := (List.getElem?_eq_some_iff.1 hw).1
  have hplace : Cell.word (stackTop - 8 * UInt64.ofNat (args.length - i)).toInt64 =
      .frame (m.cell .rsp).toInt64 (8 * (i + 1 : Nat)) := by
    have hoffset : (2 ^ 20 - 8 * (args.length - i : Nat) : Int) =
        2 ^ 20 - 8 * (args.length + 1 : Nat) + 8 * (i + 1 : Nat) := by omega
    rw [hrsp, toInt64_stack, toInt64_stack, Cell.frame, ← Int64.ofInt_add, hoffset]
  exact (congrArg m.cell hplace).trans (hstack (i + 1) w hw)

end Codegen

/-- All words that a function puts on the stack have addresses of their own. -/
def Func.Addressable (f : Func) : Prop := 8 * f.bindings.length + 16 < 2 ^ 62

instance (f : Func) : Decidable f.Addressable := inferInstanceAs (Decidable (_ < _))

open Codegen

theorem Func.Addressable.frameSize_lt {f : Func} {asg : Assignment} {body : List Instr}
    {scope : Scope} {dst : Option Operand} {supply : Supply} (h : f.Addressable)
    (hblock : block f.name asg f.body scope dst {} = .ok (body, supply)) :
    supply.slots.frameSize < 2 ^ 63 := by
  unfold Func.Addressable at h
  rw [Func.bindings, List.length_append] at h
  exact Codegen.frameSize_lt hblock (by omega)

/-- What a call does: the stack is set up, and from there on the convention is kept. -/
theorem Codegen.call_keeps {f : Func} {asg : Assignment} {code : List Instr}
    (hcode : f.code asg = .ok code) (hf : f.LoaderForm) (ht : f.WellTyped) (hroom : f.Addressable)
    (hsuits : asg.Suits f .all) {args : List UInt64} (hlen : args.length = f.params.length)
    {m m' : Machine} {limit : Int64} {r : CallResult}
    (hcall : call (.ofList code) limit f.name args m = .ok r m') :
    ∃ m₁, enter args m = .ok () m₁ ∧ m₁.Stack (callerAddress :: args) ∧
      m₁.cell .rsp = stackTop - 8 * UInt64.ofNat (args.length + 1) ∧
      (∀ c, c.OffStack → m₁.cell c = m.cell c) ∧ Keeps m₁ m' := by
  have hbindings : f.bindings.length = args.length + (blockBindings f.body).length := by
    rw [Func.bindings, Func.paramTyping, List.length_append, List.length_map, hlen]
  unfold Func.Addressable at hroom
  have hshort : 8 * args.length + 8 < 2 ^ 62 := by omega
  obtain ⟨pc, m₁, hpc, henter, hrun⟩ := call_eq_ok hcall
  obtain rfl := Option.some.inj (hpc.symm.trans (label_code hcode))
  obtain ⟨m₂, henter₂, hstack, hrsp, _, hsame⟩ := enter_ok hshort m
  cases henter.symm.trans henter₂
  have htop : (m₁.cell .rsp).toInt64.toInt = 2 ^ 20 - 8 * (args.length + 1 : Nat) := by
    rw [hrsp, toInt64_stack, Int64.toInt_ofInt_of_le (by omega) (by omega)]
  exact ⟨m₁, henter, hstack, hrsp, hsame,
    run_keeps hcode hf ht (by omega) hsuits hstack (by omega) hrun⟩

/-- A call that returns hands back the registers of its caller and the stack with all arguments on
it, and no word from the address of the caller upward has changed since the call was set up. The
locations only have to be of the right kind. -/
theorem Func.call_keeps_convention (f : Func) (asg : Assignment) (hf : f.LoaderForm)
    (ht : f.WellTyped) (hroom : f.Addressable) (hsuits : asg.Suits f .all) :
    ∃ code, f.code asg = .ok code ∧
      ∀ (args : List UInt64), args.length = f.params.length →
      ∀ (m m' : Machine) (limit : Int64) (r : CallResult),
      call (.ofList code) limit f.name args m = .ok r m' →
        (∀ q ∈ [Reg.rbx, .rbp, .r12, .r13, .r14, .r15], ∀ w,
          getReg q m = .ok w m → getReg q m' = .ok w m') ∧
        getReg .rsp m' = .ok (stackTop - 8 * UInt64.ofNat args.length) m' ∧
        (∀ i w, args[i]? = some w →
          m'.load (stackTop - 8 * UInt64.ofNat (args.length - i)).toInt64 = w) ∧
        ∃ m₁, enter args m = .ok () m₁ ∧
          ∀ a, (stackTop - 8 * UInt64.ofNat (args.length + 1)).toInt64 ≤ a →
            m'.load a = m₁.load a := by
  obtain ⟨code, hcode⟩ := Func.exists_code hf ht hsuits
  refine ⟨code, hcode, fun args hlen m m' limit r hcall => ?_⟩
  obtain ⟨m₁, henter, hstack, hrsp, hsame, hkeeps⟩ := call_keeps hcode hf ht hroom hsuits hlen hcall
  have hmemory (a : Int64) (ha : (stackTop - 8 * UInt64.ofNat (args.length + 1)).toInt64 ≤ a) :
      m'.load a = m₁.load a := hkeeps.memory a (hrsp ▸ ha)
  refine ⟨fun q hq w hw => ?_, ?_, fun i w hw => ?_, m₁, henter, hmemory⟩
  · have howned : ∀ q ∈ [Reg.rbx, .rbp, .r12, .r13, .r14, .r15],
        q = .rbp ∨ q ∈ Reg.calleeSaved := by decide
    obtain rfl | hq := howned q hq
    · have hrbp : m'.cell .rbp = m.cell .rbp :=
        hkeeps.rbp.trans (hsame .rbp (show Cell.rbp ≠ .rsp by decide))
      rw [getReg_ok (r := .rbp) rfl] at hw ⊢
      cases hw
      exact congrArg (EStateM.Result.ok · m') hrbp
    · have hcell := (hkeeps.registers q hq).trans (hsame _ (Cell.offStack_ofReg hq))
      obtain ⟨i, hi⟩ := registerIndex?_calleeSaved hq
      rw [Cell.ofReg_of_index hi] at hcell
      rw [getReg_ok hi] at hw ⊢
      cases hw
      rw [hcell]
  · have hend : m'.cell .rsp = stackTop - 8 * UInt64.ofNat args.length := by
      rw [hkeeps.rsp, hrsp, UInt64.ofNat_add]
      grind
    rw [← hend]
    exact getReg_ok (r := .rsp) rfl m'
  · rw [hmemory _ ?_, load_argument hstack hrsp hw]
    unfold Func.Addressable at hroom
    have hparams : f.params.length ≤ f.bindings.length := by
      rw [Func.bindings, Func.paramTyping, List.length_append, List.length_map]
      exact Nat.le_add_right _ _
    rw [toInt64_stack, toInt64_stack, Int64.le_iff_toInt_le,
      Int64.toInt_ofInt_of_le (by omega) (by omega), Int64.toInt_ofInt_of_le (by omega) (by omega)]
    omega

/-- A product and a sum that are both needed later. -/
def productOrSum : Func where
  name := "product_or_sum"
  params := [⟨"a", .int⟩, ⟨"b", .int⟩]
  body := [
    .bind "p" (.binary .times (.var "a" .int) (.var "b" .int) .int),
    .bind "s" (.binary .plus (.var "p" .int) (.var "a" .int) .int),
    .branch (.var "s" .int) [.binary .minus (.var "s" .int) (.var "p" .int) .int]
      (some [.atom (.var "b" .int)])]

/-- A parameter and the product share a register of the caller, although both are needed at once. -/
theorem Func.call_keeps_convention_shared :
    ∃ code r m', productOrSum.code [("a", .reg .rbx), ("b", .spill), ("p", .reg .rbx),
        ("s", .spill)] = .ok code ∧
      call (.ofList code) 0 "product_or_sum" [3, 5] { r := .replicate 16 9 } = .ok r m' ∧
      getReg .rbx m' = .ok 9 m' ∧ getReg .rsp m' = .ok 0xffff0 m' ∧ m'.load 0xffff0 = 3 ∧
      m'.load 0xffff8 = 5 := by
  obtain ⟨code, hcode, hcall⟩ := Func.call_keeps_convention productOrSum
    [("a", .reg .rbx), ("b", .spill), ("p", .reg .rbx), ("s", .spill)] (by decide) (by decide)
    (by decide) (by decide)
  have hreturns : (productOrSum.code [("a", .reg .rbx), ("b", .spill), ("p", .reg .rbx),
      ("s", .spill)]).toOption.any (fun code => match
        call (.ofList code) 0 "product_or_sum" [3, 5] { r := .replicate 16 9 } with
      | .ok _ _ => true
      | .error _ _ => false) = true := by
    decide +kernel
  rw [hcode] at hreturns
  cases hresult : call (.ofList code) 0 "product_or_sum" [3, 5] { r := .replicate 16 9 } with
  | error e m' => simp [Except.toOption, hresult] at hreturns
  | ok r m' =>
    obtain ⟨hregisters, hrsp, hargs, _⟩ := hcall [3, 5] rfl _ m' 0 r hresult
    exact ⟨code, r, m', hcode, hresult, hregisters .rbx (by decide) 9 rfl, hrsp, hargs 0 3 rfl,
      hargs 1 5 rfl⟩

end ExprBackend
