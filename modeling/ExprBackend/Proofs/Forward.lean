import ExprBackend.Proofs.Linking
import ExprBackend.Proofs.Orderly

/-!
# Runs that only go forward

The code of a function never goes back. Whatever the machine holds, a call executes instructions at
ascending places, so that none is executed twice, until it returns at the end of the code or one of
them is refused.
-/

namespace ExprBackend

namespace Machine

/-- A run, and the places of the instructions that it executes in their order. -/
def runLogged (code : Code) :
    Nat → Int → Machine → List Nat × EStateM.Result RunError Machine Unit
  | steps, pc, m =>
    if pc < code.instrs.size then
      match steps with
      | 0 => ([], .error .stepLimit m)
      | steps + 1 =>
        if pc < 0 then ([], .error (.fault (.index pc code.instrs.size)) m)
        else match code.instrs[pc.toNat]? with
          | none => ([], .ok () m)
          | some x =>
            match advance code pc x m with
            | .error e m => ([pc.toNat], .error e m)
            | .ok .done m => ([pc.toNat], .ok () m)
            | .ok (.at next) m =>
              (pc.toNat :: (runLogged code steps next m).1, (runLogged code steps next m).2)
    else ([], .ok () m)

theorem runLogged_snd (code : Code) (steps : Nat) (pc : Int) (m : Machine) :
    (runLogged code steps pc m).2 = run code steps pc m := by
  induction steps generalizing pc m with
  | zero =>
    rw [runLogged, run]
    split <;> rfl
  | succ steps ih =>
    rw [runLogged, run]
    split
    · split
      · rfl
      · cases code.instrs[pc.toNat]? with
        | none => rfl
        | some x =>
          cases hstep : advance code pc x m with
          | error e m' => simp only [hstep]
          | ok next m' =>
            cases next with
            | done => simp only [hstep]
            | «at» next => simpa only [hstep] using ih next m'
    · rfl

/-- From a place on, a run only goes forward. It ends by the return that is the last instruction of
the code, or at an instruction that is refused. -/
inductive Forward (code : Code) : Nat → Machine → Prop where
  | returns {pc : Nat} {m m' : Machine} (hx : code.instrs[pc]? = some .ret)
    (hlast : pc + 1 = code.instrs.size) (h : pop m = .ok callerAddress m') : Forward code pc m
  | refused {pc : Nat} {x : Instr} {why : Trap} {m m' : Machine}
    (hx : code.instrs[pc]? = some x) (h : advance code pc x m = .error (.trap pc x why) m')
    (hwhy : why.isRefusal = true) : Forward code pc m
  | step {pc pc' : Nat} {x : Instr} {m m' : Machine} (hx : code.instrs[pc]? = some x)
    (hlt : pc < pc') (h : advance code pc x m = .ok (.at pc') m') (hrest : Forward code pc' m') :
    Forward code pc m

def EndsAt (code : Code) (last : Nat) (r : EStateM.Result RunError Machine Unit) : Prop :=
  (∃ m', r = .ok () m' ∧ last + 1 = code.instrs.size ∧ code.instrs[last]? = some .ret) ∨
    ∃ x why m', r = .error (.trap last x why) m' ∧ code.instrs[last]? = some x ∧
      why.isRefusal = true

variable {code : Code} {pc pc' : Nat} {m m' : Machine} {x : Instr} {xs : List Instr}

theorem runLogged_succ (hx : code.instrs[pc]? = some x) (steps : Nat) :
    runLogged code (steps + 1) pc m = match advance code pc x m with
      | .error e m => ([pc], .error e m)
      | .ok .done m => ([pc], .ok () m)
      | .ok (.at next) m =>
        (pc :: (runLogged code steps next m).1, (runLogged code steps next m).2) := by
  have hlt : (pc : Int) < code.instrs.size := by
    exact_mod_cast (Array.getElem?_eq_some_iff.1 hx).1
  have hnonneg : ¬ (pc : Int) < 0 := by omega
  rw [runLogged, if_pos hlt, if_neg hnonneg, Int.toNat_natCast]
  split
  next hnone => cases hnone.symm.trans hx
  next y hy =>
    obtain rfl := Option.some.inj (hy.symm.trans hx)
    rfl

/-- The places that a run comes to are ascending, and there is time for all of them. -/
theorem Forward.logged {steps : Nat} (h : Forward code pc m)
    (hsteps : code.instrs.size ≤ pc + steps) :
    ∃ places last r, runLogged code steps pc m = (places, r) ∧ places.Pairwise (· < ·) ∧
      (∀ p ∈ places, pc ≤ p) ∧ pc + places.length ≤ code.instrs.size ∧
      places.getLast? = some last ∧ EndsAt code last r := by
  induction h generalizing steps with
  | @returns pc m m' hx hlast hpop =>
    obtain ⟨k, rfl⟩ : ∃ k, steps = k + 1 := ⟨steps - 1, by omega⟩
    refine ⟨[pc], pc, .ok () m', ?_, by simp, by simp, ?_, rfl, Or.inl ⟨m', rfl, hlast, hx⟩⟩
    · rw [runLogged_succ hx, Codegen.advance_ret hpop]
    · rw [List.length_singleton, hlast]
  | @refused pc x why m m' hx hstep hwhy =>
    have hlt := (Array.getElem?_eq_some_iff.1 hx).1
    obtain ⟨k, rfl⟩ : ∃ k, steps = k + 1 := ⟨steps - 1, by omega⟩
    refine ⟨[pc], pc, .error (.trap pc x why) m', ?_, by simp, by simp, hlt, rfl,
      Or.inr ⟨x, why, m', rfl, hx, hwhy⟩⟩
    rw [runLogged_succ hx, hstep]
  | @step pc pc' x m m' hx hlt hstep _ ih =>
    have hsize := (Array.getElem?_eq_some_iff.1 hx).1
    obtain ⟨k, rfl⟩ : ∃ k, steps = k + 1 := ⟨steps - 1, by omega⟩
    have henough : code.instrs.size ≤ pc' + k := by omega
    obtain ⟨places, last, r, hrun, hsorted, hfrom, hlen, hend, hr⟩ := ih henough
    refine ⟨pc :: places, last, r, ?_, ?_, ?_, ?_, ?_, hr⟩
    · rw [runLogged_succ hx, hstep]
      simp only [hrun]
    · exact List.pairwise_cons.2 ⟨fun p hp => Nat.lt_of_lt_of_le hlt (hfrom p hp), hsorted⟩
    · refine List.forall_mem_cons.2 ⟨Nat.le_refl pc, fun p hp => ?_⟩
      exact Nat.le_trans (Nat.le_of_lt hlt) (hfrom p hp)
    · rw [List.length_cons]
      omega
    · rw [List.getLast?_cons, hend]
      rfl

theorem Forward.place {p : Nat} (h : Forward code p m) (hp : p = pc) : Forward code pc m := hp ▸ h

theorem Forward.of_executeAll (hat : code.At pc xs) (h : executeAll xs m = .ok () m')
    (hrest : Forward code (pc + xs.length) m') : Forward code pc m := by
  induction xs generalizing pc m with
  | nil =>
    cases h
    exact hrest
  | cons x xs ih =>
    cases hx : execute x m with
    | error e m₁ =>
      rw [executeAll_cons_error hx] at h
      cases h
    | ok _ m₁ =>
      rw [executeAll_cons hx] at h
      refine .step hat.head (Nat.lt_succ_self pc) (advance_of_execute hx) (ih hat.tail h ?_)
      exact hrest.place (by rw [List.length_cons]; omega)

theorem Forward.of_execute_error {e : Trap} (hx : code.instrs[pc]? = some x)
    (h : execute x m = .error e m') (he : e.isRefusal = true) : Forward code pc m := by
  have hknown : ∀ y, e ≠ .illegal (.unsupported y) := by
    rintro y rfl
    cases he
  have herror : RunError.ofTrap pc x e = .trap pc x e := by
    cases e with
    | fault f => cases he
    | _ => rfl
  exact .refused hx (herror ▸ advance_of_trap h hknown) he

theorem Forward.of_executeAll_error {e : Trap} (hat : code.At pc xs)
    (h : executeAll xs m = .error e m') (he : e.isRefusal = true) : Forward code pc m := by
  induction xs generalizing pc m with
  | nil => cases h
  | cons x xs ih =>
    cases hx : execute x m with
    | error e' m₁ =>
      rw [executeAll_cons_error hx] at h
      cases h
      exact .of_execute_error hat.head hx he
    | ok _ m₁ =>
      rw [executeAll_cons hx] at h
      exact .step hat.head (Nat.lt_succ_self pc) (advance_of_execute hx) (ih hat.tail h)

theorem Forward.of_label {name : String} (hat : code.At pc (.label name :: xs))
    (h : Forward code (pc + 1) m) : Forward code pc m :=
  .step hat.head (Nat.lt_succ_self pc) (advance_of_execute rfl) h

section Inside

variable {s : Set Cell} {m₀ : Machine}

/-- In a frame with the given base, the instruction writes only cells of a set. -/
def WritesInside (s : Set Cell) (base : Int64) (x : Instr) : Prop :=
  ∀ m : Machine, m.base = base → x.Writes fun o => ∀ c, m.target? o = some c → c ∈ s

variable (hrbp : Cell.rbp ∉ s)
include hrbp

/-- An instruction that settles is refused or execution goes on behind it, and what has changed
since the start is still inside the set. -/
theorem Settles.forward {P : Machine → Prop} (h : Settles P (execute x m))
    (hx : code.instrs[pc]? = some x) (hw : WritesInside s m₀.base x) (hkept : ChangesOnly s m₀ m)
    (hrest : ∀ m', P m' → ChangesOnly s m₀ m' → Forward code (pc + 1) m') : Forward code pc m := by
  rcases h with ⟨_, m', hrun, hP⟩ | ⟨e, m', hrun, he⟩
  · have hstep := changesOnly_of_execute (hw m (hkept.base_eq hrbp)) hrun
    exact .step hx (Nat.lt_succ_self pc) (advance_of_execute hrun)
      (hrest m' hP (hkept.trans hstep))
  · exact .of_execute_error hx hrun he

/-- A divisor gets ready without harm to the sign of the dividend. -/
theorem forward_divisor {r : Operand} (hat : code.At pc (Codegen.unimm r).1)
    (hw : ∀ x ∈ (Codegen.unimm r).1, WritesInside s m₀.base x) (hsign : m.Signed)
    (hkept : ChangesOnly s m₀ m)
    (hrest : ∀ m' : Machine, m'.Signed → ChangesOnly s m₀ m' →
      Forward code (pc + (Codegen.unimm r).1.length) m') : Forward code pc m := by
  cases himm : r.isImm with
  | false =>
    have hunimm : (Codegen.unimm r).1 = [] := by simp [Codegen.unimm, himm]
    rw [hunimm] at hrest
    exact hrest m hsign hkept
  | true =>
    have hunimm : (Codegen.unimm r).1 = [.mov Codegen.scratch r] := by simp [Codegen.unimm, himm]
    rw [hunimm] at hat hw hrest
    exact (settles_mov_scratch hsign himm).forward hrbp hat.head (hw _ (by simp)) hkept hrest

end Inside

end Machine

open Machine Codegen

/-- Orderly code that writes inside a set goes forward to its end. -/
theorem Orderly.forward {code : Code} {pc : Nat} {xs : List Instr} {s : Set Cell} {m₀ m : Machine}
    (h : Orderly xs) (hrbp : Cell.rbp ∉ s) (hres : code.Resolves) (halign : aligned m₀.base = true)
    (hat : code.At pc xs) (hw : ∀ x ∈ xs, WritesInside s m₀.base x) (hkept : ChangesOnly s m₀ m)
    (hrest : ∀ m', ChangesOnly s m₀ m' → Forward code (pc + xs.length) m') :
    Forward code pc m := by
  have haligned {m : Machine} (hkept : ChangesOnly s m₀ m) : aligned m.base = true := by
    rw [hkept.base_eq hrbp, halign]
  induction h generalizing pc m with
  | nil => exact hrest m hkept
  | @steady x xs hx _ ih =>
    obtain ⟨hw, hws⟩ := List.forall_mem_cons.1 hw
    refine (settles_steady (haligned hkept) hx).forward hrbp hat.head hw hkept fun m₁ _ hkept₁ => ?_
    refine ih hat.tail hws hkept₁ fun m₂ hkept₂ => (hrest m₂ hkept₂).place ?_
    rw [List.length_cons]
    omega
  | @compare l r d cond xs hl hr hd hcond _ ih =>
    simp only [setCond, List.cons_append, List.nil_append, List.forall_mem_cons] at hat hw
    obtain ⟨hcmp, hmov, hset, hws⟩ := hw
    have hzero : (Instr.mov d (.imm 0)).isSteady = true := by
      rw [Instr.isSteady, hd]
      rfl
    refine (settles_cmp (haligned hkept) hl hr).forward hrbp hat.head hcmp hkept
      fun m₁ hflags hkept₁ => ?_
    obtain ⟨f, hf⟩ := hflags
    refine (settles_steady (haligned hkept₁) hzero).forward hrbp hat.tail.head hmov hkept₁
      fun m₂ hsame hkept₂ => ?_
    obtain ⟨t, ht⟩ := hcond f
    refine (settles_set (haligned hkept₂) (hsame.trans hf) ht hd).forward hrbp hat.tail.tail.head
      hset hkept₂ fun m₃ _ hkept₃ => ?_
    refine ih hat.tail.tail.tail hws hkept₃ fun m₄ hkept₄ => (hrest m₄ hkept₄).place ?_
    simp only [setCond, List.length_cons, List.cons_append, List.nil_append]
    omega
  | @divide r xs hr _ ih =>
    simp only [List.forall_mem_cons, List.forall_mem_append] at hw
    obtain ⟨hcqo, hbefore, hidiv, hws⟩ := hw
    have hdivisor := hat.tail.append_left
    have hdivision := hat.tail.append_right
    refine settles_cqo.forward hrbp hat.head hcqo hkept fun m₁ hsign₁ hkept₁ => ?_
    refine forward_divisor hrbp hdivisor hbefore hsign₁ hkept₁ fun m₂ hsign₂ hkept₂ => ?_
    refine (settles_idiv (haligned hkept₂) hsign₂ (steady_unimm hr).2).forward hrbp hdivision.head
      hidiv hkept₂ fun m₃ _ hkept₃ => ?_
    refine ih hdivision.tail hws hkept₃ fun m₄ hkept₄ => (hrest m₄ hkept₄).place ?_
    simp only [List.length_cons, List.length_append]
    omega
  | @branch c onFalse behind first second xs hc _ _ _ ihfirst ihsecond ih =>
    simp only [List.forall_mem_cons, List.forall_mem_append] at hw
    obtain ⟨hcmp, _, hwfirst, _, _, hwsecond, _, hws⟩ := hw
    have hjcc := hat.tail
    have hjmp := hjcc.tail.append_right
    have helse := hjmp.tail
    have hend := helse.tail.append_right
    -- both branches go on at the second label
    have hlast (m' : Machine) (hkept' : ChangesOnly s m₀ m') := Forward.of_label hend <|
      ih hend.tail hws hkept' fun m'' hkept'' => (hrest m'' hkept'').place (by
        simp only [List.length_cons, List.length_append]
        omega)
    refine (settles_cmp (haligned hkept) hc rfl).forward hrbp hat.head hcmp hkept
      fun m₁ hflags hkept₁ => ?_
    obtain ⟨f, hf⟩ := hflags
    cases ht : f.eq with
    | true =>
      refine .step hjcc.head ?_ (advance_jcc_taken hf (congrArg some ht) (hres _ _ helse.head)) ?_
      · omega
      · exact .of_label helse (ihsecond helse.tail.append_left hwsecond hkept₁ hlast)
    | false =>
      refine .step hjcc.head (Nat.lt_succ_self _) (advance_jcc_passed hf (congrArg some ht)) ?_
      refine ihfirst hjcc.tail.append_left hwfirst hkept₁ fun m₂ hkept₂ => ?_
      refine .step hjmp.head ?_ (advance_jmp (hres _ _ hend.head)) (hlast m₂ hkept₂)
      omega

namespace Codegen

variable {f : Func} {asg : Assignment} {code : List Instr}

/-- Each jump of a function leads to one label, which is behind it. -/
theorem jump_label (hcode : f.code asg = .ok code) (hasg : asg.UsesFree) {i : Nat} {x : Instr}
    {target : String} (hx : code[i]? = some x) (htarget : x.jumpTarget? = some target) :
    ∃ j, i < j ∧ ∀ k, code[k]? = some (.label target) ↔ k = j := by
  obtain ⟨_, load, scope, ty, body, supply, hload, _, hblock, hall⟩ := code_eq_ok.1 hcode
  have hforward : JumpsForward code := by
    rw [hall, ← List.append_assoc load, epilogue_eq]
    refine .append (jumpsForward_of_none (by simp [Instr.jumpTarget?])) ?_
    refine .append (jumpsForward_of_none fun x hx => (plain_entry x hx).2) ?_
    refine .append (orderly_body hasg hload hblock).jumpsForward ?_
    refine .append (jumpsForward_of_none fun x hx => (plain_restore x hx).2) ?_
    exact jumpsForward_of_none (by simp [Instr.jumpTarget?])
  have hplace (k : Nat) (hk : code[k]? = some (.label target)) :
      (Code.ofList code).labels[target]? = some k :=
    resolves_code hcode k target (by rwa [Code.ofList, List.getElem?_toArray])
  obtain ⟨j, hlt, hj⟩ := hforward.exists_label hx htarget
  refine ⟨j, hlt, fun k => ⟨fun hk => ?_, ?_⟩⟩
  · exact Option.some.inj ((hplace k hk).symm.trans (hplace j hj))
  · rintro rfl
    exact hj

/-- From its label on, the code of a function goes forward. -/
theorem forward_code {m : Machine} (hcode : f.code asg = .ok code) (hasg : asg.UsesFree)
    (hroom : f.Addressable) (hstack : m.Stack [callerAddress])
    (halign : aligned (m.cell .rsp).toInt64 = true) : Forward (.ofList code) 2 m := by
  have hsaved : ∀ r ∈ savedRegs asg, r ∈ Reg.calleeSaved := fun r => savedRegs_calleeSaved
  have hspares : SparesReserved f asg := fun z _ r hr => (hasg.reg hr).2
  obtain ⟨_, load, scope, ty, body, supply, hload, _, hblock, hall⟩ := code_eq_ok.1 hcode
  rw [← List.append_assoc load, epilogue_eq] at hall
  have hparts := (Code.at_ofList hall).append_right
  by_cases hframe : supply.slots.frameSize < 2 ^ 31
  · obtain ⟨m₁, hentry, hopens⟩ :=
      entry_ok hframe hsaved (List.length_filter_le _ Reg.calleeSaved) m
    refine .of_executeAll hparts.append_left hentry ?_
    refine (orderly_body hasg hload hblock).forward Cell.rbp_notMem_workspace (resolves_code hcode)
      (hopens.aligned halign) hparts.append_right.append_left (writes_workspace hload hblock hspares hframe m₁.base)
      (.refl _ m₁) fun m₂ hbody => ?_
    obtain ⟨m₃, m₄, hrestore, hpop, _⟩ :=
      restore_ok hsaved nodup_savedRegs (hopens.caller hstack hbody hframe)
    have hend := hparts.append_right.append_right
    refine .of_executeAll hend.append_left hrestore (.returns hend.append_right.head ?_ hpop)
    simp only [Code.ofList, List.size_toArray, hall, List.length_append, List.length_cons,
      List.length_nil]
    omega
  · obtain ⟨m', hrefused⟩ := entry_refused (Nat.le_of_not_lt hframe) (hroom.frameSize_lt hblock) m
    exact .of_executeAll_error hparts.append_left hrefused rfl

end Codegen

/-- Whatever the machine holds, a call of a function goes forward through its code. Each jump leads
to one label, which is behind it. The instructions that are executed stand at ascending places, and
the last of them is the return at the end of the code or one that is refused. There is no other way
for the call to fail. -/
theorem Func.call_goes_forward (f : Func) (asg : Assignment) (code : List Instr)
    (hcode : f.code asg = .ok code) (hasg : asg.UsesFree) (hroom : f.Addressable) :
    (∀ (i : Nat) (x : Instr) (target : String), code[i]? = some x →
      x.jumpTarget? = some target →
      ∃ j : Nat, i < j ∧ ∀ k : Nat, code[k]? = some (.label target) ↔ k = j) ∧
    ∀ (limit : Int64) (args : List UInt64) (m : Machine), code.length ≤ stepsOf limit →
      ∃ m₁ places last, enter args m = .ok () m₁ ∧
        runLogged (.ofList code) (stepsOf limit) 2 m₁ =
          (places, run (.ofList code) (stepsOf limit) 2 m₁) ∧
        places.Pairwise (· < ·) ∧ places.length ≤ code.length ∧ places.getLast? = some last ∧
        ((∃ r m', call (.ofList code) limit f.name args m = .ok r m' ∧
            last + 1 = code.length ∧ code[last]? = some .ret) ∨
          ∃ x why m', call (.ofList code) limit f.name args m =
              .error (.failed f.name (.trap last x why)) m' ∧
            code[last]? = some x ∧ why.isRefusal = true) := by
  refine ⟨fun i x target hx htarget => jump_label hcode hasg hx htarget,
    fun limit args m hlimit => ?_⟩
  obtain ⟨m₁, henter, hstack, halign⟩ := enter_top args m
  have hsize : (Code.ofList code).instrs.size = code.length := List.size_toArray
  have hget (i : Nat) : (Code.ofList code).instrs[i]? = code[i]? := List.getElem?_toArray
  have henough : (Code.ofList code).instrs.size ≤ 2 + stepsOf limit := by omega
  obtain ⟨places, last, r, hlog, hsorted, _, hlen, hlast, hends⟩ :=
    (forward_code hcode hasg hroom hstack halign).logged henough
  have hrun : run (.ofList code) (stepsOf limit) 2 m₁ = r := by
    rw [← runLogged_snd]
    exact congrArg Prod.snd hlog
  refine ⟨m₁, places, last, henter, hrun ▸ hlog, hsorted, by omega, hlast, ?_⟩
  have hrun : run (.ofList code) (stepsOf limit) (2 : Nat) m₁ = r := hrun
  rcases hends with ⟨m', rfl, hend, hret⟩ | ⟨x, why, m', rfl, hx, hwhy⟩
  · refine Or.inl ⟨⟨m'.r[0].toInt64, m'.x[0]⟩, m', ?_, hsize ▸ hend, hget last ▸ hret⟩
    simp only [call, label_code hcode, henter, hrun]
  · refine Or.inr ⟨x, why, m', ?_, hget last ▸ hx, hwhy⟩
    simp only [call, label_code hcode, henter, hrun]

open CompiledUnit in
/-- A quotient by 3. The other branch is skipped. -/
theorem Func.call_goes_forward_quotient :
    ∃ code m₁ places m', (sixOver "f").code [("x", .reg .rcx)] = .ok code ∧
      enter [3] {} = .ok () m₁ ∧ (runLogged (.ofList code) (stepsOf 0) 2 m₁).1 = places ∧
      places.Pairwise (· < ·) ∧ places.length ≤ code.length ∧
      places.getLast? = some (code.length - 1) ∧
      call (.ofList code) 0 "f" [3] {} = .ok ⟨2, 0⟩ m' := by
  have hvalue : ((sixOver "f").code [("x", .reg .rcx)]).toOption.any (fun code =>
      decide (code.length ≤ stepsOf 0 ∧ (call (.ofList code) 0 "f" [3]).run' {} = some ⟨2, 0⟩)) =
        true := by
    decide +kernel
  obtain ⟨code, hcode, hvalue⟩ := (Option.any_eq_true _ _).1 hvalue
  obtain ⟨hlimit, hvalue⟩ := of_decide_eq_true hvalue
  have hcode := Except.eq_ok_of_toOption hcode
  obtain ⟨_, hcall⟩ := Func.call_goes_forward (sixOver "f") [("x", .reg .rcx)] code hcode
    (by decide) (by decide)
  obtain ⟨m₁, places, last, henter, hlog, hsorted, hlen, hlast, hends⟩ := hcall 0 [3] {} hlimit
  rcases hends with ⟨r, m', hr, hend, _⟩ | ⟨x, why, m', herror, _, _⟩
  · have hr : call (.ofList code) 0 "f" [3] {} = .ok r m' := hr
    obtain rfl := Option.some.inj ((EStateM.run'_ok hr).symm.trans hvalue)
    obtain rfl : last = code.length - 1 := by omega
    exact ⟨code, m₁, places, m', hcode, henter, congrArg Prod.fst hlog, hsorted, hlen, hlast, hr⟩
  · have herror : call (.ofList code) 0 "f" [3] {} = .error (.failed "f" (.trap last x why)) m' :=
      herror
    cases (EStateM.run'_error herror).symm.trans hvalue

end ExprBackend
