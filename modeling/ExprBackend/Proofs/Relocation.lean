import ExprBackend.Proofs.Confinement
import ExprBackend.Proofs.Stack

/-!
# Code at another place

Instructions that stand in two codes, in the second one some places further on, do the same in
both as long as their jumps stay among them and they return to the caller outside. Only the places
where traps are reported differ, by the same number.
-/

namespace ExprBackend

/-- The error of a run in code that stands some places further on. -/
def RunError.moved (k : Nat) : RunError → RunError
  | .trap pc x why => .trap (pc + k) x why
  | .stepLimit => .stepLimit
  | .fault f => .fault f

theorem RunError.moved_ofTrap (k pc : Nat) (x : Instr) (why : Trap) :
    (ofTrap pc x why).moved k = ofTrap (pc + k : Nat) x why := by
  cases why <;> rfl

/-- Instructions stand in two codes, in the second one `k` places further on. -/
structure Code.Copied (code code' : Code) (k pc : Nat) (xs : List Instr) : Prop where
  here : code.At pc xs
  there : code'.At (pc + k) xs

section Copied

variable {code code' : Code} {k pc : Nat} {x : Instr} {xs ys : List Instr}

theorem Code.Copied.append_left (h : code.Copied code' k pc (xs ++ ys)) :
    code.Copied code' k pc xs :=
  ⟨h.here.append_left, h.there.append_left⟩

theorem Code.Copied.append_right (h : code.Copied code' k pc (xs ++ ys)) :
    code.Copied code' k (pc + xs.length) ys :=
  ⟨h.here.append_right, Nat.add_right_comm pc k xs.length ▸ h.there.append_right⟩

theorem Code.Copied.tail (h : code.Copied code' k pc (x :: xs)) :
    code.Copied code' k (pc + 1) xs :=
  ⟨h.here.tail, Nat.add_right_comm pc k 1 ▸ h.there.tail⟩

theorem Code.Copied.getElem? (h : code.Copied code' k pc xs) {i : Nat} (hx : xs[i]? = some x) :
    code.instrs[pc + i]? = some x ∧ code'.instrs[pc + i + k]? = some x :=
  ⟨h.here.getElem? hx, Nat.add_right_comm pc k i ▸ h.there.getElem? hx⟩

end Copied

namespace Machine

variable {code code' : Code} {k pc steps : Nat} {m : Machine} {x : Instr} {xs : List Instr}

/-- An instruction in the first code and its copy in the second go on at places that are as far
apart as they are themselves, or they trap in the same way. -/
inductive Alike (k : Nat) :
    EStateM.Result RunError Machine Next → EStateM.Result RunError Machine Next → Prop
  | next (i : Nat) (m : Machine) : Alike k (.ok (.at i) m) (.ok (.at (i + k : Nat)) m)
  | error (e : RunError) (m : Machine) : Alike k (.error e m) (.error (e.moved k) m)

/-- A step at two places, and what follows it. -/
theorem Alike.attempt {α : Type} {step : Exec α} {f f' : α → EStateM RunError Machine Next}
    (h : ∀ a m', step m = .ok a m' → Alike k (f a m') (f' a m')) :
    Alike k ((Machine.attempt pc x step >>= f) m)
      ((Machine.attempt (pc + k : Nat) x step >>= f') m) := by
  cases hstep : step m with
  | ok a m' =>
    have hattempt (pc : Int) : Machine.attempt pc x step m = .ok a m' := by
      rw [Machine.attempt, hstep]
    rw [EStateM.bind_of_ok (hattempt _), EStateM.bind_of_ok (hattempt _)]
    exact h a m' hstep
  | error why m' =>
    have hattempt (pc : Int) : Machine.attempt pc x step m = .error (.ofTrap pc x why) m' := by
      rw [Machine.attempt, hstep]
    rw [EStateM.bind_of_error (hattempt _), EStateM.bind_of_error (hattempt _),
      ← RunError.moved_ofTrap]
    exact .error _ m'

theorem alike_behind (k pc : Nat) (m : Machine) :
    Alike k (.ok (.at (pc + 1)) m) (.ok (.at ((pc + k : Nat) + 1)) m) := by
  have hplace : ((pc + k : Nat) : Int) + 1 = (pc + 1 + k : Nat) := by omega
  rw [hplace]
  exact .next (pc + 1) m

theorem alike_jump {target : String} {i : Nat} (h : code.labels[target]? = some i)
    (h' : code'.labels[target]? = some (i + k)) (m : Machine) :
    Alike k (jump code x target m) (jump code' x target m) := by
  rw [jump, jump, h, h']
  exact .next i m

/-- Both codes know the label that an instruction may jump to. -/
def JumpsAlike (code code' : Code) (k : Nat) (x : Instr) : Prop :=
  ∀ target, x.jumpTarget? = some target →
    ∃ i, code.labels[target]? = some i ∧ code'.labels[target]? = some (i + k)

theorem alike_advance (hret : x ≠ .ret) (hjump : JumpsAlike code code' k x) (pc : Nat)
    (m : Machine) : Alike k (advance code pc x m) (advance code' (pc + k : Nat) x m) := by
  cases x with
  | ret => exact absurd rfl hret
  | jmp target =>
    obtain ⟨i, hi, hi'⟩ := hjump target rfl
    exact alike_jump hi hi' m
  | jcc cond target =>
    obtain ⟨i, hi, hi'⟩ := hjump target rfl
    apply Alike.attempt
    intro taken m' _
    cases taken with
    | true => exact alike_jump hi hi' m'
    | false => exact alike_behind k pc m'
  | _ =>
    apply Alike.attempt
    intro _ m' _
    exact alike_behind k pc m'

/-- A run of so many steps from a place ends as the one from `k` places further on in other code. -/
def TracksFor (code code' : Code) (k steps pc : Nat) (m : Machine) : Prop :=
  run code' steps (pc + k : Nat) m =
    EStateM.adaptExcept (RunError.moved k) (run code steps pc) m

/-- All runs from a place end as those from `k` places further on in other code. -/
def Tracks (code code' : Code) (k pc : Nat) (m : Machine) : Prop :=
  ∀ steps, TracksFor code code' k steps pc m

theorem tracksFor_zero (hx : code.instrs[pc]? = some x) (hx' : code'.instrs[pc + k]? = some x) :
    TracksFor code code' k 0 pc m := by
  rw [TracksFor, run_zero hx', EStateM.adaptExcept_error (run_zero hx)]
  rfl

/-- The step lemma: after one instruction there is a step less to follow. -/
theorem tracksFor_succ (hx : code.instrs[pc]? = some x) (hx' : code'.instrs[pc + k]? = some x)
    (hret : x ≠ .ret) (hjump : JumpsAlike code code' k x)
    (hnext : ∀ (i : Nat) (m' : Machine), advance code pc x m = .ok (.at i) m' →
      TracksFor code code' k steps i m') : TracksFor code code' k (steps + 1) pc m := by
  have hrun := run_succ (m := m) hx steps
  have hrun' := run_succ (m := m) hx' steps
  have halike := alike_advance hret hjump pc m
  generalize hstep : advance code pc x m = r at halike hrun
  generalize advance code' (pc + k : Nat) x m = r' at halike hrun'
  cases halike with
  | next i m' =>
    apply hrun'.trans
    rw [EStateM.adaptExcept_congr hrun]
    exact hnext i m' hstep
  | error e m' => exact hrun'.trans (EStateM.adaptExcept_error hrun _).symm

/-- Instructions without jumps: what comes behind them decides. -/
theorem tracks_executeAll (hplain : ∀ x ∈ xs, x ≠ .ret ∧ x.jumpTarget? = none)
    (hat : code.Copied code' k pc xs)
    (hend : ∀ m', executeAll xs m = .ok () m' → Tracks code code' k (pc + xs.length) m') :
    Tracks code code' k pc m := by
  induction xs generalizing pc m with
  | nil => exact hend m rfl
  | cons x xs ih =>
    obtain ⟨hret, hjump⟩ := hplain x List.mem_cons_self
    have hx := hat.here.head
    have hx' := hat.there.head
    intro steps
    cases steps with
    | zero => exact tracksFor_zero hx hx'
    | succ steps =>
      apply tracksFor_succ hx hx' hret
      · intro target htarget
        cases hjump.symm.trans htarget
      · intro i m' hstep
        obtain ⟨hexecute, hi⟩ := execute_of_advance hret hjump hstep
        obtain rfl : i = pc + 1 := Int.ofNat.inj (Next.at.inj hi)
        apply ih (fun y hy => hplain y (List.mem_cons_of_mem x hy)) hat.tail
        intro m'' hrest
        rw [Nat.add_assoc, Nat.add_comm 1]
        exact hend m'' ((executeAll_cons hexecute xs).trans hrest)

section Stretch

variable {s : Set Cell} {base : Int64} (hres : code.Resolves) (hres' : code'.Resolves)
  (hat : code.Copied code' k pc xs) (hjumps : jumpTargets xs ⊆ labelNames xs)
include hres hres' hat hjumps

/-- A jump in a stretch leads to the same instruction in both codes. -/
theorem jumpsAlike_inside (hx : x ∈ xs) : JumpsAlike code code' k x := by
  intro target htarget
  obtain ⟨j, _, hj⟩ := exists_label_of_mem (hjumps (List.mem_filterMap.2 ⟨x, hx, htarget⟩))
  obtain ⟨hplace, hplace'⟩ := hat.getElem? hj
  exact ⟨pc + j, hres _ _ hplace, hres' _ _ hplace'⟩

/-- A stretch of code that is left only at its end: what comes behind it decides. -/
theorem tracks_stretch (hrbp : Cell.rbp ∉ s)
    (hw : ∀ x ∈ xs, ∀ m : Machine, m.base = base →
      x.Writes fun o => ∀ c, m.target? o = some c → c ∈ s)
    (hbase : m.base = base)
    (hend : ∀ m', ChangesOnly s m m' → Tracks code code' k (pc + xs.length) m') :
    Tracks code code' k pc m := by
  -- jumps may lead anywhere in the stretch, so that the induction is on the number of steps
  have hall (steps : Nat) : ∀ (i : Nat) (m' : Machine), i ≤ xs.length → m'.base = base →
      ChangesOnly s m m' → TracksFor code code' k steps (pc + i) m' := by
    induction steps with
    | zero =>
      intro i m' hi _ hsame
      rcases Nat.eq_or_lt_of_le hi with rfl | hlt
      · exact hend m' hsame 0
      · obtain ⟨hx, hx'⟩ := hat.getElem? (List.getElem?_eq_getElem hlt)
        exact tracksFor_zero hx hx'
    | succ steps ih =>
      intro i m' hi hbase' hsame
      rcases Nat.eq_or_lt_of_le hi with rfl | hlt
      · exact hend m' hsame (steps + 1)
      · obtain ⟨hx, hx'⟩ := hat.getElem? (List.getElem?_eq_getElem hlt)
        have hmem : xs[i] ∈ xs := List.getElem_mem hlt
        have hret : xs[i] ≠ .ret := by
          intro hret
          have hwrites := hw _ hmem m' hbase'
          rw [hret] at hwrites
          exact hwrites
        apply tracksFor_succ hx hx' hret (jumpsAlike_inside hres hres' hat hjumps hmem)
        intro next m'' hstep
        obtain ⟨hsame', hbase'', j, hj, hnext⟩ :=
          advance_inside hres hat.here hjumps hrbp hw hlt hbase' hstep
        obtain rfl : next = pc + j := Int.ofNat.inj (Next.at.inj hnext)
        exact ih j m'' hj hbase'' (hsame.trans hsame')
  intro steps
  exact hall steps 0 m (Nat.zero_le _) hbase (.refl s m)

end Stretch

/-- The return to the caller outside. -/
theorem tracks_ret {m' : Machine} (hx : code.instrs[pc]? = some .ret)
    (hx' : code'.instrs[pc + k]? = some .ret) (h : pop m = .ok callerAddress m') :
    Tracks code code' k pc m := by
  intro steps
  cases steps with
  | zero => exact tracksFor_zero hx hx'
  | succ steps =>
    have hrun : run code (steps + 1) pc m = .ok () m' := by
      rw [run_succ hx, Codegen.advance_ret h]
    rw [TracksFor, EStateM.adaptExcept_ok hrun, run_succ hx', Codegen.advance_ret h]

end Machine

/-- The error of a call of a function that stands some places further on. -/
def CallError.moved (k : Nat) : CallError → CallError
  | .noFunction name => .noFunction name
  | .failed name why => .failed name (why.moved k)

namespace Machine

/-- A call only needs that runs from the label of the function end alike. -/
theorem call_moved {code code' : Code} {k pc : Nat} {name : String}
    (hlabel : code.labels[name]? = some pc) (hlabel' : code'.labels[name]? = some (pc + k))
    (htracks : ∀ m : Machine, m.Stack [callerAddress] → Tracks code code' k pc m) (limit : Int64)
    (args : List UInt64) :
    call code' limit name args =
      EStateM.adaptExcept (CallError.moved k) (call code limit name args) := by
  funext m
  obtain ⟨m₁, henter, hstack, _⟩ := enter_top args m
  have hrun' := htracks m₁ hstack (stepsOf limit)
  cases hrun : run code (stepsOf limit) pc m₁ with
  | ok _ m₂ =>
    rw [TracksFor, EStateM.adaptExcept_ok hrun] at hrun'
    have hcall : call code limit name args m = .ok ⟨m₂.r[0].toInt64, m₂.x[0]⟩ m₂ := by
      simp only [call, hlabel, henter, hrun]
    rw [EStateM.adaptExcept_ok hcall]
    simp only [call, hlabel', henter, hrun']
  | error e m₂ =>
    rw [TracksFor, EStateM.adaptExcept_error hrun] at hrun'
    have hcall : call code limit name args m = .error (.failed name e) m₂ := by
      simp only [call, hlabel, henter, hrun]
    rw [EStateM.adaptExcept_error hcall]
    simp only [call, hlabel', henter, hrun', CallError.moved]

end Machine

end ExprBackend
