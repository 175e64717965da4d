import ExprBackend.Machine.Run
import ExprBackend.Proofs.Move

/-!
# Runs through code

Generated code only jumps forward. A run reaches a later place after at most as many steps as lie
in between, or it fails whatever the number of steps it may take.
-/

namespace ExprBackend

namespace Code

def At (code : Code) (pc : Nat) (xs : List Instr) : Prop :=
  ∃ before after, code.instrs.toList = before ++ (xs ++ after) ∧ before.length = pc

variable {code : Code} {pc : Nat} {x : Instr} {xs ys : List Instr}

theorem At.append_left (h : code.At pc (xs ++ ys)) : code.At pc xs := by
  obtain ⟨before, after, heq, hlen⟩ := h
  exact ⟨before, ys ++ after, by rw [heq, List.append_assoc], hlen⟩

theorem At.append_right (h : code.At pc (xs ++ ys)) : code.At (pc + xs.length) ys := by
  obtain ⟨before, after, heq, rfl⟩ := h
  exact ⟨before ++ xs, after, by rw [heq]; simp, by simp⟩

theorem At.head (h : code.At pc (x :: xs)) : code.instrs[pc]? = some x := by
  obtain ⟨before, after, heq, rfl⟩ := h
  rw [← Array.getElem?_toList, heq]
  simp

theorem At.tail (h : code.At pc (x :: xs)) : code.At (pc + 1) xs := by
  rw [← List.singleton_append] at h
  exact h.append_right

theorem at_ofList (h : xs = ys) : (Code.ofList xs).At 0 ys := ⟨[], [], by simp [Code.ofList, h]⟩

end Code

namespace Machine

/-- A run from one place gets to another that is not before it. -/
def Reaches (code : Code) (pc : Nat) (m : Machine) (pc' : Nat) (m' : Machine) : Prop :=
  ∃ n, pc + n ≤ pc' ∧ (∀ steps, run code (steps + n) pc m = run code steps pc' m') ∧
    ∀ steps < n, ∃ m'', run code steps pc m = .error .stepLimit m''

def Fails (code : Code) (pc : Nat) (m : Machine) : Prop :=
  ∀ steps, ∃ e m', run code steps pc m = .error e m'

variable {code : Code} {pc pc' pc'' : Nat} {m m' m'' : Machine} {x : Instr} {xs ys : List Instr}

theorem Reaches.refl (code : Code) (pc : Nat) (m : Machine) : Reaches code pc m pc m :=
  ⟨0, Nat.le_refl pc, fun _ => rfl, fun _ h => absurd h (Nat.not_lt_zero _)⟩

theorem Reaches.trans (h : Reaches code pc m pc' m') (h' : Reaches code pc' m' pc'' m'') :
    Reaches code pc m pc'' m'' := by
  obtain ⟨n, hn, hrun, hearly⟩ := h
  obtain ⟨k, hk, hrun', hearly'⟩ := h'
  refine ⟨n + k, by omega, fun steps => ?_, fun steps hsteps => ?_⟩
  · rw [Nat.add_comm n k, ← Nat.add_assoc, hrun, hrun']
  · by_cases hlt : steps < n
    · exact hearly steps hlt
    · obtain ⟨d, rfl⟩ := Nat.exists_eq_add_of_le (Nat.le_of_not_lt hlt)
      rw [Nat.add_comm n d, hrun]
      exact hearly' d (by omega)

theorem Reaches.places {p p' : Nat} (h : Reaches code p m p' m') (hp : p = pc) (hp' : p' = pc') :
    Reaches code pc m pc' m' := hp ▸ hp' ▸ h

theorem Reaches.fails (h : Reaches code pc m pc' m') (h' : Fails code pc' m') :
    Fails code pc m := by
  obtain ⟨n, _, hrun, hearly⟩ := h
  intro steps
  by_cases hlt : steps < n
  · obtain ⟨m'', hlimit⟩ := hearly steps hlt
    exact ⟨_, m'', hlimit⟩
  · obtain ⟨d, rfl⟩ := Nat.exists_eq_add_of_le (Nat.le_of_not_lt hlt)
    rw [Nat.add_comm n d, hrun]
    exact h' d

theorem Reaches.run_ok (h : Reaches code pc m pc' m') {steps : Nat}
    (hrun : run code steps pc m = .ok () m'') :
    ∃ steps', run code steps' pc' m' = .ok () m'' := by
  obtain ⟨n, _, hlate, hearly⟩ := h
  by_cases hlt : steps < n
  · obtain ⟨_, hlimit⟩ := hearly steps hlt
    rw [hlimit] at hrun
    cases hrun
  · obtain ⟨d, rfl⟩ := Nat.exists_eq_add_of_le (Nat.le_of_not_lt hlt)
    rw [Nat.add_comm n d, hlate] at hrun
    exact ⟨d, hrun⟩

theorem run_zero (hx : code.instrs[pc]? = some x) :
    run code 0 pc m = .error .stepLimit m := by
  have hlt : (pc : Int) < code.instrs.size := by
    exact_mod_cast (Array.getElem?_eq_some_iff.1 hx).1
  rw [run, if_pos hlt]

theorem run_succ (hx : code.instrs[pc]? = some x) (steps : Nat) :
    run code (steps + 1) pc m = match advance code pc x m with
      | .error e m => .error e m
      | .ok .done m => .ok () m
      | .ok (.at next) m => run code steps next m := by
  have hlt : (pc : Int) < code.instrs.size := by
    exact_mod_cast (Array.getElem?_eq_some_iff.1 hx).1
  have hnonneg : ¬ (pc : Int) < 0 := by omega
  rw [run, if_pos hlt, if_neg hnonneg, Int.toNat_natCast]
  split
  next hnone => cases hnone.symm.trans hx
  next y hy =>
    obtain rfl := Option.some.inj (hy.symm.trans hx)
    rfl

theorem reaches_of_advance (hx : code.instrs[pc]? = some x) (hlt : pc < pc')
    (h : advance code pc x m = .ok (.at pc') m') : Reaches code pc m pc' m' := by
  refine ⟨1, hlt, fun steps => by rw [run_succ hx, h], fun steps hsteps => ?_⟩
  obtain rfl : steps = 0 := by omega
  exact ⟨m, run_zero hx⟩

theorem fails_of_advance {e : RunError} (hx : code.instrs[pc]? = some x)
    (h : advance code pc x m = .error e m') : Fails code pc m := by
  intro steps
  cases steps with
  | zero => exact ⟨_, m, run_zero hx⟩
  | succ steps => exact ⟨e, m', by rw [run_succ hx, h]⟩

/-- An instruction that can be executed does not change the order of execution. -/
theorem advance_of_execute (h : execute x m = .ok () m') :
    advance code pc x m = .ok (.at (pc + 1 : Nat)) m' := by
  have hattempt : attempt pc x (execute x) m = .ok () m' := by rw [attempt, h]
  cases x with
  | ret => cases h
  | jmp t => cases h
  | jcc c t => cases h
  | _ => exact EStateM.bind_of_ok hattempt

theorem advance_of_trap {e : Trap} (h : execute x m = .error e m')
    (he : ∀ y, e ≠ .illegal (.unsupported y)) :
    advance code pc x m = .error (.ofTrap pc x e) m' := by
  have hattempt : attempt pc x (execute x) m = .error (RunError.ofTrap pc x e) m' := by
    rw [attempt, h]
  cases x with
  | ret =>
    cases h
    exact absurd rfl (he _)
  | jmp t =>
    cases h
    exact absurd rfl (he _)
  | jcc c t =>
    cases h
    exact absurd rfl (he _)
  | _ => exact EStateM.bind_of_error hattempt

theorem reaches_of_executeAll (hat : code.At pc xs) (h : executeAll xs m = .ok () m') :
    Reaches code pc m (pc + xs.length) m' := by
  induction xs generalizing pc m with
  | nil =>
    cases h
    exact .refl code pc _
  | cons x xs ih =>
    cases hx : execute x m with
    | error e m₁ =>
      rw [executeAll_cons_error hx] at h
      cases h
    | ok _ m₁ =>
      rw [executeAll_cons hx] at h
      have hrest := ih hat.tail h
      rw [List.length_cons, Nat.add_comm xs.length, ← Nat.add_assoc]
      exact (reaches_of_advance hat.head (Nat.lt_succ_self pc) (advance_of_execute hx)).trans hrest

theorem fails_of_traps (hat : code.At pc xs) (h : Traps xs m) : Fails code pc m := by
  obtain ⟨e, m', h, he⟩ := h
  induction xs generalizing pc m with
  | nil => cases h
  | cons x xs ih =>
    cases hx : execute x m with
    | error e' m₁ =>
      rw [executeAll_cons_error hx] at h
      cases h
      exact fails_of_advance hat.head (advance_of_trap hx he)
    | ok _ m₁ =>
      rw [executeAll_cons hx] at h
      exact (reaches_of_advance hat.head (Nat.lt_succ_self pc)
        (advance_of_execute hx)).fails (ih hat.tail h)

theorem advance_jmp {target : String} (hlabel : code.labels[target]? = some pc') :
    advance code pc (.jmp target) m = .ok (.at pc') m := by
  simp only [advance, jump, hlabel]
  rfl

section Jcc

variable {cond : Cond} {f : Flags} {target : String} (hf : m.flags = some f)
include hf

theorem advance_jcc_taken (ht : cond.test? f = some true)
    (hlabel : code.labels[target]? = some pc') :
    advance code pc (.jcc cond target) m = .ok (.at pc') m := by
  have hattempt : attempt pc (.jcc cond target) (holds cond) m = .ok true m := by
    rw [attempt, holds_ok hf ht]
  refine (EStateM.bind_of_ok hattempt).trans ?_
  simp only [if_true, jump, hlabel]
  rfl

theorem advance_jcc_passed (ht : cond.test? f = some false) :
    advance code pc (.jcc cond target) m = .ok (.at (pc + 1 : Nat)) m := by
  have hattempt : attempt pc (.jcc cond target) (holds cond) m = .ok false m := by
    rw [attempt, holds_ok hf ht]
  exact EStateM.bind_of_ok hattempt

end Jcc

theorem reaches_jmp {target : String} (hat : code.At pc (.jmp target :: xs)) (hlt : pc < pc')
    (hlabel : code.labels[target]? = some pc') : Reaches code pc m pc' m :=
  reaches_of_advance hat.head hlt (advance_jmp hlabel)

theorem reaches_jcc_taken {cond : Cond} {f : Flags} {target : String}
    (hat : code.At pc (.jcc cond target :: xs)) (hlt : pc < pc')
    (hlabel : code.labels[target]? = some pc') (hf : m.flags = some f)
    (ht : cond.test? f = some true) : Reaches code pc m pc' m :=
  reaches_of_advance hat.head hlt (advance_jcc_taken hf ht hlabel)

theorem reaches_jcc_passed {cond : Cond} {f : Flags} {target : String}
    (hat : code.At pc (.jcc cond target :: xs)) (hf : m.flags = some f)
    (ht : cond.test? f = some false) : Reaches code pc m (pc + 1) m :=
  reaches_of_advance hat.head (Nat.lt_succ_self pc) (advance_jcc_passed hf ht)

end Machine

end ExprBackend
