import ExprBackend.Proofs.Effects
import ExprBackend.Proofs.Labels
import ExprBackend.Proofs.Places

/-!
# Runs inside a stretch of code

A stretch of code whose jumps lead to labels of its own is left only at its end, and a run through
it changes only what its instructions write. For the code of statements that is the destination,
the places of the names that are bound and a few registers.
-/

namespace ExprBackend

theorem Instr.Writes.mono {P Q : Operand → Prop} {x : Instr} (h : x.Writes P)
    (hPQ : ∀ o, P o → Q o) : x.Writes Q := by
  cases x with
  | idiv src => exact ⟨hPQ _ h.1, hPQ _ h.2⟩
  | push r => exact h
  | pop r => exact h
  | ret => exact h
  | text => trivial
  | global name => trivial
  | label name => trivial
  | jmp target => trivial
  | jcc cond target => trivial
  | cmp l r => trivial
  | absent => trivial
  | _ => exact hPQ _ h

theorem Straight.writes {P : Operand → Prop} {xs : List Instr} (h : Straight P xs) :
    ∀ x ∈ xs, x.Writes P :=
  fun x hx => (h x hx).2

theorem Code.At.getElem? {code : Code} {pc i : Nat} {x : Instr} {xs : List Instr}
    (h : code.At pc xs) (hx : xs[i]? = some x) : code.instrs[pc + i]? = some x := by
  obtain ⟨before, after, heq, rfl⟩ := h
  have hi := (List.getElem?_eq_some_iff.1 hx).1
  rw [← Array.getElem?_toList, heq, List.getElem?_append_right (Nat.le_add_right _ _),
    Nat.add_sub_cancel_left, List.getElem?_append_left hi, hx]

theorem exists_label_of_mem {name : String} {xs : List Instr} (h : name ∈ labelNames xs) :
    ∃ i : Nat, i < xs.length ∧ xs[i]? = some (.label name) := by
  obtain ⟨x, hx, hname⟩ := List.mem_filterMap.1 h
  obtain ⟨i, hi, rfl⟩ := List.getElem_of_mem hx
  refine ⟨i, hi, ?_⟩
  rw [List.getElem?_eq_getElem hi]
  cases hlabel : xs[i] with
  | label other =>
    rw [hlabel] at hname
    cases hname
    rfl
  | _ =>
    rw [hlabel] at hname
    cases hname

namespace Machine

variable {code : Code} {s : Set Cell} {m m' : Machine}

/-- An instruction that does not change the order of execution completes if a run passes it. -/
theorem execute_of_advance {x : Instr} {pc : Int} {next : Next} (hret : x ≠ .ret)
    (hjump : x.jumpTarget? = none) (h : advance code pc x m = .ok next m') :
    execute x m = .ok () m' ∧ next = .at (pc + 1) := by
  have hplain (hstep : advance code pc x = do attempt pc x (execute x); return .at (pc + 1)) :
      execute x m = .ok () m' ∧ next = .at (pc + 1) := by
    rw [hstep] at h
    obtain ⟨_, m₁, hattempt, hrest⟩ := EStateM.of_bind_ok h
    cases hrest
    exact ⟨of_attempt_ok hattempt, rfl⟩
  cases x with
  | ret => exact absurd rfl hret
  | jmp target => cases hjump
  | jcc cond target => cases hjump
  | _ => exact hplain rfl

/-- An instruction that leaves the stack alone changes what it writes, and execution goes on behind
it or at the label that it may jump to. -/
theorem advance_stays {x : Instr} {pc : Int} {next : Next}
    (hw : x.Writes fun o => ∀ c, m.target? o = some c → c ∈ s)
    (h : advance code pc x m = .ok next m') :
    ChangesOnly s m m' ∧ (next = .at (pc + 1) ∨ ∃ target i, x.jumpTarget? = some target ∧
      code.labels[target]? = some i ∧ next = .at i) := by
  have hlabel {y : Instr} {target : String} (htarget : y.jumpTarget? = some target)
      (h : jump code y target m = .ok next m') : ChangesOnly s m m' ∧ ∃ target i,
        y.jumpTarget? = some target ∧ code.labels[target]? = some i ∧ next = .at i := by
    unfold jump at h
    cases hi : code.labels[target]? with
    | none =>
      rw [hi] at h
      cases h
    | some i =>
      rw [hi] at h
      cases h
      exact ⟨.refl s m, target, i, htarget, hi, rfl⟩
  cases x with
  | ret => exact hw.elim
  | jmp target => exact (hlabel rfl h).imp_right Or.inr
  | jcc cond target =>
    obtain ⟨taken, m₁, hattempt, hrest⟩ := EStateM.of_bind_ok h
    have hlooks : Looks False (holds cond) m := looks_holds cond
    obtain rfl := hlooks.eq_of_ok (of_attempt_ok hattempt)
    cases taken with
    | true => exact (hlabel rfl hrest).imp_right Or.inr
    | false =>
      cases hrest
      exact ⟨.refl s m', Or.inl rfl⟩
  | _ =>
    obtain ⟨hx, hnext⟩ := execute_of_advance (fun heq => by cases heq) rfl h
    exact ⟨changesOnly_of_execute hw hx, Or.inl hnext⟩

section Stretch

variable {pc i : Nat} {xs : List Instr} {base : Int64} (hres : code.Resolves) (hat : code.At pc xs)
  (hjumps : jumpTargets xs ⊆ labelNames xs) (hrbp : Cell.rbp ∉ s)
  (hw : ∀ x ∈ xs, ∀ m : Machine, m.base = base →
    x.Writes fun o => ∀ c, m.target? o = some c → c ∈ s)
include hres hat hjumps hrbp hw

/-- An instruction of a stretch leads to another one or to the end, and it leaves the frame where it
is. -/
theorem advance_inside (hlt : i < xs.length) (hbase : m.base = base) {next : Next}
    (h : advance code (pc + i : Nat) xs[i] m = .ok next m') :
    ChangesOnly s m m' ∧ m'.base = base ∧ ∃ j ≤ xs.length, next = .at (pc + j : Nat) := by
  have hx : xs[i] ∈ xs := List.getElem_mem hlt
  obtain ⟨hsame, hnext⟩ := advance_stays (hw _ hx m hbase) h
  have hbase' : m'.base = base := by rw [Machine.base, hsame _ hrbp, ← Machine.base, hbase]
  refine ⟨hsame, hbase', ?_⟩
  rcases hnext with rfl | ⟨target, k, htarget, hlabel, rfl⟩
  · have hplace : ((pc + i : Nat) : Int) + 1 = (pc + (i + 1) : Nat) := by omega
    exact ⟨i + 1, hlt, by rw [hplace]⟩
  · have hmem : target ∈ labelNames xs := hjumps (List.mem_filterMap.2 ⟨_, hx, htarget⟩)
    obtain ⟨j, hj, hjth⟩ := exists_label_of_mem hmem
    obtain rfl : pc + j = k :=
      Option.some.inj ((hres _ _ (hat.getElem? hjth)).symm.trans hlabel)
    exact ⟨j, Nat.le_of_lt hj, rfl⟩

/-- A run that ends well and starts in a stretch of code comes to the end of the stretch. By then
only cells have changed that its instructions write in a frame with the given base. -/
theorem run_leaves {steps : Nat} (hi : i ≤ xs.length) (hbase : m.base = base)
    (h : run code steps (pc + i : Nat) m = .ok () m') :
    ∃ steps' m₁, ChangesOnly s m m₁ ∧ run code steps' (pc + xs.length : Nat) m₁ = .ok () m' := by
  -- jumps may lead anywhere in the stretch, so that the induction is on the number of steps
  induction steps generalizing i m with
  | zero =>
    rcases Nat.eq_or_lt_of_le hi with rfl | hlt
    · exact ⟨0, m, .refl s m, h⟩
    · rw [run_zero (hat.getElem? (List.getElem?_eq_getElem hlt))] at h
      cases h
  | succ steps ih =>
    rcases Nat.eq_or_lt_of_le hi with rfl | hlt
    · exact ⟨steps + 1, m, .refl s m, h⟩
    · rw [run_succ (hat.getElem? (List.getElem?_eq_getElem hlt))] at h
      cases hstep : advance code (pc + i : Nat) xs[i] m with
      | error e m₁ =>
        rw [hstep] at h
        cases h
      | ok next m₁ =>
        obtain ⟨hsame, hbase₁, j, hj, rfl⟩ :=
          advance_inside hres hat hjumps hrbp hw hlt hbase hstep
        rw [hstep] at h
        obtain ⟨steps', m₂, hsame₂, hrun⟩ := ih hj hbase₁ h
        exact ⟨steps', m₂, hsame.trans hsame₂, hrun⟩

end Stretch

end Machine

namespace Codegen

theorem writes_branchCode {P : Operand → Prop} (hP : ∀ o ∈ volatile, P o) (func : String) (n : Nat)
    (c : Operand) {first second : List Instr} (hfirst : ∀ x ∈ first, x.Writes P)
    (hsecond : ∀ x ∈ second, x.Writes P) :
    ∀ x ∈ branchCode func n c first second, x.Writes P := by
  simp only [branchCode, List.forall_mem_append, List.forall_mem_cons]
  exact ⟨⟨⟨(straight_unimm hP c).writes, trivial, trivial, hfirst⟩, trivial, trivial, hsecond⟩,
    trivial, List.forall_mem_nil _⟩

section Writes

variable {P : Operand → Prop} {func : String} {asg : Assignment} {slots : Nat}

mutual

theorem statement_writes (hP : ∀ o ∈ volatile, P o) : ∀ (x : Expr) {scope scope' : Scope}
    {dst : Option Operand} {s s' : Supply} {code : List Instr},
    statement func asg x scope dst s = .ok ((code, scope'), s') → s'.slots.used ≤ slots →
    (∀ d, dst = some d → P d) →
    (∀ z ∈ x.bindings.map Prod.fst, ∀ o, Held asg slots 0 z o → P o) → ∀ i ∈ code, i.Writes P
  | .atom x, _, _, _, _, _, _, h, _, hdst, _ => by
    obtain ⟨_, _, hcode, _⟩ := statement_atom.1 h
    exact (straight_deliver hP hdst hcode).writes
  | .bind name init, _, _, _, _, s', _, h, hslots, hdst, hplaces => by
    rw [Expr.bindings, List.map_append] at hplaces
    have hinit : ∀ z ∈ init.bindings.map Prod.fst, ∀ o, Held asg slots 0 z o → P o :=
      fun z hz => hplaces z (List.mem_append_left _ hz)
    obtain ⟨place, s₁, hloc⟩ := statement_bind h
    cases place with
    | none =>
      rw [statement_bind_none hloc] at h
      exact statement_writes hP init h hslots hdst hinit
    | some place =>
      obtain ⟨code, _, last, hcode, hlast, rfl, _⟩ := (statement_bind_some hloc).1 h
      have hused : s₁.slots.used ≤ slots := Nat.le_trans (statement_slots init hcode).1 hslots
      have hplace : P place :=
        hplaces name (by simp) place ((location_held hloc 0).mono hused)
      refine List.forall_mem_append.2 ⟨?_, (straight_deliver hP hdst hlast).writes⟩
      refine statement_writes hP init hcode hslots ?_ hinit
      rintro d ⟨⟩
      exact hplace
  | .unary op x ty, _, _, none, _, _, _, h, _, _, _ => by
    obtain ⟨_, _, hx⟩ | ⟨rfl, _⟩ := statement_unwanted h
    · cases hx
    · exact List.forall_mem_nil _
  | .unary op x ty, _, _, some d, _, _, _, h, _, hdst, _ => by
    obtain ⟨_, _, hcode, _⟩ := statement_unary.1 h
    exact (straight_unary hP (hdst d rfl) hcode).writes
  | .binary op l r ty, _, _, none, _, _, _, h, _, _, _ => by
    obtain ⟨_, _, hx⟩ | ⟨rfl, _⟩ := statement_unwanted h
    · cases hx
    · exact List.forall_mem_nil _
  | .binary op l r ty, _, _, some d, _, _, _, h, _, hdst, _ => by
    obtain ⟨hcode, _⟩ := statement_binary.1 h
    exact (straight_binary hP (hdst d rfl) hcode).writes
  | .branch cond onTrue none, _, _, none, _, _, _, h, _, _, _ => by
    obtain ⟨_, _, hx⟩ | ⟨rfl, _⟩ := statement_unwanted h
    · cases hx
    · exact List.forall_mem_nil _
  | .branch cond onTrue (some b), _, _, none, _, _, _, h, _, _, _ => by
    obtain ⟨_, _, hx⟩ | ⟨rfl, _⟩ := statement_unwanted h
    · cases hx
    · exact List.forall_mem_nil _
  | .branch cond onTrue none, _, _, some d, _, _, _, h, hslots, hdst, hplaces => by
    obtain ⟨c, first, _, second, _, hfirst, hsecond, rfl, _⟩ := statement_branch.1 h
    obtain ⟨rfl, rfl⟩ := StateT.pure_eq_ok.1 hsecond
    rw [Expr.bindings] at hplaces
    exact writes_branchCode hP _ _ c (block_writes hP onTrue hfirst hslots hdst hplaces)
      (List.forall_mem_nil _)
  | .branch cond onTrue (some b), _, _, some d, _, _, _, h, hslots, hdst, hplaces => by
    obtain ⟨c, first, s₁, second, _, hfirst, hsecond, rfl, _⟩ := statement_branch.1 h
    rw [Expr.bindings, List.map_append] at hplaces
    have hused : s₁.slots.used ≤ slots := Nat.le_trans (block_slots b hsecond).1 hslots
    exact writes_branchCode hP _ _ c
      (block_writes hP onTrue hfirst hused hdst fun z hz => hplaces z (List.mem_append_left _ hz))
      (block_writes hP b hsecond hslots hdst fun z hz => hplaces z (List.mem_append_right _ hz))
  | .missing, _, _, _, _, _, _, h, _, _, _ => by cases h

theorem block_writes (hP : ∀ o ∈ volatile, P o) : ∀ (xs : List Expr) {scope : Scope}
    {dst : Option Operand} {s s' : Supply} {code : List Instr},
    block func asg xs scope dst s = .ok (code, s') → s'.slots.used ≤ slots →
    (∀ d, dst = some d → P d) →
    (∀ z ∈ (blockBindings xs).map Prod.fst, ∀ o, Held asg slots 0 z o → P o) →
    ∀ i ∈ code, i.Writes P
  | [], _, _, _, _, _, h, _, _, _ => by
    obtain ⟨rfl, _⟩ := block_nil.1 h
    exact List.forall_mem_nil _
  | [x], _, _, _, _, _, h, hslots, hdst, hplaces => by
    obtain ⟨_, hx⟩ := block_single.1 h
    rw [blockBindings, List.map_append] at hplaces
    exact statement_writes hP x hx hslots hdst fun z hz => hplaces z (List.mem_append_left _ hz)
  | x :: y :: xs, _, _, _, _, _, h, hslots, hdst, hplaces => by
    obtain ⟨first, _, s₁, rest, hx, hrest, rfl⟩ := block_cons.1 h
    rw [blockBindings, List.map_append] at hplaces
    have hused : s₁.slots.used ≤ slots := Nat.le_trans (block_slots (y :: xs) hrest).1 hslots
    refine List.forall_mem_append.2 ⟨?_, ?_⟩
    · exact statement_writes hP x hx hused nofun
        fun z hz => hplaces z (List.mem_append_left _ hz)
    · exact block_writes hP (y :: xs) hrest hslots hdst
        fun z hz => hplaces z (List.mem_append_right _ hz)

end

end Writes

end Codegen

end ExprBackend
