import ExprBackend.Proofs.Allocation
import ExprBackend.Proofs.Emission
import ExprBackend.Proofs.IntLowering
import Mathlib.Algebra.Group.Int.Defs
import Mathlib.Algebra.Group.Nat.Defs

/-!
# Where names are held

A name is held in the register that it was given or in a word of the frame: a slot below the frame
pointer or the word in which the caller passed it. None of these cells is used for anything else,
and a new binding gets one that no other name in need of its value has.
-/

namespace ExprBackend

open Machine

/-- Offsets that can be written into an instruction. -/
structure InFrame (offset : Int) : Prop where
  lower : -2 ^ 31 ≤ offset
  upper : offset < 2 ^ 31
  dvd : 8 ∣ offset

def Cell.frame (base : Int64) (offset : Int) : Cell := .word (base + Int64.ofInt offset)

theorem Cell.frame_zero (base : Int64) : Cell.frame base 0 = .word base := by
  rw [Cell.frame, show Int64.ofInt 0 = 0 from rfl, Int64.add_zero]

theorem Cell.frame_inj {base : Int64} {j k : Int} (hj : -2 ^ 62 ≤ j) (hj' : j < 2 ^ 62)
    (hk : -2 ^ 62 ≤ k) (hk' : k < 2 ^ 62) : Cell.frame base j = Cell.frame base k ↔ j = k := by
  constructor
  · intro h
    have heq := congrArg Int64.toInt ((Int64.add_right_inj base).1 (Cell.word.inj h))
    rwa [Int64.toInt_ofInt_of_le (by omega) (by omega),
      Int64.toInt_ofInt_of_le (by omega) (by omega)] at heq
  · rintro rfl
    rfl

theorem InFrame.frame_inj {base : Int64} {j k : Int} (hj : InFrame j) (hk : InFrame k) :
    Cell.frame base j = Cell.frame base k ↔ j = k := by
  have hlower := hj.lower
  have hupper := hj.upper
  have hlower' := hk.lower
  have hupper' := hk.upper
  exact Cell.frame_inj (by omega) (by omega) (by omega) (by omega)

theorem aligned_iff {a : Int64} : aligned a = true ↔ 8 ∣ a.toInt := by
  rw [aligned, decide_eq_true_iff, ← Int64.toInt_inj, Int64.toInt_mod]
  exact (Int.dvd_iff_tmod_eq_zero ..).symm

theorem aligned_add {base : Int64} {offset : Int} (hbase : aligned base = true)
    (h : InFrame offset) : aligned (base + Int64.ofInt offset) = true := by
  have hlower := h.lower
  have hupper := h.upper
  rw [aligned_iff] at hbase ⊢
  rw [Int64.toInt_add, Int64.toInt_ofInt_of_le (by omega) (by omega)]
  have hsum : 8 ∣ base.toInt + offset := Int.dvd_add hbase h.dvd
  have hmod : (base.toInt + offset).bmod (2 ^ 64) % 8 = (base.toInt + offset) % 8 := by
    rw [← Int.emod_emod_of_dvd _ (show (8 : Int) ∣ ((2 ^ 64 : Nat) : Int) by decide),
      Int.bmod_emod, Int.emod_emod_of_dvd _ (by decide)]
  omega

theorem cell?_slot {base : Int64} {offset : Int} (hbase : aligned base = true)
    (h : InFrame offset) : (Operand.mem (.slot offset)).cell? base = some (.frame base offset) := by
  have hword : (Int32.ofInt offset).toInt64 = Int64.ofInt offset :=
    Int32.toInt64_ofInt h.lower (Int.le_of_lt_add_one h.upper)
  simp only [Operand.cell?, Mem.slot, hword, aligned_add hbase h, and_self, if_true, Cell.frame]

namespace Cell

/-- Cells that a function relies on from its start to its end: the stack, the word with the address
of the caller, and the float result. -/
def fixed (base : Int64) : Set Cell := {.rsp, .rbp, .xmm0, .frame base 8}

def reserved (base : Int64) : Set Cell := temporaries ∪ fixed base

end Cell

theorem eq_of_registerIndex? {n : Int} {i : Fin 16} (h : registerIndex? n = some i) :
    n = (i.val : Int) := by
  unfold registerIndex? at h
  split at h
  next hrange =>
    cases h
    exact (Int.toNat_of_nonneg hrange.1).symm
  next => cases h

theorem Cell.reg_notMem_reserved {base : Int64} {r : Reg} {i : Fin 16}
    (hi : registerIndex? r.number = some i) (h : r ∉ Reg.reserved) :
    Cell.reg i ∉ Cell.reserved base := by
  intro hmem
  obtain rfl : r = ⟨i⟩ := by rw [← eq_of_registerIndex? hi]
  simp only [reserved, temporaries, fixed, frame, rax, rdx, rsp, rbp, backup, scratch,
    xmm0, compareScratch, floatScratch, Set.mem_union, Set.mem_insert_iff, Set.mem_singleton_iff,
    Cell.reg.injEq, reduceCtorEq, or_false] at hmem
  rcases hmem with (rfl | rfl | rfl | rfl) | rfl | rfl <;> exact h (by decide)

theorem Cell.xreg_notMem_reserved {base : Int64} {r : XReg} {i : Fin 16}
    (hi : registerIndex? r.number = some i) (h : r ∉ XReg.reserved) :
    Cell.xreg i ∉ Cell.reserved base := by
  intro hmem
  obtain rfl : r = ⟨i⟩ := by rw [← eq_of_registerIndex? hi]
  simp only [reserved, temporaries, fixed, frame, rax, rdx, rsp, rbp, backup, scratch,
    xmm0, compareScratch, floatScratch, Set.mem_union, Set.mem_insert_iff, Set.mem_singleton_iff,
    Cell.xreg.injEq, reduceCtorEq, or_false, false_or] at hmem
  rcases hmem with (rfl | rfl) | rfl <;> exact h (by decide)

theorem Cell.frame_notMem_reserved {base : Int64} {offset : Int} (h : InFrame offset)
    (hne : offset ≠ 8) : Cell.frame base offset ∉ Cell.reserved base := by
  intro hmem
  have h8 : InFrame 8 := ⟨by decide, by decide, by decide⟩
  simp only [reserved, temporaries, fixed, rax, rdx, rsp, rbp, backup, scratch, xmm0,
    compareScratch, floatScratch, Set.mem_union, Set.mem_insert_iff, Set.mem_singleton_iff,
    h.frame_inj h8, hne, or_false] at hmem
  simp only [frame, reduceCtorEq, or_false] at hmem

namespace Codegen

/-- Where a name may be held when so many slots are in use and so many arguments were passed. -/
inductive Held (asg : Assignment) (slots args : Nat) (z : String) : Operand → Prop where
  | reg {r : Reg} (h : asg.find? z = some (.reg r)) : Held asg slots args z (.reg r)
  | xreg {r : XReg} (h : asg.find? z = some (.xreg r)) : Held asg slots args z (.xreg r)
  | slot {k : Nat} (hpos : 0 < k) (hk : k ≤ slots) :
    Held asg slots args z (.mem (.slot (-(8 * k))))
  | argument {i : Nat} (hi : i < args) : Held asg slots args z (.mem (argumentSlot i))

structure Room (slots args : Nat) : Prop where
  slots : 8 * slots ≤ 2 ^ 31
  args : 8 * args + 8 < 2 ^ 31

variable {f : Func} {asg : Assignment} {pools : Pools} {slots slots' args : Nat} {y z : String}
  {o o' : Operand} {base : Int64}

theorem Held.mono (h : Held asg slots args z o) (hle : slots ≤ slots') :
    Held asg slots' args z o := by
  cases h with
  | reg h => exact .reg h
  | xreg h => exact .xreg h
  | slot hpos hk => exact .slot hpos (Nat.le_trans hk hle)
  | argument hi => exact .argument hi

theorem inFrame_slot (hroom : Room slots args) {k : Nat} (hk : k ≤ slots) :
    InFrame (-(8 * k)) := by
  have := hroom.slots
  exact ⟨by omega, by omega, ⟨-k, by omega⟩⟩

theorem inFrame_argument (hroom : Room slots args) {i : Nat} (hi : i < args) :
    InFrame (16 + 8 * i) := by
  have := hroom.args
  exact ⟨by omega, by omega, ⟨2 + i, by omega⟩⟩

theorem reg_of_fits (hfits : asg.Fits f pools) (hpools : pools.Accepted) {ty : Ty}
    (hz : (z, ty) ∈ f.bindings) {r : Reg} (h : asg.find? z = some (.reg r)) :
    ty ≠ .float ∧ r ∉ Reg.reserved ∧ ∃ i, registerIndex? r.number = some i := by
  obtain ⟨l, hl, hsuits⟩ := hfits.located _ hz
  obtain rfl := Option.some.inj (h.symm.trans hl)
  exact ⟨hsuits.1, hpools.reg r hsuits.2⟩

theorem xreg_of_fits (hfits : asg.Fits f pools) (hpools : pools.Accepted) {ty : Ty}
    (hz : (z, ty) ∈ f.bindings) {r : XReg} (h : asg.find? z = some (.xreg r)) :
    ty = .float ∧ r ∉ XReg.reserved ∧ ∃ i, registerIndex? r.number = some i := by
  obtain ⟨l, hl, hsuits⟩ := hfits.located _ hz
  obtain rfl := Option.some.inj (h.symm.trans hl)
  exact ⟨hsuits.1, hpools.xreg r hsuits.2⟩

/-- The place of a name is a cell that is used for nothing else. -/
theorem Held.cell (h : Held asg slots args z o) (hfits : asg.Fits f pools)
    (hpools : pools.Accepted) (hz : z ∈ f.bindings.map Prod.fst) (hbase : aligned base = true)
    (hroom : Room slots args) : ∃ c, o.cell? base = some c ∧ c ∉ Cell.reserved base := by
  obtain ⟨⟨_, ty⟩, hmem, rfl⟩ := List.mem_map.1 hz
  cases h with
  | reg h =>
    obtain ⟨_, hreserved, i, hi⟩ := reg_of_fits hfits hpools hmem h
    exact ⟨.reg i, by simp [Operand.cell?, hi], Cell.reg_notMem_reserved hi hreserved⟩
  | xreg h =>
    obtain ⟨_, hreserved, i, hi⟩ := xreg_of_fits hfits hpools hmem h
    exact ⟨.xreg i, by simp [Operand.cell?, hi], Cell.xreg_notMem_reserved hi hreserved⟩
  | slot hpos hk =>
    have hframe := inFrame_slot hroom hk
    exact ⟨_, cell?_slot hbase hframe, Cell.frame_notMem_reserved hframe (by omega)⟩
  | argument hi =>
    have hframe := inFrame_argument hroom hi
    exact ⟨_, cell?_slot hbase hframe, Cell.frame_notMem_reserved hframe (by omega)⟩

theorem Held.isInt (h : Held asg slots args z o) (hfits : asg.Fits f pools)
    (hpools : pools.Accepted) {ty : Ty} (hz : (z, ty) ∈ f.bindings) (hty : ty ≠ .float) :
    o.isInt = true := by
  cases h with
  | xreg h => exact absurd (xreg_of_fits hfits hpools hz h).1 hty
  | _ => rfl

theorem Held.isFloatSource (h : Held asg slots args z o) (hfits : asg.Fits f pools)
    (hpools : pools.Accepted) (hz : (z, .float) ∈ f.bindings) : isFloatSource o = true := by
  cases h with
  | reg h => exact absurd rfl (reg_of_fits hfits hpools hz h).1
  | _ => rfl

variable {s s' : Supply}

theorem location_held (h : location asg y s = .ok (some o, s')) (args : Nat) :
    Held asg s'.slots.used args y o := by
  rcases location_cases h with ⟨_, hplace, _⟩ | ⟨r, hfind, hplace, _⟩ | ⟨r, hfind, hplace, _⟩ |
    ⟨_, hplace, rfl⟩
  · cases hplace
  · cases hplace
    exact .reg hfind
  · cases hplace
    exact .xreg hfind
  · cases hplace
    exact .slot (Nat.succ_pos _) (Nat.le_refl _)

theorem location_slots {place : Option Operand} (h : location asg y s = .ok (place, s')) :
    s.slots.used ≤ s'.slots.used ∧ s'.slots.used ≤ s.slots.used + 1 := by
  rcases location_cases h with ⟨_, _, rfl⟩ | ⟨_, _, _, rfl⟩ | ⟨_, _, _, rfl⟩ | ⟨_, _, rfl⟩ <;>
    simp [Slots.next]

theorem cell?_reg_inj {r r' : Reg} {c : Cell} (h : (Operand.reg r).cell? base = some c)
    (h' : (Operand.reg r').cell? base = some c) : r = r' := by
  obtain ⟨i, hi, rfl⟩ := Option.map_eq_some_iff.1 h
  obtain ⟨j, hj, heq⟩ := Option.map_eq_some_iff.1 h'
  obtain rfl := Cell.reg.inj heq
  exact congrArg Reg.mk ((eq_of_registerIndex? hi).trans (eq_of_registerIndex? hj).symm)

theorem cell?_xreg_inj {r r' : XReg} {c : Cell} (h : (Operand.xreg r).cell? base = some c)
    (h' : (Operand.xreg r').cell? base = some c) : r = r' := by
  obtain ⟨i, hi, rfl⟩ := Option.map_eq_some_iff.1 h
  obtain ⟨j, hj, heq⟩ := Option.map_eq_some_iff.1 h'
  obtain rfl := Cell.xreg.inj heq
  exact congrArg XReg.mk ((eq_of_registerIndex? hi).trans (eq_of_registerIndex? hj).symm)

theorem cell?_cases {x : Operand} {c : Cell} (h : x.cell? base = some c) :
    (∃ i, c = .reg i ∧ x.isXReg = false ∧ x.isMem = false) ∨
      (∃ i, c = .xreg i ∧ x.isXReg = true ∧ x.isMem = false) ∨
      ∃ a, c = .word a ∧ x.isXReg = false ∧ x.isMem = true := by
  cases x with
  | reg r =>
    obtain ⟨i, _, rfl⟩ := Option.map_eq_some_iff.1 h
    exact Or.inl ⟨i, rfl, rfl, rfl⟩
  | xreg r =>
    obtain ⟨i, _, rfl⟩ := Option.map_eq_some_iff.1 h
    exact Or.inr (Or.inl ⟨i, rfl, rfl, rfl⟩)
  | mem x =>
    simp only [Operand.cell?, Option.ite_none_right_eq_some, Option.some.injEq] at h
    exact Or.inr (Or.inr ⟨_, h.2.symm, rfl, rfl⟩)
  | imm v => cases h
  | fimm bits => cases h
  | absent => cases h

/-- Operands of different kinds stand for different cells. -/
theorem cell?_kind {x y : Operand} {c : Cell} (h : x.cell? base = some c)
    (h' : y.cell? base = some c) : x.isXReg = y.isXReg ∧ x.isMem = y.isMem := by
  rcases cell?_cases h with ⟨i, rfl, hx⟩ | ⟨i, rfl, hx⟩ | ⟨a, rfl, hx⟩ <;>
    rcases cell?_cases h' with ⟨j, hc, hy⟩ | ⟨j, hc, hy⟩ | ⟨b, hc, hy⟩ <;> cases hc <;>
    simp [hx, hy]

/-- The cell of a new binding is not that of a name which was given another register. -/
theorem location_apart (h : location asg y s = .ok (some o, s'))
    (hz : Held asg s.slots.used args z o')
    (hapart : ∀ l, l.isRegister = true → asg.find? y = some l → asg.find? z ≠ some l)
    (hbase : aligned base = true) (hroom : Room s'.slots.used args) {c d : Cell}
    (hc : o.cell? base = some c) (hd : o'.cell? base = some d) : c ≠ d := by
  rintro rfl
  obtain ⟨hx, hmem⟩ := cell?_kind hc hd
  rcases location_cases h with ⟨_, hplace, _⟩ | ⟨r, hfind, hplace, _⟩ | ⟨r, hfind, hplace, _⟩ |
    ⟨_, hplace, rfl⟩
  · cases hplace
  · cases hplace
    cases hz with
    | reg hfind' => exact hapart _ rfl hfind (cell?_reg_inj hc hd ▸ hfind')
    | xreg _ => cases hx
    | slot _ _ => cases hmem
    | argument _ => cases hmem
  · cases hplace
    cases hz with
    | reg _ => cases hx
    | xreg hfind' => exact hapart _ rfl hfind (cell?_xreg_inj hc hd ▸ hfind')
    | slot _ _ => cases hmem
    | argument _ => cases hmem
  · cases hplace
    have hnew : InFrame s.slots.next.offset := inFrame_slot hroom (Nat.le_refl _)
    rw [cell?_slot hbase hnew] at hc
    cases hz with
    | reg _ => cases hmem
    | xreg _ => cases hmem
    | slot _ hk =>
      have hold := inFrame_slot hroom (Nat.le_trans hk (Nat.le_succ _))
      rw [cell?_slot hbase hold, ← hc, Option.some.injEq, hold.frame_inj hnew] at hd
      simp only [Slots.offset, Slots.next] at hd
      omega
    | argument hi =>
      have hold := inFrame_argument hroom hi
      rw [argumentSlot, cell?_slot hbase hold, ← hc, Option.some.injEq,
        hold.frame_inj hnew] at hd
      simp only [Slots.offset, Slots.next] at hd
      omega

mutual

theorem statement_slots {func : String} : ∀ (x : Expr) {scope scope' : Scope}
    {dst : Option Operand} {s s' : Supply} {code : List Instr},
    statement func asg x scope dst s = .ok ((code, scope'), s') →
    s.slots.used ≤ s'.slots.used ∧ s'.slots.used ≤ s.slots.used + x.bindings.length
  | .atom x, _, _, _, _, _, _, h => by
    obtain ⟨_, _, _, _, rfl⟩ := statement_atom.1 h
    simp
  | .bind name init, _, _, _, s, s', code, h => by
    obtain ⟨place, s₁, hloc⟩ := statement_bind h
    have hone := location_slots hloc
    have hinit : s₁.slots.used ≤ s'.slots.used ∧
        s'.slots.used ≤ s₁.slots.used + init.bindings.length := by
      cases place with
      | none =>
        rw [statement_bind_none hloc] at h
        exact statement_slots init h
      | some p =>
        obtain ⟨_, _, _, hinit, _⟩ := (statement_bind_some hloc).1 h
        exact statement_slots init hinit
    rw [Expr.bindings, List.length_append, List.length_singleton]
    omega
  | .unary op x ty, _, _, none, _, _, _, h => by
    obtain ⟨_, _, hx⟩ | ⟨_, _, rfl⟩ := statement_unwanted h
    · cases hx
    · simp
  | .unary op x ty, _, _, some d, _, _, _, h => by
    obtain ⟨_, _, _, _, rfl⟩ := statement_unary.1 h
    simp
  | .binary op l r ty, _, _, none, _, _, _, h => by
    obtain ⟨_, _, hx⟩ | ⟨_, _, rfl⟩ := statement_unwanted h
    · cases hx
    · simp
  | .binary op l r ty, _, _, some d, _, _, _, h => by
    obtain ⟨_, _, rfl⟩ := statement_binary.1 h
    simp
  | .branch cond onTrue none, _, _, none, _, _, _, h => by
    obtain ⟨_, _, hx⟩ | ⟨_, _, rfl⟩ := statement_unwanted h
    · cases hx
    · simp
  | .branch cond onTrue (some b), _, _, none, _, _, _, h => by
    obtain ⟨_, _, hx⟩ | ⟨_, _, rfl⟩ := statement_unwanted h
    · cases hx
    · simp
  | .branch cond onTrue none, _, _, some d, s, s', _, h => by
    obtain ⟨_, _, s₁, _, _, hfirst, hsecond, _⟩ := statement_branch.1 h
    obtain ⟨_, rfl⟩ := StateT.pure_eq_ok.1 hsecond
    have htrue := block_slots onTrue hfirst
    rw [Expr.bindings]
    exact htrue
  | .branch cond onTrue (some b), _, _, some d, s, s', _, h => by
    obtain ⟨_, _, s₁, _, _, hfirst, hsecond, _⟩ := statement_branch.1 h
    have htrue := block_slots onTrue hfirst
    have hfalse := block_slots b hsecond
    rw [Expr.bindings, List.length_append]
    simp only at htrue
    omega
  | .missing, _, _, _, _, _, _, h => by cases h

theorem block_slots {func : String} : ∀ (xs : List Expr) {scope : Scope} {dst : Option Operand}
    {s s' : Supply} {code : List Instr}, block func asg xs scope dst s = .ok (code, s') →
    s.slots.used ≤ s'.slots.used ∧ s'.slots.used ≤ s.slots.used + (blockBindings xs).length
  | [], _, _, _, _, _, h => by
    obtain ⟨_, rfl⟩ := block_nil.1 h
    simp
  | [x], _, _, _, _, _, h => by
    obtain ⟨_, hx⟩ := block_single.1 h
    have hslots := statement_slots x hx
    rw [blockBindings, List.length_append]
    omega
  | x :: y :: xs, _, _, s, s', _, h => by
    obtain ⟨_, _, s₁, _, hx, hrest, _⟩ := block_cons.1 h
    have hslots := statement_slots x hx
    have hslots' := block_slots (y :: xs) hrest
    rw [blockBindings, List.length_append]
    omega

end

/-- The frame has a slot for each binding of the body at most. -/
theorem frameSize_lt {func : String} {xs : List Expr} {scope : Scope} {dst : Option Operand}
    {code : List Instr} {supply : Supply} {bound : Nat}
    (h : block func asg xs scope dst {} = .ok (code, supply))
    (hfew : 8 * (blockBindings xs).length + 16 ≤ bound) : supply.slots.frameSize < bound := by
  have hslots := (block_slots xs h).2
  simp only [Nat.zero_add] at hslots
  unfold Slots.frameSize
  omega

end Codegen

end ExprBackend
