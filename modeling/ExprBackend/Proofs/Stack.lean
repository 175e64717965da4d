import ExprBackend.Proofs.Control
import ExprBackend.Proofs.Places

/-!
# The stack

What a call puts on the stack, and the code around the body of a function: it sets up the frame
and, once the body is done, gives it back and returns.
-/

namespace ExprBackend

theorem Cell.frame_sub (r : UInt64) (k : Int) :
    Cell.frame (r - 8).toInt64 (k + 8) = Cell.frame r.toInt64 k := by
  have height : (8 : UInt64).toInt64 = Int64.ofInt 8 := rfl
  rw [Cell.frame, Cell.frame, UInt64.toInt64_sub, Int64.ofInt_add, height]
  congr 1
  grind

namespace Cell

/-- A cell that is neither the stack pointer nor a word of memory. -/
def OffStack : Cell → Prop
  | .word _ => False
  | c => c ≠ .rsp

def below (base : Int64) : Set Cell :=
  {c | c = .rsp ∨ ∃ k : Int, -2 ^ 40 ≤ k ∧ k < 0 ∧ c = .frame base k}

def ofReg (r : Reg) : Cell := .reg ((registerIndex? r.number).getD (.last 15))

theorem ofReg_of_index {r : Reg} {i : Fin 16} (h : registerIndex? r.number = some i) :
    ofReg r = .reg i := by
  rw [ofReg, h, Option.getD_some]

end Cell

section CalleeSaved

variable {r r' : Reg} (hr : r ∈ Reg.calleeSaved)
include hr

theorem registerIndex?_calleeSaved : ∃ i, registerIndex? r.number = some i := by
  simp only [Reg.calleeSaved, List.mem_cons, List.not_mem_nil, or_false] at hr
  rcases hr with rfl | rfl | rfl | rfl | rfl
  · exact ⟨3, rfl⟩
  · exact ⟨12, rfl⟩
  · exact ⟨13, rfl⟩
  · exact ⟨14, rfl⟩
  · exact ⟨15, rfl⟩

theorem Cell.ofReg_inj (hr' : r' ∈ Reg.calleeSaved) (h : ofReg r = ofReg r') : r = r' := by
  have hall : ∀ r ∈ Reg.calleeSaved, ∀ r' ∈ Reg.calleeSaved, ofReg r = ofReg r' → r = r' := by
    decide
  exact hall r hr r' hr' h

/-- They are none of the cells that results and the stack need. -/
theorem Cell.ofReg_ne : ofReg r ≠ .rsp ∧ ofReg r ≠ .rbp ∧ ofReg r ≠ .rax := by
  have hall : ∀ r ∈ Reg.calleeSaved, ofReg r ≠ .rsp ∧ ofReg r ≠ .rbp ∧ ofReg r ≠ .rax := by decide
  exact hall r hr

theorem Cell.offStack_ofReg : (ofReg r).OffStack := (ofReg_ne hr).1

end CalleeSaved

namespace Machine

variable {m m' : Machine}

/-- The words on top of the stack, the topmost first. -/
def Stack (m : Machine) (ws : List UInt64) : Prop :=
  ∀ (i : Nat) (w : UInt64), ws[i]? = some w → m.cell (.frame (m.cell .rsp).toInt64 (8 * i)) = w

def pushed (m : Machine) (w : UInt64) : Machine :=
  (m.setCell .rsp (m.cell .rsp - 8)).setCell (.frame (m.cell .rsp - 8).toInt64 0) w

theorem push_ok (w : UInt64) (m : Machine) : push w m = .ok () (m.pushed w) := by
  rw [pushed, Cell.frame_zero, push]
  refine (EStateM.bind_of_ok (getReg_ok (r := .rsp) rfl m)).trans ?_
  refine (EStateM.bind_of_ok (setReg_ok (r := .rsp) rfl _ m)).trans ?_
  rfl

theorem execute_push_ok {r : Reg} {i : Fin 16} (hr : registerIndex? r.number = some i)
    (m : Machine) : execute (.push r) m = .ok () (m.pushed (m.cell (.reg i))) := by
  rw [execute_push hr, pushed, Cell.frame_zero]

theorem rsp_pushed (m : Machine) (w : UInt64) : (m.pushed w).cell .rsp = m.cell .rsp - 8 := by
  rw [pushed, cell_setCell_of_ne _ (by simp [Cell.frame, Cell.rsp]), cell_setCell_self]

theorem cell_pushed (m : Machine) (w : UInt64) {c : Cell} (hrsp : c ≠ .rsp)
    (hne : c ≠ .frame (m.cell .rsp - 8).toInt64 0) : (m.pushed w).cell c = m.cell c := by
  rw [pushed, cell_setCell_of_ne _ hne.symm, cell_setCell_of_ne _ hrsp.symm]

theorem Stack.pushed {ws : List UInt64} (h : m.Stack ws) (hlen : 8 * ws.length + 8 < 2 ^ 62)
    (w : UInt64) : (m.pushed w).Stack (w :: ws) := by
  intro i v hv
  rw [rsp_pushed]
  cases i with
  | zero =>
    obtain rfl : w = v := by simpa using hv
    exact cell_setCell_self _ _ _
  | succ i =>
    rw [List.getElem?_cons_succ] at hv
    have hi : i < ws.length := (List.getElem?_eq_some_iff.1 hv).1
    have hoffset : (8 * (i + 1 : Nat) : Int) = 8 * i + 8 := by omega
    have hne : Cell.frame (m.cell .rsp - 8).toInt64 (8 * i + 8) ≠
        .frame (m.cell .rsp - 8).toInt64 0 := by
      rw [ne_eq, Cell.frame_inj (by omega) (by omega) (by omega) (by omega)]
      omega
    rw [hoffset, cell_pushed m w (by simp [Cell.frame, Cell.rsp]) hne, Cell.frame_sub]
    exact h i v hv

theorem Stack.head {w : UInt64} {ws : List UInt64} (h : m.Stack (w :: ws)) :
    m.cell (.word (m.cell .rsp).toInt64) = w := by
  simpa [Cell.frame_zero] using h 0 w rfl

theorem Stack.tail {w : UInt64} {ws : List UInt64} (h : m.Stack (w :: ws))
    (hrsp : m'.cell .rsp = m.cell .rsp + 8) (hsame : ∀ a, m'.cell (.word a) = m.cell (.word a)) :
    m'.Stack ws := by
  intro i v hv
  have hnext := h (i + 1) v hv
  have hoffset : (8 * (i + 1 : Nat) : Int) = 8 * i + 8 := by omega
  have hback : m.cell .rsp = m'.cell .rsp - 8 := by rw [hrsp, UInt64.add_sub_cancel]
  rw [hoffset, hback, Cell.frame_sub] at hnext
  rw [Cell.frame, hsame, ← Cell.frame, hnext]

theorem cell_pushed_offStack (m : Machine) (w : UInt64) {c : Cell} (hc : c.OffStack) :
    (m.pushed w).cell c = m.cell c := by
  cases c with
  | word a => exact hc.elim
  | _ => exact cell_pushed m w hc (by simp [Cell.frame])

theorem aligned_pushed (h : aligned (m.cell .rsp).toInt64 = true) (w : UInt64) :
    aligned ((m.pushed w).cell .rsp).toInt64 = true := by
  have hsub : (m.cell .rsp - 8).toInt64 = (m.cell .rsp).toInt64 + Int64.ofInt (-8) := by
    rw [UInt64.toInt64_sub, Int64.sub_eq_add_neg]
    rfl
  rw [rsp_pushed, hsub]
  exact aligned_add h ⟨by decide, by decide, by decide⟩

theorem pushAll_ok {args : List UInt64} (hlen : 8 * args.length < 2 ^ 62)
    (halign : aligned (m.cell .rsp).toInt64 = true) :
    ∃ m', pushAll args m = .ok () m' ∧ m'.Stack args ∧
      m'.cell .rsp = m.cell .rsp - 8 * UInt64.ofNat args.length ∧
      aligned (m'.cell .rsp).toInt64 = true ∧ ∀ c, c.OffStack → m'.cell c = m.cell c := by
  induction args with
  | nil =>
    refine ⟨m, rfl, fun i w h => by simp at h, ?_, halign, fun _ _ => rfl⟩
    simp
  | cons w ws ih =>
    rw [List.length_cons] at hlen
    obtain ⟨m₁, hrun, hstack, hrsp, haligned, hsame⟩ := ih (by omega)
    refine ⟨m₁.pushed w, ?_, hstack.pushed (by omega) w, ?_, aligned_pushed haligned w,
      fun c hc => ?_⟩
    · rw [pushAll, EStateM.bind_of_ok hrun, push_ok]
    · rw [rsp_pushed, hrsp, List.length_cons, UInt64.ofNat_add]
      grind
    · rw [cell_pushed_offStack _ _ hc, hsame c hc]

/-- The address of the caller outside. -/
def callerAddress : UInt64 := 0xffffffffffffffff

theorem aligned_stackTop (m : Machine) :
    aligned ((m.setCell .rsp stackTop).cell .rsp).toInt64 = true := by
  rw [cell_setCell_self]
  decide

/-- The stack of a call: the address of the caller and the arguments. -/
theorem enter_ok {args : List UInt64} (hlen : 8 * args.length + 8 < 2 ^ 62) (m : Machine) :
    ∃ m', enter args m = .ok () m' ∧ m'.Stack (callerAddress :: args) ∧
      m'.cell .rsp = stackTop - 8 * UInt64.ofNat (args.length + 1) ∧
      aligned (m'.cell .rsp).toInt64 = true ∧ ∀ c, c.OffStack → m'.cell c = m.cell c := by
  have hset : setReg .rsp stackTop m = .ok () (m.setCell .rsp stackTop) := setReg_ok rfl _ m
  have hshort : 8 * args.length < 2 ^ 62 := by omega
  obtain ⟨m₁, hrun, hstack, hrsp, haligned, hsame⟩ := pushAll_ok hshort (aligned_stackTop m)
  refine ⟨m₁.pushed callerAddress, ?_, hstack.pushed (by omega) _, ?_, aligned_pushed haligned _,
    fun c hc => ?_⟩
  · rw [enter, EStateM.bind_of_ok hset, EStateM.bind_of_ok hrun]
    exact push_ok _ _
  · rw [rsp_pushed, hrsp, cell_setCell_self, UInt64.ofNat_add]
    grind
  · have hne : c ≠ .rsp := by
      rintro rfl
      exact hc rfl
    rw [cell_pushed_offStack _ _ hc, hsame c hc, cell_setCell_of_ne _ hne.symm]

theorem exists_pushAll (args : List UInt64) (halign : aligned (m.cell .rsp).toInt64 = true) :
    ∃ m', pushAll args m = .ok () m' ∧ aligned (m'.cell .rsp).toInt64 = true := by
  induction args with
  | nil => exact ⟨m, rfl, halign⟩
  | cons w ws ih =>
    obtain ⟨m₁, hrun, haligned⟩ := ih
    refine ⟨m₁.pushed w, ?_, aligned_pushed haligned w⟩
    rw [pushAll, EStateM.bind_of_ok hrun, push_ok]

/-- However many arguments there are, the address of the caller is on top of them. -/
theorem enter_top (args : List UInt64) (m : Machine) :
    ∃ m', enter args m = .ok () m' ∧ m'.Stack [callerAddress] ∧
      aligned (m'.cell .rsp).toInt64 = true := by
  have hset : setReg .rsp stackTop m = .ok () (m.setCell .rsp stackTop) := setReg_ok rfl _ m
  obtain ⟨m₁, hrun, haligned⟩ := exists_pushAll args (aligned_stackTop m)
  have hempty : m₁.Stack [] := fun i w h => by simp at h
  refine ⟨m₁.pushed callerAddress, ?_, hempty.pushed (by decide) _, aligned_pushed haligned _⟩
  rw [enter, EStateM.bind_of_ok hset, EStateM.bind_of_ok hrun]
  exact push_ok _ _

/-- Registers are pushed from an offset on that is not above the frame pointer. -/
theorem pushes_ok {rs : List Reg} (hrs : ∀ r ∈ rs, r ∈ Reg.calleeSaved) {base : Int64} {k : Int}
    (hk : k ≤ 0) (hlow : -2 ^ 40 + 8 * rs.length ≤ k)
    (hrsp : (m.cell .rsp).toInt64 = base + Int64.ofInt k) {ws : List UInt64} (hstack : m.Stack ws)
    (hlen : 8 * (rs.length + ws.length) < 2 ^ 40) :
    ∃ m', executeAll (rs.map .push) m = .ok () m' ∧
      (m'.cell .rsp).toInt64 = base + Int64.ofInt (k - 8 * rs.length) ∧
      m'.Stack ((rs.reverse.map fun r => m.cell (.ofReg r)) ++ ws) ∧
      ChangesOnly (Cell.below base) m m' := by
  induction rs generalizing m k ws with
  | nil =>
    refine ⟨m, rfl, ?_, hstack, .refl _ m⟩
    simpa using hrsp
  | cons r rs ih =>
    have hr := hrs r List.mem_cons_self
    have hrest : ∀ s ∈ rs, s ∈ Reg.calleeSaved := fun s hs => hrs s (List.mem_cons_of_mem r hs)
    obtain ⟨i, hi⟩ := registerIndex?_calleeSaved hr
    rw [List.length_cons] at hlow hlen
    obtain ⟨m₁, hm₁⟩ : ∃ m₁, m₁ = m.pushed (m.cell (.reg i)) := ⟨_, rfl⟩
    have hpush : execute (.push r) m = .ok () m₁ := hm₁ ▸ execute_push_ok hi m
    have hstack₁ : m₁.Stack (m.cell (.ofReg r) :: ws) := by
      rw [hm₁, Cell.ofReg_of_index hi]
      exact hstack.pushed (by omega) _
    have htop : (m.cell .rsp - 8).toInt64 = base + Int64.ofInt (k - 8) := by
      have height : (8 : UInt64).toInt64 = Int64.ofInt 8 := rfl
      rw [UInt64.toInt64_sub, hrsp, Int64.ofInt_sub, height]
      grind
    have hsame₁ : ∀ s ∈ rs, m₁.cell (.ofReg s) = m.cell (.ofReg s) := fun s hs =>
      hm₁ ▸ cell_pushed_offStack m _ (Cell.offStack_ofReg (hrest s hs))
    obtain ⟨m', hrun, hrsp', hstack', hsame⟩ := ih (m := m₁) (k := k - 8) hrest (by omega) (by omega)
      (by rw [hm₁, rsp_pushed, htop]) hstack₁ (by rw [List.length_cons]; omega)
    refine ⟨m', (executeAll_cons hpush _).trans hrun, ?_, ?_, fun c hc => ?_⟩
    · have hoffset : k - 8 - 8 * (rs.length : Int) = k - 8 * ((r :: rs).length : Int) := by
        rw [List.length_cons]
        omega
      rw [hrsp', hoffset]
    · have hvalues : (rs.reverse.map fun s => m₁.cell (.ofReg s)) =
          rs.reverse.map fun s => m.cell (.ofReg s) :=
        List.map_congr_left fun s hs => hsame₁ s (List.mem_reverse.1 hs)
      rw [hvalues] at hstack'
      rwa [List.reverse_cons, List.map_append, List.map_singleton, List.append_assoc]
    · rw [hsame c hc, hm₁]
      refine cell_pushed m _ (fun h => hc (Or.inl h)) fun h => hc (Or.inr ⟨k - 8, ?_, ?_, ?_⟩)
      · omega
      · omega
      · rw [h, Cell.frame_zero, htop, Cell.frame]

end Machine

namespace Codegen

open Machine

/-- The prologue from the label of the function on. -/
def entry (name : String) (frame : Nat) (saved : List Reg) : List Instr :=
  [.label name, .push .rbp, .mov (.reg .rbp) (.reg .rsp)] ++
    (if frame = 0 then [] else [.sub (.reg .rsp) (.imm (Int64.ofNat frame))]) ++ saved.map .push

theorem prologue_eq (name : String) (frame : Nat) (saved : List Reg) :
    prologue name frame saved = .text :: .global name :: entry name frame saved := rfl

variable {m : Machine} {name : String} {frame : Nat} {saved : List Reg}

theorem fitsImm32_ofNat (h : frame < 2 ^ 31) : fitsImm32 (Int64.ofNat frame) = true := by
  have hint : (Int64.ofNat frame).toInt = frame := Int64.toInt_ofNat_of_lt (by omega)
  simp only [fitsImm32, Bool.decide_and, Bool.and_eq_true, decide_eq_true_eq,
    Int64.le_iff_toInt_le, hint]
  exact ⟨by simp, by simp; omega⟩

/-- The frame is taken from the stack. -/
theorem reserve_ok (hframe : frame < 2 ^ 31) (m : Machine) :
    ∃ m', executeAll (if frame = 0 then [] else [.sub (.reg .rsp) (.imm (Int64.ofNat frame))]) m =
        .ok () m' ∧
      (m'.cell .rsp).toInt64 = (m.cell .rsp).toInt64 + Int64.ofInt (-frame) ∧
      ChangesOnly {.rsp} m m' := by
  split
  next h =>
    refine ⟨m, rfl, ?_, .refl _ m⟩
    rw [h]
    simp
  next h =>
    have henc : encodable (.reg .rsp) (.imm (Int64.ofNat frame)) false = true := by
      rw [encodable, fitsImm32_ofNat hframe]
      rfl
    have hsub : execute (.sub (.reg .rsp) (.imm (Int64.ofNat frame))) m =
        .ok () (m.setCell .rsp (m.cell .rsp - (Int64.ofNat frame).toUInt64)) :=
      combine_ok (· - ·) henc rfl rfl
    refine ⟨_, executeAll_cons hsub [], ?_, (ChangesOnly.refl _ m).setCell (by simp) _⟩
    rw [cell_setCell_self, UInt64.toInt64_sub, Int64.ofInt_neg, Int64.ofInt_eq_ofNat,
      Int64.toInt64_toUInt64 (Int64.ofNat frame), Int64.sub_eq_add_neg]

theorem frame_notMem_below {base : Int64} {k : Int} (hk : 0 ≤ k) (hk' : k < 2 ^ 40) :
    Cell.frame base k ∉ Cell.below base := by
  rintro (h | ⟨j, hj, hj', h⟩)
  · simp [Cell.frame, Cell.rsp] at h
  · rw [Cell.frame_inj (by omega) (by omega) (by omega) (by omega)] at h
    omega

/-- What the start of a function does: the frame pointer points to its old value, behind it is the
frame and behind that are the registers that will be handed back. Nothing else is changed. -/
structure Opens (frame : Nat) (saved : List Reg) (m m' : Machine) : Prop where
  rbp : m'.cell .rbp = m.cell .rsp - 8
  link : m'.cell (.frame m'.base 0) = m.cell .rbp
  rsp : (m'.cell .rsp).toInt64 = m'.base + Int64.ofInt (-frame - 8 * saved.length)
  stack : m'.Stack (saved.reverse.map fun r => m.cell (.ofReg r))
  same : ∀ c ∉ Cell.below m'.base, c ≠ .frame m'.base 0 → c ≠ .rbp → m'.cell c = m.cell c

section Opens

variable {m' : Machine} (h : Opens frame saved m m')
include h

theorem Opens.base : m'.base = (m.cell .rsp - 8).toInt64 := by rw [Machine.base, h.rbp]

theorem Opens.aligned (halign : aligned (m.cell .rsp).toInt64 = true) :
    Machine.aligned m'.base = true := by
  rw [h.base, ← rsp_pushed m 0]
  exact aligned_pushed halign 0

/-- The stack is as it was, one word further from the frame pointer. -/
theorem Opens.word {ws : List UInt64} (hstack : m.Stack ws) {i : Nat} {w : UInt64}
    (hw : ws[i]? = some w) (hi : 8 * i + 8 < 2 ^ 40) :
    m'.cell (.frame m'.base (8 * i + 8)) = w := by
  have hne : Cell.frame m'.base (8 * i + 8) ≠ .frame m'.base 0 := by
    rw [ne_eq, Cell.frame_inj (by omega) (by omega) (by omega) (by omega)]
    omega
  rw [h.same _ (frame_notMem_below (by omega) (by omega)) hne (by simp [Cell.rbp, Cell.frame]),
    h.base, Cell.frame_sub]
  exact hstack i w hw

theorem Opens.offStack {c : Cell} (hc : c.OffStack) (hrbp : c ≠ .rbp) : m'.cell c = m.cell c := by
  refine h.same c ?_ ?_ hrbp
  · rintro (rfl | ⟨_, _, _, rfl⟩)
    · exact hc rfl
    · exact hc
  · rintro rfl
    exact hc

end Opens

theorem entry_ok (hframe : frame < 2 ^ 31) (hsaved : ∀ r ∈ saved, r ∈ Reg.calleeSaved)
    (hfew : saved.length ≤ 5) (m : Machine) :
    ∃ m', executeAll (entry name frame saved) m = .ok () m' ∧ Opens frame saved m m' := by
  obtain ⟨m₁, hm₁⟩ : ∃ m₁, m₁ = m.pushed (m.cell .rbp) := ⟨_, rfl⟩
  have hpush : execute (.push .rbp) m = .ok () m₁ := hm₁ ▸ execute_push_ok rfl m
  have hrsp₁ : m₁.cell .rsp = m.cell .rsp - 8 := by rw [hm₁, rsp_pushed]
  obtain ⟨m₂, hm₂⟩ : ∃ m₂, m₂ = m₁.setCell .rbp (m₁.cell .rsp) := ⟨_, rfl⟩
  have hmov : execute (.mov (.reg .rbp) (.reg .rsp)) m₁ = .ok () m₂ :=
    hm₂ ▸ execute_mov rfl rfl rfl
  have hrsp₂ : m₂.cell .rsp = m₁.cell .rsp := by
    rw [hm₂, cell_setCell_of_ne _ (by decide)]
  have hrbp₂ : m₂.cell .rbp = m₁.cell .rsp := by rw [hm₂, cell_setCell_self]
  have hbase : m₂.base = (m₁.cell .rsp).toInt64 := by rw [base, hrbp₂]
  obtain ⟨m₃, hsub, hrsp₃, hsame₃⟩ := reserve_ok hframe m₂
  rw [hrsp₂, ← hbase] at hrsp₃
  obtain ⟨m₄, hpushes, hrsp₄, hstack₄, hsame₄⟩ := pushes_ok hsaved (by omega) (by omega) hrsp₃
    (show m₃.Stack [] from fun i w h => by simp at h) (by simp only [List.length_nil]; omega)
  have hsame : ∀ c, c ∉ Cell.below m₂.base → c ≠ .rbp → m₄.cell c = m₁.cell c := by
    intro c hc hrbp
    rw [hsame₄ c hc, hsame₃ c fun h => hc (Or.inl h), hm₂, cell_setCell_of_ne _ hrbp.symm]
  have hrbp₄ : m₄.cell .rbp = m₂.cell .rbp := by
    have hc : Cell.rbp ∉ Cell.below m₂.base := by
      rintro (h | ⟨_, _, _, h⟩)
      · cases h
      · simp [Cell.rbp, Cell.frame] at h
    rw [hsame₄ _ hc, hsame₃ _ (by simp; decide)]
  have hbase₄ : m₄.base = m₂.base := by rw [base, base, hrbp₄]
  refine ⟨m₄, ?_, ?_, ?_, ?_, ?_, fun c hc hlink hrbp => ?_⟩
  · rw [entry, List.append_assoc]
    refine (executeAll_cons rfl _).trans ((executeAll_cons hpush _).trans ?_)
    exact (executeAll_cons hmov _).trans ((executeAll_append hsub).trans hpushes)
  · rw [hrbp₄, hrbp₂, hrsp₁]
  · rw [hbase₄, hsame _ (frame_notMem_below (by omega) (by omega)) (by simp [Cell.rbp, Cell.frame]),
      hbase, hrsp₁, hm₁]
    exact cell_setCell_self _ _ _
  · rw [hbase₄, hrsp₄]
  · rw [List.append_nil] at hstack₄
    have hvalues : (saved.reverse.map fun r => m₃.cell (.ofReg r)) =
        saved.reverse.map fun r => m.cell (.ofReg r) := by
      refine List.map_congr_left fun r hr => ?_
      have hr' := hsaved r (List.mem_reverse.1 hr)
      obtain ⟨hrsp, hrbp, _⟩ := Cell.ofReg_ne hr'
      rw [hsame₃ _ hrsp, hm₂, cell_setCell_of_ne _ hrbp.symm, hm₁,
        cell_pushed_offStack _ _ (Cell.offStack_ofReg hr')]
    rwa [hvalues] at hstack₄
  · rw [hbase₄] at hc hlink
    rw [hsame c hc hrbp, hm₁]
    refine cell_pushed m _ (fun h => hc (Or.inl h)) ?_
    rwa [hbase, hrsp₁] at hlink

/-- Registers get the words on top of the stack. -/
theorem pops_ok {rs : List Reg} (hrs : ∀ r ∈ rs, r ∈ Reg.calleeSaved) (hnodup : rs.Nodup)
    (m : Machine) :
    ∃ m', executeAll (rs.map .pop) m = .ok () m' ∧
      (∀ vals : Reg → UInt64, m.Stack (rs.map vals) → ∀ r ∈ rs, m'.cell (.ofReg r) = vals r) ∧
      ∀ c, c ≠ .rsp → (∀ r ∈ rs, c ≠ .ofReg r) → m'.cell c = m.cell c := by
  induction rs generalizing m with
  | nil => exact ⟨m, rfl, fun _ _ r hr => absurd hr List.not_mem_nil, fun _ _ _ => rfl⟩
  | cons r rs ih =>
    have hr := hrs r List.mem_cons_self
    have hrest : ∀ s ∈ rs, s ∈ Reg.calleeSaved := fun s hs => hrs s (List.mem_cons_of_mem r hs)
    obtain ⟨hnotMem, hnodup'⟩ := List.nodup_cons.1 hnodup
    obtain ⟨i, hi⟩ := registerIndex?_calleeSaved hr
    obtain ⟨m₁, hm₁⟩ : ∃ m₁, m₁ = (m.setCell .rsp (m.cell .rsp + 8)).setCell (.ofReg r)
      (m.cell (.word (m.cell .rsp).toInt64)) := ⟨_, rfl⟩
    have hpop : execute (.pop r) m = .ok () m₁ := by
      rw [hm₁, Cell.ofReg_of_index hi]
      exact execute_pop hi m
    have hrsp : m₁.cell .rsp = m.cell .rsp + 8 := by
      rw [hm₁, cell_setCell_of_ne _ (Cell.ofReg_ne hr).1, cell_setCell_self]
    have hword (a : Int64) : m₁.cell (.word a) = m.cell (.word a) := by
      rw [hm₁, cell_setCell_of_ne _ (by simp [Cell.ofReg]),
        cell_setCell_of_ne _ (by simp [Cell.rsp])]
    obtain ⟨m', hrun, hvals, hsame⟩ := ih hrest hnodup' m₁
    refine ⟨m', (executeAll_cons hpop _).trans hrun, fun vals hstack s hs => ?_,
      fun c hc hcs => ?_⟩
    · rw [List.map_cons] at hstack
      rcases List.mem_cons.1 hs with rfl | hs
      · have hne : ∀ s' ∈ rs, Cell.ofReg s ≠ .ofReg s' := fun s' hs' h =>
          hnotMem (Cell.ofReg_inj hr (hrest s' hs') h ▸ hs')
        rw [hsame _ (Cell.ofReg_ne hr).1 hne, hm₁, cell_setCell_self, hstack.head]
      · exact hvals vals (hstack.tail hrsp hword) s hs
    · rw [hsame c hc fun s hs => hcs s (List.mem_cons_of_mem r hs), hm₁,
        cell_setCell_of_ne _ (hcs r List.mem_cons_self).symm, cell_setCell_of_ne _ hc.symm]

theorem advance_ret {code : Code} {pc : Int} {m' : Machine} (h : pop m = .ok callerAddress m') :
    advance code pc .ret m = .ok .done m' := by
  have hattempt : attempt pc .ret pop m = .ok callerAddress m' := by rw [attempt, h]
  exact (EStateM.bind_of_ok hattempt).trans rfl

/-- The instruction at a place is the last one of a run. -/
structure Returns (code : Code) (pc : Nat) (m m' : Machine) : Prop where
  zero : run code 0 pc m = .error .stepLimit m
  succ : ∀ steps, run code (steps + 1) pc m = .ok () m'

/-- A run that comes to its last instruction ends there unless it may take too few steps. -/
theorem Returns.run {code : Code} {pc pc' : Nat} {m₁ m' : Machine} (h : Returns code pc' m₁ m')
    (hreach : Reaches code pc m pc' m₁) (steps : Nat) :
    run code steps pc m = .ok () m' ∨
      steps ≤ pc' ∧ ∃ m'', run code steps pc m = .error .stepLimit m'' := by
  obtain ⟨n, hn, hrun, hearly⟩ := hreach
  rcases Nat.lt_trichotomy steps n with hlt | rfl | hlt
  · exact Or.inr ⟨by omega, hearly steps hlt⟩
  · refine Or.inr ⟨by omega, m₁, ?_⟩
    rw [← Nat.zero_add steps, hrun, h.zero]
  · obtain ⟨k, rfl⟩ := Nat.exists_eq_add_of_lt hlt
    have hsteps : n + k + 1 = (k + 1) + n := by omega
    refine Or.inl ?_
    rw [hsteps, hrun, h.succ]

/-- What the end of a function does: the registers on the stack and the frame pointer are handed
back, and the stack ends behind the address of the caller. Nothing else is changed. -/
structure Closes (saved : List Reg) (m m' : Machine) : Prop where
  rsp : m'.cell .rsp = m.cell .rbp + 16
  rbp : m'.cell .rbp = m.cell (.frame m.base 0)
  handedBack : ∀ vals : Reg → UInt64, m.Stack (saved.reverse.map vals) →
    ∀ r ∈ saved, m'.cell (.ofReg r) = vals r
  same : ∀ c, c ≠ .rsp → c ≠ .rbp → (∀ r ∈ saved, c ≠ .ofReg r) → m'.cell c = m.cell c

/-- The epilogue up to its return. -/
def restore (saved : List Reg) : List Instr :=
  saved.reverse.map .pop ++ [.mov (.reg .rsp) (.reg .rbp), .pop .rbp]

theorem epilogue_eq (saved : List Reg) : epilogue saved = restore saved ++ [Instr.ret] := by
  rw [epilogue, restore, List.append_assoc]
  rfl

/-- What is left on the stack in the end is the address of the caller. -/
theorem restore_ok (hsaved : ∀ r ∈ saved, r ∈ Reg.calleeSaved) (hnodup : saved.Nodup)
    (hcaller : m.cell (.frame m.base 8) = callerAddress) :
    ∃ m₁ m', executeAll (restore saved) m = .ok () m₁ ∧ pop m₁ = .ok callerAddress m' ∧
      Closes saved m m' := by
  obtain ⟨m₁, hpops, hvals₁, hsame₁⟩ := pops_ok (fun r hr => hsaved r (List.mem_reverse.1 hr))
    (List.nodup_reverse.2 hnodup) m
  have hsame₁ : ∀ c, c ≠ .rsp → (∀ r ∈ saved, c ≠ .ofReg r) → m₁.cell c = m.cell c :=
    fun c hc hcs => hsame₁ c hc fun r hr => hcs r (List.mem_reverse.1 hr)
  have hrbp₁ : m₁.cell .rbp = m.cell .rbp :=
    hsame₁ _ (by decide) fun r hr => (Cell.ofReg_ne (hsaved r hr)).2.1.symm
  have hword₁ (a : Int64) : m₁.cell (.word a) = m.cell (.word a) :=
    hsame₁ _ (by simp [Cell.rsp]) fun r _ => by simp [Cell.ofReg]
  obtain ⟨m₂, hm₂⟩ : ∃ m₂, m₂ = m₁.setCell .rsp (m.cell .rbp) := ⟨_, rfl⟩
  have hmov : execute (.mov (.reg .rsp) (.reg .rbp)) m₁ = .ok () m₂ := by
    rw [hm₂, ← hrbp₁]
    exact execute_mov rfl rfl rfl
  have hrsp₂ : m₂.cell .rsp = m.cell .rbp := by rw [hm₂, cell_setCell_self]
  have hword₂ (a : Int64) : m₂.cell (.word a) = m.cell (.word a) := by
    rw [hm₂, cell_setCell_of_ne _ (by simp [Cell.rsp]), hword₁]
  obtain ⟨m₃, hm₃⟩ : ∃ m₃, m₃ = (m₂.setCell .rsp (m.cell .rbp + 8)).setCell .rbp
    (m.cell (.frame m.base 0)) := ⟨_, rfl⟩
  have hpop : execute (.pop .rbp) m₂ = .ok () m₃ := by
    have hlink := execute_pop (r := .rbp) (i := 5) rfl m₂
    rw [hrsp₂, hword₂, ← base, ← Cell.frame_zero] at hlink
    rw [hm₃]
    exact hlink
  have hrsp₃ : m₃.cell .rsp = m.cell .rbp + 8 := by
    rw [hm₃, cell_setCell_of_ne _ (by decide), cell_setCell_self]
  have hword₃ (a : Int64) : m₃.cell (.word a) = m.cell (.word a) := by
    rw [hm₃, cell_setCell_of_ne _ (by simp [Cell.rbp]), cell_setCell_of_ne _ (by simp [Cell.rsp]),
      hword₂]
  have hrun : executeAll (restore saved) m = .ok () m₃ := by
    rw [restore, executeAll_append hpops, executeAll_cons hmov, executeAll_cons hpop]
    rfl
  obtain ⟨m₄, hm₄⟩ : ∃ m₄, m₄ = m₃.setCell .rsp (m.cell .rbp + 16) := ⟨_, rfl⟩
  have hreturn : pop m₃ = .ok callerAddress m₄ := by
    have htop : (m.cell .rbp + 8).toInt64 = m.base + Int64.ofInt 8 := by
      rw [UInt64.toInt64_add]
      rfl
    have hnext : m.cell .rbp + 8 + 8 = m.cell .rbp + 16 := by
      rw [UInt64.add_assoc]
      rfl
    rw [pop_ok, hrsp₃, hword₃, htop, ← Cell.frame, hcaller, hnext, hm₄]
  -- all that is done to other cells is done by the pops
  have hsame₄ : ∀ c, c ≠ .rsp → c ≠ .rbp → m₄.cell c = m₁.cell c := by
    intro c hrsp hrbp
    rw [hm₄, cell_setCell_of_ne _ hrsp.symm, hm₃, cell_setCell_of_ne _ hrbp.symm,
      cell_setCell_of_ne _ hrsp.symm, hm₂, cell_setCell_of_ne _ hrsp.symm]
  refine ⟨m₃, m₄, hrun, hreturn, ?_, ?_, ?_, fun c hrsp hrbp hcs => ?_⟩
  · rw [hm₄, cell_setCell_self]
  · rw [hm₄, cell_setCell_of_ne _ (by decide), hm₃, cell_setCell_self]
  · intro vals hstack r hr
    obtain ⟨hrsp, hrbp, _⟩ := Cell.ofReg_ne (hsaved r hr)
    rw [hsame₄ _ hrsp hrbp, hvals₁ vals hstack r (List.mem_reverse.2 hr)]
  · rw [hsame₄ c hrsp hrbp, hsame₁ c hrsp hcs]

theorem epilogue_returns {code : Code} {pc : Nat} (hsaved : ∀ r ∈ saved, r ∈ Reg.calleeSaved)
    (hnodup : saved.Nodup) (hat : code.At pc (epilogue saved))
    (hcaller : m.cell (.frame m.base 8) = callerAddress) :
    ∃ pc' m₁ m', Reaches code pc m pc' m₁ ∧ pc' + 1 = pc + (epilogue saved).length ∧
      Returns code pc' m₁ m' ∧ Closes saved m m' := by
  obtain ⟨m₁, m', hrun, hreturn, hcloses⟩ := restore_ok hsaved hnodup hcaller
  rw [epilogue_eq] at hat ⊢
  refine ⟨_, m₁, m', reaches_of_executeAll hat.append_left hrun, ?_,
    ⟨run_zero hat.append_right.head, fun steps => ?_⟩, hcloses⟩
  · simp only [List.length_append, List.length_singleton, Nat.add_assoc]
  · rw [run_succ hat.append_right.head, advance_ret hreturn]

end Codegen

end ExprBackend
