import ExprBackend.Proofs.Labels
import ExprBackend.Proofs.Operations

/-!
# The code of a block

Running the code of a block leaves the value of the block on demand in its destination, and fails
if there is no such value. What is live behind the block is still held where it was.
-/

namespace ExprBackend

namespace Expr

theorem definite_value (x : Expr) (want : Want) : x.value.definite want = x.definite want := by
  cases x with
  | bind name init => rw [value, definite]
  | _ => rfl

theorem demand_value (x : Expr) (want : Want) (env : Env) (rax : UInt64) :
    x.value.demand want env rax = x.demand want env rax := by
  cases x with
  | bind name init => rw [value, demand]
  | _ => rfl

end Expr

namespace Codegen

open Machine Liveness

section Conditions

variable {code : Code} {pc : Nat} {func name : String} {n : Nat} {o : Operand}
  {xs first second : List Instr} {m : Machine} {w : UInt64}

theorem reaches_label (hat : code.At pc (.label name :: xs)) : Reaches code pc m (pc + 1) m :=
  reaches_of_advance hat.head (Nat.lt_succ_self pc) (advance_of_execute rfl)

/-- The comparison of a condition with 0. -/
theorem reaches_compared (hat : code.At pc ((unimm o).1 ++ Instr.cmp (unimm o).2 (.imm 0) :: xs))
    (ho : m.Source o w) (hint : o.isInt = true) :
    ∃ m₁, Reaches code pc m (pc + (unimm o).1.length + 1) m₁ ∧ ChangesOnly {.scratch} m m₁ ∧
      m₁.flags = some (.ofWords w 0) := by
  obtain ⟨m₁, d, hrun, hsame, hd⟩ := unimm_ok ho hint
  have hcmp := execute_cmp (w := 0) hd.noImm hd.zero hd.cell rfl
  rw [hd.value] at hcmp
  refine ⟨_, (reaches_of_executeAll hat.append_left hrun).trans ?_, hsame.setFlags _,
    flags_setFlags _ _⟩
  exact reaches_of_advance hat.append_right.head (Nat.lt_succ_self _) (advance_of_execute hcmp)

/-- A condition that is not 0 leads to the first branch, and from its end behind the second. -/
theorem reaches_first (hres : code.Resolves) (hat : code.At pc (branchCode func n o first second))
    (ho : m.Source o w) (hint : o.isInt = true) (hw : w ≠ 0) :
    ∃ start m₁, code.At start first ∧ Reaches code pc m start m₁ ∧ ChangesOnly {.scratch} m m₁ ∧
      ∀ m₂, Reaches code (start + first.length) m₂
        (pc + (branchCode func n o first second).length) m₂ := by
  have hcmp := hat.append_left.append_left
  have hjmp := hat.append_left.append_right
  have hend := hat.append_right
  obtain ⟨m₁, hreach, hsame, hflags⟩ := reaches_compared hcmp ho hint
  have hjcc := hcmp.append_right.tail
  have htest : Cond.test? (.ofWords w 0) .e = some false := by simp [Cond.test?, Flags.ofWords, hw]
  refine ⟨pc + (unimm o).1.length + 1 + 1, m₁, hjcc.tail,
    hreach.trans (reaches_jcc_passed hjcc hflags htest), hsame, fun m₂ => ?_⟩
  refine ((reaches_jmp hjmp ?_ (hres _ _ hend.head)).trans (reaches_label hend)).places ?_ ?_
  all_goals
    simp only [branchCode, List.length_append, List.length_cons, List.length_nil]
    omega

/-- A condition that is 0 leads to the second branch, and from its end behind it. -/
theorem reaches_second (hres : code.Resolves) (hat : code.At pc (branchCode func n o first second))
    (ho : m.Source o w) (hint : o.isInt = true) (hw : w = 0) :
    ∃ start m₁, code.At start second ∧ Reaches code pc m start m₁ ∧ ChangesOnly {.scratch} m m₁ ∧
      ∀ m₂, Reaches code (start + second.length) m₂
        (pc + (branchCode func n o first second).length) m₂ := by
  have hcmp := hat.append_left.append_left
  have hjmp := hat.append_left.append_right
  have hend := hat.append_right
  obtain ⟨m₁, hreach, hsame, hflags⟩ := reaches_compared hcmp ho hint
  have hjcc := hcmp.append_right.tail
  have htest : Cond.test? (.ofWords w 0) .e = some true := by simp [Cond.test?, Flags.ofWords, hw]
  have hjump := reaches_jcc_taken hjcc ?_ (hres _ _ hjmp.tail.head) hflags htest
  refine ⟨_, m₁, hjmp.tail.tail, (hreach.trans hjump).trans (reaches_label hjmp.tail), hsame,
    fun m₂ => (reaches_label hend).places ?_ ?_⟩
  all_goals
    simp only [branchCode, List.length_append, List.length_cons, List.length_nil]
    omega

end Conditions

/-- From one place to another, code leaves a value in a cell and something in `rax`, and keeps what
the function relies on; or it fails if there is no value. -/
def Delivers (code : Code) (pc pc' : Nat) (m : Machine) (c : Cell) (after : Machine → Prop) :
    Option (UInt64 × UInt64) → Prop
  | some (w, rax) => ∃ m', Reaches code pc m pc' m' ∧ m'.cell c = w ∧
      (c ≠ .rax → m'.cell .rax = rax) ∧
      (∀ k ∈ Cell.fixed m.base, k ≠ c → m'.cell k = m.cell k) ∧ after m'
  | none => Fails code pc m

theorem Cell.notMem_temporaries {base : Int64} {k : Cell} (h : k ∈ Cell.fixed base) :
    k ∉ Cell.temporaries := by
  rcases h with rfl | rfl | rfl | rfl <;>
    simp [Cell.temporaries, Cell.frame, Cell.rsp, Cell.rbp, Cell.rax, Cell.rdx, Cell.backup,
      Cell.scratch, Cell.xmm0, Cell.compareScratch, Cell.floatScratch]

/-- The names whose values are needed later are not held in a cell. -/
def Free (f : Func) (live : BitSet) (scope : Scope) (base : Int64) (c : Cell) : Prop :=
  ∀ z o, List.lookup z scope = some o → f.numbers.Live live z → o.cell? base ≠ some c

/-- Everything is in place to run code for a value that is wanted: `before` is live now and `after`
behind the code. -/
structure Ready (f : Func) (asg : Assignment) (pools : Pools) (slots : Nat) (names : Typing)
    (scope : Scope) (env : Env) (before after : BitSet) (want : Want) (d : Operand) (c : Cell)
    (m : Machine) : Prop where
  layout : Layout f asg pools m.base
  placed : Placed f asg slots names scope
  known : ∀ e ∈ names, e ∈ f.bindings
  slots_le : slots ≤ f.bindings.length
  holds : Holds f before names scope env m
  dest : Dest m.base want d c
  free : Free f after scope m.base c
  idle : ∀ held, want = .floatResult held → m.cell .xmm0 = held

section Delivers

variable {code : Code} {pc pc' p p' : Nat} {m m' : Machine} {c : Cell} {after : Machine → Prop}
  {r : Option (UInt64 × UInt64)} {xs : List Instr}

theorem Delivers.around (hbefore : Reaches code pc m p m')
    (hsame : ∀ k ∈ Cell.fixed m.base, m'.cell k = m.cell k) (h : Delivers code p p' m' c after r)
    (hbehind : ∀ m₂, Reaches code p' m₂ pc' m₂) : Delivers code pc pc' m c after r := by
  have hbase : m'.base = m.base := by rw [base, base, hsame .rbp (by simp [Cell.fixed])]
  cases r with
  | none => exact hbefore.fails h
  | some v =>
    obtain ⟨m₂, hreach, hw, hrax, hfixed, hafter⟩ := h
    refine ⟨m₂, (hbefore.trans hreach).trans (hbehind m₂), hw, hrax, fun k hk hne => ?_, hafter⟩
    rw [hfixed k (hbase.symm ▸ hk) hne, hsame k hk]

theorem Delivers.imp {after' : Machine → Prop} (h : Delivers code pc pc' m c after r)
    (hafter : ∀ m', after m' → after' m') : Delivers code pc pc' m c after' r := by
  cases r with
  | none => exact h
  | some v =>
    obtain ⟨m', hreach, hw, hrax, hfixed, hm'⟩ := h
    exact ⟨m', hreach, hw, hrax, hfixed, hafter m' hm'⟩

theorem Outcome.delivers (h : Outcome xs m c r) (hat : code.At pc xs)
    (hafter : ∀ m', ChangesOnly (insert c Cell.temporaries) m m' → after m') :
    Delivers code pc (pc + xs.length) m c after r := by
  cases r with
  | none => exact fails_of_traps hat h
  | some v =>
    obtain ⟨m₁, hrun, hw, hrax, hsame⟩ := h
    refine ⟨m₁, reaches_of_executeAll hat hrun, hw, hrax, fun k hk hne => hsame k ?_,
      hafter m₁ hsame⟩
    rintro (rfl | hmem)
    · exact hne rfl
    · exact Cell.notMem_temporaries hk hmem

end Delivers

section Holds

variable {f : Func} {asg : Assignment} {pools : Pools} {slots : Nat} {names names' : Typing}
  {scope : Scope} {env : Env} {m m' : Machine} {live live' before : BitSet} {want : Want}
  {d o : Operand} {c : Cell} {x : Expr}

theorem Holds.mono (h : Holds f live names scope env m)
    (hnames : names'.map Prod.fst ⊆ names.map Prod.fst)
    (hlive : ∀ z ∈ names'.map Prod.fst, f.numbers.Live live' z → f.numbers.Live live z) :
    Holds f live' names' scope env m :=
  fun z hz hz' => h z (hnames hz) (hlive z hz hz')

/-- Code that changes only its destination and temporaries leaves the values of names alone. -/
theorem Holds.after (h : Holds f live names scope env m)
    (hplaced : Placed f asg slots names scope) (hlayout : Layout f asg pools m.base)
    (hnames : ∀ e ∈ names, e ∈ f.bindings) (hslots : slots ≤ f.bindings.length)
    (hfree : Free f live scope m.base c) (hrbp : c ≠ .rbp)
    (hsame : ChangesOnly (insert c Cell.temporaries) m m') :
    Holds f live names scope env m' := by
  have hbase : m'.base = m.base := hsame.base_eq (by simp [hrbp.symm, Cell.temporaries]; decide)
  intro z hz hlive
  obtain ⟨w, o, hw, ho, hvalue⟩ := h z hz hlive
  obtain ⟨e, he, hreserved⟩ := hplaced.cell hlayout hnames hslots ho
  refine ⟨w, o, hw, ho, ?_⟩
  have hne : e ∉ insert c Cell.temporaries := by
    rintro (rfl | hmem)
    · exact hfree z o ho hlive he
    · exact hreserved (Or.inl hmem)
  rw [value?_of_cell? (hbase.symm ▸ he), hsame e hne, ← value?_of_cell? he, hvalue]

theorem Ready.operand (h : Ready f asg pools slots names scope env (liveExpr f.numbers x live) live
    want d c m) (hpart : f.ExprPart x names live) {a : Atom} (ha : a.inScope names = true)
    (hsub : a.reads ⊆ x.reads) (ho : scope.operand a = .ok o) : ∃ w, Operates m a env o w := by
  refine operand_ok h.layout h.placed h.known h.slots_le ha h.holds (fun z hz => ?_) ho
  exact (hpart.live_iff h.layout.loaded (Atom.reads_inScope ha z hz)).2 (Or.inl (hsub hz))

theorem Ready.delivers (h : Ready f asg pools slots names scope env (liveExpr f.numbers x live) live
    want d c m) (hpart : f.ExprPart x names live) {code : Code} {pc : Nat} {xs : List Instr}
    (hat : code.At pc xs) {r : Option (UInt64 × UInt64)} (hr : Outcome xs m c r) :
    Delivers code pc (pc + xs.length) m c (Holds f live names scope env) r := by
  refine hr.delivers hat fun m' hsame => ?_
  have hholds : Holds f live names scope env m := h.holds.mono (fun _ hz => hz) fun z hz hlive =>
    (hpart.live_iff h.layout.loaded hz).2 (Or.inr hlive)
  exact hholds.after h.placed h.layout h.known h.slots_le h.free h.dest.ne_rbp hsame

/-- The state at the start of a branch. -/
theorem Ready.enter (h : Ready f asg pools slots names scope env before live want d c m)
    (hsame : ChangesOnly {.scratch} m m') {slots' : Nat} (hle : slots ≤ slots')
    (hslots : slots' ≤ f.bindings.length)
    (hlive : ∀ z ∈ names.map Prod.fst, f.numbers.Live live' z → f.numbers.Live before z) :
    Ready f asg pools slots' names scope env live' live want d c m' := by
  have hbase : m'.base = m.base := hsame.base_eq (by simp; decide)
  have hplaced : Placed f asg slots' names scope := fun z o hz =>
    ⟨(h.placed z o hz).1, (h.placed.held hz).mono hle⟩
  have hfree : Free f before scope m.base .scratch := by
    intro z o ho _ hcell
    obtain ⟨e, he, hreserved⟩ := h.placed.cell h.layout h.known h.slots_le ho
    obtain rfl := Option.some.inj (hcell.symm.trans he)
    exact hreserved (Or.inl (by simp [Cell.temporaries]))
  have hholds := h.holds.after h.placed h.layout h.known h.slots_le hfree (by decide)
    (hsame.mono (by simp))
  refine ⟨hbase ▸ h.layout, hplaced, h.known, hslots, hholds.mono (fun _ h => h) hlive,
    hbase ▸ h.dest, hbase ▸ h.free, fun held hwant => ?_⟩
  rw [hsame _ (by simp; decide), h.idle held hwant]

end Holds

section Blocks

variable {f : Func} {asg : Assignment} {pools : Pools} {code : Code}

/-- Code for which nothing is put into the result register leaves what was there. -/
theorem delivers_idle {slots : Nat} {names : Typing} {scope : Scope} {env : Env} {live : BitSet}
    {want : Want} {d : Operand} {c : Cell} {m : Machine} {pc : Nat}
    (h : Ready f asg pools slots names scope env live live want d c m)
    (hwant : want.isName = false) :
    Delivers code pc pc m c (Holds f live names scope env)
      (some (want.idle (m.cell .rax), m.cell .rax)) := by
  refine ⟨m, .refl code pc m, ?_, fun _ => rfl, fun _ _ _ => rfl, h.holds⟩
  rw [h.dest.result_cell hwant]
  cases want with
  | result => rfl
  | floatResult held => exact h.idle held rfl
  | name b => cases hwant

theorem statement_scope {func : String} {x : Expr} {scope scope' : Scope} {d : Operand}
    {s s' : Supply} {xs : List Instr}
    (h : statement func asg x scope (some d) s = .ok ((xs, scope'), s'))
    (hx : x.isBind = false) : scope' = scope := by
  cases x with
  | atom x =>
    obtain ⟨_, _, _, hscope, _⟩ := statement_atom.1 h
    exact hscope
  | bind name init => cases hx
  | unary op x ty =>
    obtain ⟨_, _, _, hscope, _⟩ := statement_unary.1 h
    exact hscope
  | binary op l r ty => exact (statement_binary.1 h).2.1
  | branch cond onTrue onFalse =>
    obtain ⟨_, _, _, _, _, _, _, _, hscope⟩ := statement_branch.1 h
    exact hscope
  | missing => cases h

/-- A float literal can not be compared with 0. -/
theorem fails_of_floatLiteral {cond : Atom} {scope : Scope} {o : Operand} {func : String}
    {n pc : Nat} {first second : List Instr} {m : Machine} (hcond : cond.isFloatLiteral = true)
    (ho : scope.operand cond = .ok o) (hat : code.At pc (branchCode func n o first second)) :
    Fails code pc m := by
  rw [Atom.isFloatLiteral, Bool.and_eq_true, Bool.not_eq_true', decide_eq_true_iff] at hcond
  simp only [Scope.operand, hcond.1, Bool.false_eq_true, if_false, hcond.2, if_true] at ho
  obtain rfl := Except.ok.inj ho
  have hload : code.At pc [.mov scratch (.fimm cond.word)] :=
    hat.append_left.append_left.append_left
  exact fails_of_traps hload ⟨_, m, executeAll_cons_error rfl [], by simp⟩

theorem ne_float_of_definite {cond : Atom} (h : (cond.isVar && decide (cond.ty = .float)) = false)
    (hliteral : cond.isFloatLiteral = false) : cond.ty ≠ .float := by
  intro hty
  simp only [Atom.isFloatLiteral, hty, decide_true, Bool.and_true] at h hliteral
  rw [h] at hliteral
  cases hliteral

/-- A binding has no storage exactly if its name is not read in the rest of the block. -/
theorem dead_iff (hfits : asg.Fits f pools) {names : Typing} {live : BitSet} {name : String}
    {init : Expr} {xs : List Expr} (hpart : f.BlockPart (.bind name init :: xs) names live) :
    asg.find? name = some .none ↔ name ∉ blockReads xs := by
  have hmem : name ∈ (Expr.bind name init).declares.map Prod.fst := by simp [Expr.declares]
  have hbound : (name, init.tyOf) ∈ f.bindings := hpart.bound _ (by
    rw [blockBindings, Expr.bindings]
    simp)
  rw [hfits.dead_iff name (List.mem_map_of_mem hbound), hpart.read_iff hmem]

/-- A statement that binds nothing which is read has no code. -/
theorem statement_skip (hfits : asg.Fits f pools) {names : Typing} {live : BitSet} {x : Expr}
    {xs : List Expr} {func : String} {scope scope' : Scope} {s s' : Supply} {first : List Instr}
    (hpart : f.BlockPart (x :: xs) names live)
    (hunread : ∀ z ∈ x.declares.map Prod.fst, z ∉ blockReads xs)
    (h : statement func asg x scope none s = .ok ((first, scope'), s')) :
    first = [] ∧ scope' = scope ∧ s' = s := by
  obtain ⟨name, init, rfl⟩ | hskip := statement_unwanted h
  · have hdead := (dead_iff hfits hpart).2 (hunread name (by simp [Expr.declares]))
    rw [statement_bind_none (location_none hdead s)] at h
    have hwf := hpart.wellFormed
    rw [blockWellFormed, Bool.and_eq_true] at hwf
    obtain ⟨_, hbind⟩ := Expr.wellFormed_value hwf.1
    obtain ⟨name', init', rfl⟩ | hskip := statement_unwanted h
    · cases hbind
    · exact hskip
  · exact hskip

/-- Nothing is read behind the last statement of a block, so that a name that it binds has no
storage. -/
theorem statement_value (hfits : asg.Fits f pools) {names : Typing} {live : BitSet} {x : Expr}
    {func : String} {scope : Scope} {dst : Option Operand} {s : Supply}
    {r : (List Instr × Scope) × Supply} (hpart : f.BlockPart [x] names live)
    (h : statement func asg x scope dst s = .ok r) :
    statement func asg x.value scope dst s = .ok r := by
  cases x with
  | bind name init =>
    have hdead := (dead_iff hfits hpart).2 (by simp [blockReads])
    rwa [statement_bind_none (location_none hdead s)] at h
  | _ => exact h

/-- A name that is read has a place, in which its value is made. -/
theorem statement_bind_read (hfits : asg.Fits f pools) {names : Typing} {live : BitSet}
    {name : String} {init : Expr} {xs : List Expr} {func : String} {scope scope' : Scope}
    {s s' : Supply} {is : List Instr} (hpart : f.BlockPart (.bind name init :: xs) names live)
    (hread : name ∈ blockReads xs)
    (h : statement func asg (.bind name init) scope none s = .ok ((is, scope'), s')) :
    ∃ p s₀, location asg name s = .ok (some p, s₀) ∧
      statement func asg init scope (some p) s₀ = .ok ((is, scope), s') ∧
      scope' = (name, p) :: scope ∧ init.isBind = false := by
  have hwf := hpart.wellFormed
  rw [blockWellFormed, Bool.and_eq_true] at hwf
  obtain ⟨_, hbind⟩ := Expr.wellFormed_value hwf.1
  obtain ⟨place, s₀, hloc⟩ := statement_bind h
  cases place with
  | none =>
    rcases location_cases hloc with ⟨hdead, _⟩ | ⟨_, _, h, _⟩ | ⟨_, _, h, _⟩ | ⟨_, h, _⟩
    · exact absurd hread ((dead_iff hfits hpart).1 hdead)
    · cases h
    · cases h
    · cases h
  | some p =>
    obtain ⟨before, scope₂, last, hinit, hlast, rfl, rfl⟩ := (statement_bind_some hloc).1 h
    obtain rfl : [] = last := Except.ok.inj hlast
    obtain rfl := statement_scope hinit hbind
    rw [List.append_nil]
    exact ⟨p, s₀, hloc, hinit, rfl, hbind⟩

theorem kept_of_scratch {m m' : Machine} (h : ChangesOnly {.scratch} m m') :
    ∀ k ∈ Cell.fixed m.base, m'.cell k = m.cell k := by
  intro k hk
  refine h k fun hmem => Cell.notMem_temporaries hk ?_
  rw [hmem]
  simp [Cell.temporaries]

section Step

variable {names : Typing} {scope : Scope} {env : Env} {live : BitSet} {want : Want} {d p : Operand}
  {c e : Cell} {m m' : Machine} {x : Expr} {xs : List Expr} {name : String} {init : Expr}
  {s s' : Supply} {slots : Nat}

/-- The state behind a statement without code. -/
theorem Ready.skip (h : Ready f asg pools slots names scope env
      (liveBlock f.numbers (x :: xs) live) live want d c m)
    (hpart : f.BlockPart (x :: xs) names live)
    (hunread : ∀ z ∈ x.declares.map Prod.fst, z ∉ blockReads xs) :
    Ready f asg pools slots (x.declares ++ names) scope env (liveBlock f.numbers xs live) live want
      d c m := by
  refine { h with
    placed := fun z o hz => ?_, known := hpart.tail.known, holds := fun z hz hlive => ?_ }
  · obtain ⟨hmem, hheld⟩ := h.placed z o hz
    rw [List.map_append]
    exact ⟨List.mem_append_right _ hmem, hheld⟩
  · rw [List.map_append, List.mem_append] at hz
    rcases hz with hz | hz
    · exact absurd hlive (hpart.not_live h.layout.loaded hz (hunread z hz))
    · exact h.holds z hz (hpart.live_tail h.layout.loaded hz hlive)

/-- The point behind a binding, at which its name and all names that are needed later are live. -/
theorem apart_of_binding (hlayout : Layout f asg pools m.base) {y : Expr}
    (hpart : f.BlockPart (.bind name init :: y :: xs) names live)
    (hread : name ∈ blockReads (y :: xs)) {z : String} (hz : z ∈ names.map Prod.fst)
    (hlive : f.numbers.Live (liveBlock f.numbers (y :: xs) live) z) :
    ∀ l, l.isRegister = true → asg.find? name = some l → asg.find? z ≠ some l := by
  have hmem : name ∈ ((Expr.bind name init).declares ++ names).map Prod.fst := by
    simp [Expr.declares]
  have hpoint : (⟨y, liveBlock f.numbers (y :: xs) live⟩ : Point) ∈ f.points := by
    refine hpart.tail.points_sub _ ?_
    rw [blockPoints, liveBlock]
    simp
  have hne : name ≠ z := by
    rintro rfl
    refine hpart.fresh name hz ?_
    rw [blockBindings, Expr.bindings]
    simp
  refine hlayout.fits.apart _ hpoint name z hne ?_ hlive
  exact (hpart.tail.live_iff hlayout.loaded hmem).2 (Or.inl hread)

/-- The state at the start of the value of a name that is read. -/
theorem Ready.value {y : Expr} (h : Ready f asg pools s.slots.used names scope env
      (liveBlock f.numbers (.bind name init :: y :: xs) live) live want d c m)
    (hpart : f.BlockPart (.bind name init :: y :: xs) names live)
    (hread : name ∈ blockReads (y :: xs)) (hloc : location asg name s = .ok (some p, s'))
    (hslots : s'.slots.used ≤ f.bindings.length) :
    ∃ e, p.cell? m.base = some e ∧ e ∉ Cell.reserved m.base ∧
      Ready f asg pools s'.slots.used names scope env
        (liveExpr f.numbers init (liveBlock f.numbers (y :: xs) live))
        (liveBlock f.numbers (y :: xs) live) (.name (decide (init.tyOf = .float))) p e m := by
  have hbound : (name, init.tyOf) ∈ f.bindings := hpart.bound _ (by
    rw [blockBindings, Expr.bindings]
    simp)
  have hheld := location_held hloc f.params.length
  obtain ⟨e, he, hreserved⟩ := (hheld.mono hslots).cell h.layout.fits h.layout.accepted
    (List.mem_map_of_mem hbound) h.layout.aligned h.layout.room
  have hroom : Room s'.slots.used f.params.length := by
    have := h.layout.room
    exact ⟨Nat.le_trans (by omega) this.slots, this.args⟩
  refine ⟨e, he, hreserved, h.layout, fun z o hz => ?_, h.known, hslots, ?_,
    ⟨he, ?_, by simp, ?_, ?_⟩, ?_, by simp⟩
  · exact ⟨(h.placed z o hz).1, (h.placed.held hz).mono (location_slots hloc).1⟩
  · exact h.holds.mono (fun _ hz => hz) fun z hz => (hpart.live_head h.layout.loaded hz).2
  · intro hx
    cases hheld with
    | xreg hfind =>
      simpa [Want.isFloat] using (xreg_of_fits h.layout.fits h.layout.accepted hbound hfind).1
    | _ => cases hx
  · intro hwant
    cases hwant
  · exact fun _ => hreserved
  · intro z o ho hlive hcell
    have hapart := apart_of_binding h.layout hpart hread (h.placed z o ho).1 hlive
    exact location_apart hloc (h.placed.held ho) hapart h.layout.aligned hroom he hcell rfl

/-- The state behind the binding of a name that is read. -/
theorem Ready.bound {y : Expr} {a : UInt64} (h : Ready f asg pools slots names scope env
      (liveBlock f.numbers (.bind name init :: y :: xs) live) live want d c m)
    (hpart : f.BlockPart (.bind name init :: y :: xs) names live)
    (hheld : Held asg s.slots.used f.params.length name p) (hle : slots ≤ s.slots.used)
    (hslots : s.slots.used ≤ f.bindings.length) (he : p.cell? m.base = some e)
    (ha : m'.cell e = a)
    (hfixed : ∀ k ∈ Cell.fixed m.base, m'.cell k = m.cell k)
    (hholds : Holds f (liveBlock f.numbers (y :: xs) live) names scope env m') :
    Ready f asg pools s.slots.used ((Expr.bind name init).declares ++ names) ((name, p) :: scope)
      ((name, a) :: env) (liveBlock f.numbers (y :: xs) live) live want d c m' := by
  have hbase : m'.base = m.base := by rw [base, base, hfixed .rbp (by simp [Cell.fixed])]
  have hfresh : name ∉ names.map Prod.fst := by
    intro hmem
    refine hpart.fresh name hmem ?_
    rw [blockBindings, Expr.bindings]
    simp
  refine ⟨hbase ▸ h.layout, fun z o hz => ?_, hpart.tail.known, hslots, fun z hz hlive => ?_,
    hbase ▸ h.dest, fun z o hz hlive => ?_, fun held hwant => ?_⟩
  · rw [List.lookup_cons] at hz
    split at hz
    next heq =>
      obtain rfl := eq_of_beq heq
      obtain rfl := Option.some.inj hz
      exact ⟨by simp [Expr.declares], hheld⟩
    next =>
      refine ⟨?_, (h.placed.held hz).mono hle⟩
      rw [List.map_append]
      exact List.mem_append_right _ (h.placed z o hz).1
  · by_cases heq : z = name
    · subst heq
      refine ⟨a, p, List.lookup_cons_self, List.lookup_cons_self, ?_⟩
      rw [value?_of_cell? (hbase.symm ▸ he), ha]
    · rw [List.lookup_cons, List.lookup_cons, beq_eq_false_iff_ne.2 heq]
      refine hholds z ?_ hlive
      simpa [Expr.declares, heq] using hz
  · rw [List.lookup_cons] at hz
    rw [hbase]
    split at hz
    next heq =>
      obtain rfl := eq_of_beq heq
      refine absurd hlive (hpart.ended z ?_)
      rw [blockBindings, Expr.bindings]
      simp
    next => exact h.free z o hz hlive
  · rw [hfixed _ (by simp [Cell.fixed]), h.idle held hwant]

/-- What is held behind a block that starts with a binding is held for the names before it. -/
theorem Holds.unbind {a : UInt64} (hpart : f.BlockPart (.bind name init :: xs) names live)
    (h : Holds f live ((Expr.bind name init).declares ++ names) ((name, p) :: scope)
      ((name, a) :: env) m) : Holds f live names scope env m := by
  intro z hz hlive
  have hne : z ≠ name := by
    rintro rfl
    refine hpart.fresh z hz ?_
    rw [blockBindings, Expr.bindings]
    simp
  have hz' : z ∈ ((Expr.bind name init).declares ++ names).map Prod.fst := by
    rw [List.map_append]
    exact List.mem_append_right _ hz
  have hheld := h z hz' hlive
  rwa [List.lookup_cons, List.lookup_cons, beq_eq_false_iff_ne.2 hne] at hheld

end Step

section Branches

variable {names : Typing} {scope : Scope} {env : Env} {live : BitSet} {want : Want} {d o : Operand}
  {c : Cell} {m : Machine} {cond : Atom} {onTrue : List Expr} {onFalse : Option (List Expr)}
  {slots slots' n pc : Nat} {first second : List Instr} {w : UInt64} {after : Machine → Prop}
  {r : UInt64 → Option (UInt64 × UInt64)}

/-- If the condition holds, the first branch delivers. -/
theorem Ready.delivers_first (h : Ready f asg pools slots names scope env
      (liveExpr f.numbers (.branch cond onTrue onFalse) live) live want d c m)
    (hres : code.Resolves) (hat : code.At pc (branchCode f.name n o first second))
    (hw : Operates m cond env o w) (hint : o.isInt = true) (hne : w ≠ 0)
    (hfirst : ∀ start m₁, code.At start first →
      Ready f asg pools slots names scope env (liveBlock f.numbers onTrue live) live want d c m₁ →
      Delivers code start (start + first.length) m₁ c after (r (m₁.cell .rax))) :
    Delivers code pc (pc + (branchCode f.name n o first second).length) m c after
      (r (m.cell .rax)) := by
  obtain ⟨start, m₁, hat₁, hreach, hsame, hbehind⟩ := reaches_first hres hat hw.source hint hne
  have hstart := h.enter hsame (Nat.le_refl _) h.slots_le fun z hz hlive => Func.live_onTrue hlive
  rw [← hsame .rax (by simp; decide)]
  exact (hfirst start m₁ hat₁ hstart).around hreach (kept_of_scratch hsame) hbehind

/-- If the condition does not hold, the second branch delivers, behind the slots of the first. -/
theorem Ready.delivers_second {live' : BitSet} (h : Ready f asg pools slots names scope env
      (liveExpr f.numbers (.branch cond onTrue onFalse) live) live want d c m)
    (hres : code.Resolves) (hat : code.At pc (branchCode f.name n o first second))
    (hw : Operates m cond env o w) (hint : o.isInt = true) (hzero : w = 0) (hle : slots ≤ slots')
    (hslots : slots' ≤ f.bindings.length)
    (hlive : ∀ z ∈ names.map Prod.fst, f.numbers.Live live' z →
      f.numbers.Live (liveExpr f.numbers (.branch cond onTrue onFalse) live) z)
    (hsecond : ∀ start m₁, code.At start second →
      Ready f asg pools slots' names scope env live' live want d c m₁ →
      Delivers code start (start + second.length) m₁ c after (r (m₁.cell .rax))) :
    Delivers code pc (pc + (branchCode f.name n o first second).length) m c after
      (r (m.cell .rax)) := by
  obtain ⟨start, m₁, hat₁, hreach, hsame, hbehind⟩ := reaches_second hres hat hw.source hint hzero
  have hstart := h.enter hsame hle hslots hlive
  rw [← hsame .rax (by simp; decide)]
  exact (hsecond start m₁ hat₁ hstart).around hreach (kept_of_scratch hsame) hbehind

/-- A float literal can not be tested. Any other condition leads to one of the branches. -/
theorem Operates.branch {func : String} {pc' : Nat} {r r' : Option (UInt64 × UInt64)}
    (hw : Operates m cond env o w) (ho : scope.operand cond = .ok o)
    (hdefinite : (cond.isVar && decide (cond.ty = .float)) = false)
    (hat : code.At pc (branchCode func n o first second))
    (hfirst : o.isInt = true → w ≠ 0 → Delivers code pc pc' m c after r)
    (hsecond : o.isInt = true → w = 0 → Delivers code pc pc' m c after r') :
    Delivers code pc pc' m c after
      (if cond.isFloatLiteral then none else if w ≠ 0 then r else r') := by
  cases hliteral : cond.isFloatLiteral with
  | true => exact fails_of_floatLiteral hliteral ho hat
  | false =>
    have hint := hw.isInt (ne_float_of_definite hdefinite hliteral)
    by_cases hzero : w = 0
    · rw [if_neg Bool.false_ne_true, if_neg (not_not_intro hzero)]
      exact hsecond hint hzero
    · rw [if_neg Bool.false_ne_true, if_pos hzero]
      exact hfirst hint hzero

end Branches

/-- Wherever it stands, the code of an expression that is no binding delivers the value of the
expression on demand. -/
def ExprDelivers (f : Func) (asg : Assignment) (pools : Pools) (code : Code) (x : Expr) : Prop :=
  x.isBind = false → ∀ ⦃names : Typing⦄ ⦃live : BitSet⦄ ⦃scope scope' : Scope⦄ ⦃env : Env⦄
    ⦃want : Want⦄ ⦃d : Operand⦄ ⦃c : Cell⦄ ⦃s s' : Supply⦄ ⦃is : List Instr⦄ ⦃m : Machine⦄
    ⦃pc : Nat⦄, f.ExprPart x names live → x.definite want = true →
    statement f.name asg x scope (some d) s = .ok ((is, scope'), s') →
    s.slots.used + x.bindings.length ≤ f.bindings.length → code.At pc is →
    Ready f asg pools s.slots.used names scope env (liveExpr f.numbers x live) live want d c m →
    Delivers code pc (pc + is.length) m c (Holds f live names scope env)
      (x.demand want env (m.cell .rax))

def BlockDelivers (f : Func) (asg : Assignment) (pools : Pools) (code : Code) (xs : List Expr) :
    Prop :=
  ∀ ⦃names : Typing⦄ ⦃live : BitSet⦄ ⦃scope : Scope⦄ ⦃env : Env⦄ ⦃want : Want⦄ ⦃d : Operand⦄
    ⦃c : Cell⦄ ⦃s s' : Supply⦄ ⦃is : List Instr⦄ ⦃m : Machine⦄ ⦃pc : Nat⦄,
    f.BlockPart xs names live → blockDefinite xs want = true →
    block f.name asg xs scope (some d) s = .ok (is, s') →
    s.slots.used + (blockBindings xs).length ≤ f.bindings.length → code.At pc is →
    Ready f asg pools s.slots.used names scope env (liveBlock f.numbers xs live) live want d c m →
    Delivers code pc (pc + is.length) m c (Holds f live names scope env)
      (blockDemand xs want env (m.cell .rax))

section Cases

variable {x y init : Expr} {xs onTrue b : List Expr} {cond : Atom} {name : String}

theorem ExprDelivers.of_value (h : ExprDelivers f asg pools code x.value) :
    ExprDelivers f asg pools code x := by
  intro hbind
  rw [Expr.value_of_isBind hbind] at h
  exact h hbind

theorem ExprDelivers.atom (a : Atom) : ExprDelivers f asg pools code (.atom a) := by
  intro _ names live scope scope' env want d c s s' is m pc hpart _ hcode _ hat hready
  have ha := hpart.wellFormed
  rw [Expr.wellFormed] at ha
  obtain ⟨src, hsrc, hmove, _⟩ := statement_atom.1 hcode
  obtain ⟨w, hw⟩ := hready.operand hpart ha (by simp [Expr.reads]) hsrc
  exact hready.delivers hpart hat (atom_outcome hready.dest hw hmove)

theorem ExprDelivers.unary (op : UnOp) (a : Atom) (ty : Ty) :
    ExprDelivers f asg pools code (.unary op a ty) := by
  intro _ names live scope scope' env want d c s s' is m pc hpart hdefinite hcode _ hat hready
  have hwf := hpart.wellFormed
  simp only [Expr.wellFormed, Bool.and_eq_true, decide_eq_true_eq] at hwf
  obtain ⟨src, hsrc, hunary, _⟩ := statement_unary.1 hcode
  obtain ⟨w, hw⟩ := hready.operand hpart hwf.1.1.2 (by simp [Expr.reads]) hsrc
  exact hready.delivers hpart hat (unary_outcome hready.dest hw hwf.2 hdefinite hunary)

theorem ExprDelivers.binary (op : BinOp) (l r : Atom) (ty : Ty) :
    ExprDelivers f asg pools code (.binary op l r ty) := by
  intro _ names live scope scope' env want d c s s' is m pc hpart hdefinite hcode _ hat hready
  have hwf := hpart.wellFormed
  simp only [Expr.wellFormed, Bool.and_eq_true, decide_eq_true_eq] at hwf
  obtain ⟨⟨⟨⟨⟨⟨_, hl⟩, hr⟩, hlop⟩, hrop⟩, hlty⟩, hrty⟩ := hwf
  obtain ⟨hbinary, _, _⟩ := statement_binary.1 hcode
  obtain ⟨p, q, hp, hq⟩ := binary_operands hbinary
  obtain ⟨a, ha⟩ := hready.operand hpart hl (by simp [Expr.reads]) hp
  obtain ⟨b, hb⟩ := hready.operand hpart hr (by simp [Expr.reads]) hq
  exact hready.delivers hpart hat (binary_outcome hready.dest ha hb hp hq hlty hrty hlop hrop
    hdefinite hbinary)

theorem ExprDelivers.branch_one (hres : code.Resolves)
    (hfirst : BlockDelivers f asg pools code onTrue) :
    ExprDelivers f asg pools code (.branch cond onTrue none) := by
  intro _ names live scope scope' env want d c s s' is m pc hpart hdefinite hcode hroom hat hready
  have hwf := hpart.wellFormed
  rw [Expr.wellFormed, Bool.and_eq_true] at hwf
  simp only [Expr.definite, Bool.and_eq_true, Bool.not_eq_true'] at hdefinite
  rw [Expr.bindings] at hroom
  obtain ⟨o, first, s₁, second, ho, hblock, hsecond, rfl, _⟩ := statement_branch.1 hcode
  obtain ⟨rfl, rfl⟩ := StateT.pure_eq_ok.1 hsecond
  obtain ⟨w, hw⟩ := hready.operand hpart hwf.1 (by simp [Expr.reads]) ho
  have hlive (z : String) (hz : z ∈ names.map Prod.fst) (hlive : f.numbers.Live live z) :=
    (hpart.live_iff hready.layout.loaded hz).2 (Or.inr hlive)
  simp only [Expr.demand, hw.eval, Option.bind_eq_bind, Option.bind_some]
  apply hw.branch ho hdefinite.1.1 hat
  · intro hint hne
    exact hready.delivers_first hres hat hw hint hne fun start m₁ hat₁ hstart =>
      hfirst hpart.onlyBranch hdefinite.1.2 hblock hroom hat₁ hstart
  · intro hint hzero
    exact hready.delivers_second hres hat hw hint hzero (Nat.le_refl _) hready.slots_le hlive
      (r := fun rax => some (want.idle rax, rax)) fun start m₁ _ hstart =>
        delivers_idle hstart hdefinite.2

theorem ExprDelivers.branch_both (hres : code.Resolves)
    (hfirst : BlockDelivers f asg pools code onTrue) (hsecond : BlockDelivers f asg pools code b) :
    ExprDelivers f asg pools code (.branch cond onTrue (some b)) := by
  intro _ names live scope scope' env want d c s s' is m pc hpart hdefinite hcode hroom hat hready
  have hwf := hpart.wellFormed
  simp only [Expr.wellFormed, Bool.and_eq_true] at hwf
  simp only [Expr.definite, Bool.and_eq_true, Bool.not_eq_true'] at hdefinite
  rw [Expr.bindings, List.length_append] at hroom
  obtain ⟨o, first, s₁, second, ho, hblock, hblock', rfl, _⟩ := statement_branch.1 hcode
  obtain ⟨hle, hslots⟩ := block_slots onTrue hblock
  dsimp only at hle hslots
  obtain ⟨w, hw⟩ := hready.operand hpart hwf.1.1 (by simp [Expr.reads]) ho
  simp only [Expr.demand, hw.eval, Option.bind_eq_bind, Option.bind_some]
  apply hw.branch ho hdefinite.1.1 hat
  · intro hint hne
    exact hready.delivers_first hres hat hw hint hne fun start m₁ hat₁ hstart =>
      hfirst hpart.firstBranch hdefinite.1.2 hblock (by dsimp only; omega) hat₁ hstart
  · intro hint hzero
    exact hready.delivers_second hres hat hw hint hzero hle (by omega)
      (fun z hz => Func.live_onFalse) fun start m₁ hat₁ hstart =>
        hsecond hpart.secondBranch hdefinite.2 hblock' (by omega) hat₁ hstart

theorem ExprDelivers.missing : ExprDelivers f asg pools code .missing := by
  intro _ names live scope scope' env want d c s s' is m pc hpart
  have hwf := hpart.wellFormed
  simp [Expr.wellFormed] at hwf

theorem BlockDelivers.nil : BlockDelivers f asg pools code [] := by
  intro names live scope env want d c s s' is m pc _ hdefinite hcode _ _ hready
  obtain ⟨rfl, _⟩ := block_nil.1 hcode
  rw [blockDefinite, Bool.not_eq_true'] at hdefinite
  rw [liveBlock] at hready
  rw [blockDemand]
  exact delivers_idle hready hdefinite

/-- The last statement of a block is as good as its value: no name is read behind it. -/
theorem BlockDelivers.single (hx : ExprDelivers f asg pools code x.value) :
    BlockDelivers f asg pools code [x] := by
  intro names live scope env want d c s s' is m pc hpart hdefinite hcode hroom hat hready
  obtain ⟨scope', hstatement⟩ := block_single.1 hcode
  have hvalue := hpart.head hready.layout.loaded
  have hwf := hpart.wellFormed
  rw [blockWellFormed, Bool.and_eq_true] at hwf
  obtain ⟨_, hbind⟩ := Expr.wellFormed_value hwf.1
  have hstart : Ready f asg pools s.slots.used names scope env
      (liveExpr f.numbers x.value (liveBlock f.numbers [] live)) live want d c m :=
    { hready with
      holds := hready.holds.mono (fun _ hz => hz) fun z hz =>
        (hpart.live_head hready.layout.loaded hz).2 }
  have hroom' : s.slots.used + x.value.bindings.length ≤ f.bindings.length := by
    rw [blockBindings, Expr.bindings_eq, List.length_append, List.length_append] at hroom
    omega
  rw [liveBlock] at hvalue hstart
  rw [blockDefinite, ← Expr.definite_value] at hdefinite
  rw [blockDemand, ← Expr.demand_value]
  exact hx hbind hvalue hdefinite (statement_value hready.layout.fits hpart hstatement) hroom' hat
    hstart

theorem BlockDelivers.skip (hunread : ∀ z ∈ x.declares.map Prod.fst, z ∉ blockReads (y :: xs))
    (hrest : BlockDelivers f asg pools code (y :: xs)) :
    BlockDelivers f asg pools code (x :: y :: xs) := by
  intro names live scope env want d c s s' is m pc hpart hdefinite hcode hroom hat hready
  obtain ⟨first, scope₁, s₁, rest, hx, hblock, rfl⟩ := block_cons.1 hcode
  obtain ⟨rfl, rfl, rfl⟩ := statement_skip hready.layout.fits hpart hunread hx
  rw [blockBindings, List.length_append] at hroom
  rw [blockDemand_skip hunread]
  refine (hrest hpart.tail (blockDefinite_tail hdefinite) hblock (by omega) hat
    (hready.skip hpart hunread)).imp fun m' hholds => hholds.mono ?_ fun _ _ hlive => hlive
  rw [List.map_append]
  exact List.subset_append_right _ _

theorem BlockDelivers.bind (hread : name ∈ blockReads (y :: xs))
    (hinit : ExprDelivers f asg pools code init)
    (hrest : BlockDelivers f asg pools code (y :: xs)) :
    BlockDelivers f asg pools code (.bind name init :: y :: xs) := by
  intro names live scope env want d c s s' is m pc hpart hdefinite hcode hroom hat hready
  obtain ⟨first, scope₁, s₁, rest, hx, hblock, rfl⟩ := block_cons.1 hcode
  obtain ⟨p, s₀, hloc, hvalue, rfl, hbind⟩ := statement_bind_read hready.layout.fits hpart hread hx
  have hone := location_slots hloc
  have hinner := statement_slots init hvalue
  rw [blockBindings, Expr.bindings, List.length_append, List.length_append,
    List.length_singleton] at hroom
  obtain ⟨e, he, hreserved, hstart⟩ := hready.value hpart hread hloc (by omega)
  have hdelivers := hinit hbind (hpart.head hready.layout.loaded)
    (blockDefinite_bind hdefinite hread) hvalue (by omega) hat.append_left hstart
  rw [blockDemand_bind hread]
  cases hdemand : init.demand (.name (decide (init.tyOf = .float))) env (m.cell .rax) with
  | none =>
    rw [hdemand] at hdelivers
    exact hdelivers
  | some v =>
    rw [hdemand] at hdelivers
    obtain ⟨m₁, hreach, ha, hrax, hfixed, hholds⟩ := hdelivers
    have hkept : ∀ k ∈ Cell.fixed m.base, m₁.cell k = m.cell k := fun k hk =>
      hfixed k hk fun hke => hreserved (Or.inr (hke ▸ hk))
    have hne : e ≠ .rax := fun h => hreserved (Or.inl (by simp [h, Cell.temporaries]))
    have hnext := hready.bound hpart ((location_held hloc _).mono hinner.1) (by omega) (by omega) he
      ha hkept hholds
    have hthen := hrest hpart.tail (blockDefinite_tail hdefinite) hblock (by omega) hat.append_right
      hnext
    rw [hrax hne] at hthen
    refine (hthen.imp fun m' h => h.unbind hpart).around hreach hkept fun m₂ => ?_
    rw [List.length_append, ← Nat.add_assoc]
    exact .refl code _ m₂

theorem BlockDelivers.cons (hx : ExprDelivers f asg pools code x.value)
    (hrest : BlockDelivers f asg pools code (y :: xs)) :
    BlockDelivers f asg pools code (x :: y :: xs) := by
  by_cases hunread : ∀ z ∈ x.declares.map Prod.fst, z ∉ blockReads (y :: xs)
  · exact .skip hunread hrest
  · push Not at hunread
    obtain ⟨z, hz, hread⟩ := hunread
    cases x with
    | bind name init =>
      obtain rfl : z = name := by simpa [Expr.declares] using hz
      exact .bind hread hx hrest
    | _ => simp [Expr.declares] at hz

end Cases

mutual

theorem value_delivers (hres : code.Resolves) : ∀ x : Expr, ExprDelivers f asg pools code x.value
  | .atom a => .atom a
  | .bind _ init => .of_value (value_delivers hres init)
  | .unary op a ty => .unary op a ty
  | .binary op l r ty => .binary op l r ty
  | .branch _ onTrue none => .branch_one hres (block_delivers hres onTrue)
  | .branch _ onTrue (some b) =>
    .branch_both hres (block_delivers hres onTrue) (block_delivers hres b)
  | .missing => .missing

theorem block_delivers (hres : code.Resolves) : ∀ xs : List Expr, BlockDelivers f asg pools code xs
  | [] => .nil
  | [x] => .single (value_delivers hres x)
  | x :: y :: xs => .cons (value_delivers hres x) (block_delivers hres (y :: xs))

end

end Blocks

end Codegen

end ExprBackend
