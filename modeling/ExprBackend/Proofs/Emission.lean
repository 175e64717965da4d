import ExprBackend.Codegen.Function
import ExprBackend.Proofs.Results

/-!
# How code is put together

For each kind of statement, what its code consists of. A statement has code exactly if its parts
have.
-/

namespace ExprBackend.Codegen

variable {func name : String} {asg : Assignment} {scope scope' : Scope} {dst : Option Operand}
  {d : Operand} {s s' : Supply} {code : List Instr}

theorem lift_eq_ok {α : Type} {x : Gen α} {a : α} :
    (liftM x : Emit α) s = .ok (a, s') ↔ x = .ok a ∧ s' = s := by
  change (x >>= fun a => .ok (a, s)) = _ ↔ _
  rw [Except.bind_eq_ok]
  constructor
  · rintro ⟨b, hx, h⟩
    cases h
    exact ⟨hx, rfl⟩
  · rintro ⟨hx, rfl⟩
    exact ⟨a, hx, rfl⟩

theorem statement_atom {x : Atom} :
    statement func asg (.atom x) scope dst s = .ok ((code, scope'), s') ↔
      ∃ src, scope.operand x = .ok src ∧ deliver dst src = .ok code ∧ scope' = scope ∧ s' = s := by
  rw [statement, StateT.bind_eq_ok]
  simp only [lift_eq_ok, StateT.bind_eq_ok, StateT.pure_eq_ok, Prod.mk.injEq]
  constructor
  · rintro ⟨src, _, ⟨hsrc, rfl⟩, c, _, ⟨hc, rfl⟩, ⟨rfl, rfl⟩, rfl⟩
    exact ⟨src, hsrc, hc, rfl, rfl⟩
  · rintro ⟨src, hsrc, hc, rfl, rfl⟩
    exact ⟨src, _, ⟨hsrc, rfl⟩, code, _, ⟨hc, rfl⟩, ⟨rfl, rfl⟩, rfl⟩

/-- A name that is never read leaves the code of what it is bound to as it is. -/
theorem statement_bind_none {init : Expr} {s₁ : Supply}
    (hloc : location asg name s = .ok (none, s₁)) :
    statement func asg (.bind name init) scope dst s =
      statement func asg init scope dst s₁ := by
  rw [statement, StateT.bind_of_ok hloc]

theorem statement_bind_some {init : Expr} {place : Operand} {s₁ : Supply}
    (hloc : location asg name s = .ok (some place, s₁)) :
    statement func asg (.bind name init) scope dst s = .ok ((code, scope'), s') ↔
      ∃ first scope₁ last, statement func asg init scope (some place) s₁ = .ok ((first, scope₁), s') ∧
        deliver dst place = .ok last ∧ code = first ++ last ∧ scope' = (name, place) :: scope₁ := by
  rw [statement, StateT.bind_of_ok hloc]
  simp only [StateT.bind_eq_ok, lift_eq_ok, StateT.pure_eq_ok, Prod.mk.injEq]
  constructor
  · rintro ⟨⟨first, scope₁⟩, _, hinit, last, _, ⟨hlast, rfl⟩, ⟨rfl, rfl⟩, rfl⟩
    exact ⟨first, scope₁, last, hinit, hlast, rfl, rfl⟩
  · rintro ⟨first, scope₁, last, hinit, hlast, rfl, rfl⟩
    exact ⟨(first, scope₁), _, hinit, last, _, ⟨hlast, rfl⟩, ⟨rfl, rfl⟩, rfl⟩

theorem statement_unary {op : UnOp} {x : Atom} {ty : Ty} :
    statement func asg (.unary op x ty) scope (some d) s = .ok ((code, scope'), s') ↔
      ∃ src, scope.operand x = .ok src ∧ unary op ty src d = .ok code ∧ scope' = scope ∧ s' = s := by
  simp only [statement, StateT.bind_eq_ok, lift_eq_ok, StateT.pure_eq_ok, Prod.mk.injEq]
  constructor
  · rintro ⟨src, _, ⟨hsrc, rfl⟩, c, _, ⟨hc, rfl⟩, ⟨rfl, rfl⟩, rfl⟩
    exact ⟨src, hsrc, hc, rfl, rfl⟩
  · rintro ⟨src, hsrc, hc, rfl, rfl⟩
    exact ⟨src, _, ⟨hsrc, rfl⟩, code, _, ⟨hc, rfl⟩, ⟨rfl, rfl⟩, rfl⟩

theorem statement_binary {op : BinOp} {l r : Atom} {ty : Ty} :
    statement func asg (.binary op l r ty) scope (some d) s = .ok ((code, scope'), s') ↔
      binary scope op l r ty d = .ok code ∧ scope' = scope ∧ s' = s := by
  simp only [statement, StateT.bind_eq_ok, lift_eq_ok, StateT.pure_eq_ok, Prod.mk.injEq]
  constructor
  · rintro ⟨c, _, ⟨hc, rfl⟩, ⟨rfl, rfl⟩, rfl⟩
    exact ⟨hc, rfl, rfl⟩
  · rintro ⟨hc, rfl, rfl⟩
    exact ⟨code, _, ⟨hc, rfl⟩, ⟨rfl, rfl⟩, rfl⟩

/-- The code of a condition around the code of its branches. -/
def branchCode (func : String) (n : Nat) (c : Operand) (first second : List Instr) : List Instr :=
  (unimm c).1 ++ .cmp (unimm c).2 (.imm 0) :: .jcc .e (elseLabel func n) :: first ++
    .jmp (endLabel func n) :: .label (elseLabel func n) :: second ++ [.label (endLabel func n)]

def optionBlock (func : String) (asg : Assignment) (b : Option (List Expr)) (scope : Scope)
    (dst : Option Operand) : Emit (List Instr) :=
  match b with
  | some b => block func asg b scope dst
  | none => pure []

theorem statement_branch {cond : Atom} {onTrue : List Expr} {onFalse : Option (List Expr)} :
    statement func asg (.branch cond onTrue onFalse) scope (some d) s =
        .ok ((code, scope'), s') ↔
      ∃ c first s₁ second, scope.operand cond = .ok c ∧
        block func asg onTrue scope (some d) { s with branches := s.branches + 1 } =
          .ok (first, s₁) ∧
        optionBlock func asg onFalse scope (some d) s₁ = .ok (second, s') ∧
        code = branchCode func s.branches c first second ∧ scope' = scope := by
  have hnext : nextBranch s = .ok (s.branches, { s with branches := s.branches + 1 }) := rfl
  cases onFalse with
  | none =>
    simp only [statement, optionBlock]
    rw [StateT.bind_of_ok hnext]
    simp only [StateT.bind_eq_ok, lift_eq_ok, StateT.pure_eq_ok, Prod.mk.injEq]
    constructor
    · rintro ⟨c, _, ⟨hc, rfl⟩, first, s₁, hfirst, _, _, ⟨rfl, rfl⟩, ⟨rfl, rfl⟩, rfl⟩
      exact ⟨c, first, _, [], hc, hfirst, ⟨rfl, rfl⟩, rfl, rfl⟩
    · rintro ⟨c, first, s₁, second, hc, hfirst, ⟨rfl, rfl⟩, rfl, rfl⟩
      exact ⟨c, _, ⟨hc, rfl⟩, first, _, hfirst, [], _, ⟨rfl, rfl⟩, ⟨rfl, rfl⟩, rfl⟩
  | some b =>
    simp only [statement, optionBlock]
    rw [StateT.bind_of_ok hnext]
    simp only [StateT.bind_eq_ok, lift_eq_ok, StateT.pure_eq_ok, Prod.mk.injEq]
    constructor
    · rintro ⟨c, _, ⟨hc, rfl⟩, first, s₁, hfirst, second, _, hsecond, ⟨rfl, rfl⟩, rfl⟩
      exact ⟨c, first, s₁, second, hc, hfirst, hsecond, rfl, rfl⟩
    · rintro ⟨c, first, s₁, second, hc, hfirst, hsecond, rfl, rfl⟩
      exact ⟨c, _, ⟨hc, rfl⟩, first, s₁, hfirst, second, _, hsecond, ⟨rfl, rfl⟩, rfl⟩

theorem statement_unwanted {x : Expr}
    (h : statement func asg x scope none s = .ok ((code, scope'), s')) :
    (∃ name init, x = .bind name init) ∨ code = [] ∧ scope' = scope ∧ s' = s := by
  cases x with
  | bind name init => exact Or.inl ⟨name, init, rfl⟩
  | atom x =>
    obtain ⟨src, _, hcode, rfl, rfl⟩ := statement_atom.1 h
    cases hcode
    exact Or.inr ⟨rfl, rfl, rfl⟩
  | unary op x ty =>
    simp only [statement, StateT.pure_eq_ok, Prod.mk.injEq] at h
    exact Or.inr ⟨h.1.1, h.1.2, h.2⟩
  | binary op l r ty =>
    simp only [statement, StateT.pure_eq_ok, Prod.mk.injEq] at h
    exact Or.inr ⟨h.1.1, h.1.2, h.2⟩
  | branch cond onTrue onFalse =>
    cases onFalse with
    | none =>
      simp only [statement, StateT.pure_eq_ok, Prod.mk.injEq] at h
      exact Or.inr ⟨h.1.1, h.1.2, h.2⟩
    | some b =>
      simp only [statement, StateT.pure_eq_ok, Prod.mk.injEq] at h
      exact Or.inr ⟨h.1.1, h.1.2, h.2⟩
  | missing => cases h

theorem block_nil : block func asg [] scope dst s = .ok (code, s') ↔ code = [] ∧ s' = s := by
  rw [block, StateT.pure_eq_ok]

theorem block_single {x : Expr} : block func asg [x] scope dst s = .ok (code, s') ↔
    ∃ scope', statement func asg x scope dst s = .ok ((code, scope'), s') := by
  simp only [block, StateT.bind_eq_ok, StateT.pure_eq_ok]
  constructor
  · rintro ⟨⟨c, scope'⟩, _, hx, rfl, rfl⟩
    exact ⟨scope', hx⟩
  · rintro ⟨scope', hx⟩
    exact ⟨(code, scope'), s', hx, rfl, rfl⟩

theorem block_cons {x y : Expr} {xs : List Expr} :
    block func asg (x :: y :: xs) scope dst s = .ok (code, s') ↔
      ∃ first scope₁ s₁ rest, statement func asg x scope none s = .ok ((first, scope₁), s₁) ∧
        block func asg (y :: xs) scope₁ dst s₁ = .ok (rest, s') ∧ code = first ++ rest := by
  rw [block]
  simp only [StateT.bind_eq_ok, StateT.pure_eq_ok]
  constructor
  · rintro ⟨⟨first, scope₁⟩, s₁, hx, rest, _, hrest, rfl, rfl⟩
    exact ⟨first, scope₁, s₁, rest, hx, hrest, rfl⟩
  · rintro ⟨first, scope₁, s₁, rest, hx, hrest, rfl⟩
    exact ⟨(first, scope₁), s₁, hx, rest, s', hrest, rfl, rfl⟩

theorem location_none (h : asg.find? name = some .none) (s : Supply) :
    location asg name s = .ok (none, s) := by
  simp only [location, h]
  rfl

theorem location_reg {r : Reg} (h : asg.find? name = some (.reg r)) (s : Supply) :
    location asg name s = .ok (some (.reg r), s) := by
  simp only [location, h]
  rfl

theorem location_xreg {r : XReg} (h : asg.find? name = some (.xreg r)) (s : Supply) :
    location asg name s = .ok (some (.xreg r), s) := by
  simp only [location, h]
  rfl

theorem location_spill (h : asg.find? name = some .spill) (s : Supply) :
    location asg name s =
      .ok (some (.mem (.slot s.slots.next.offset)), { s with slots := s.slots.next }) := by
  simp only [location, h]
  rfl

theorem statement_bind {init : Expr}
    (h : statement func asg (.bind name init) scope dst s = .ok ((code, scope'), s')) :
    ∃ place s₁, location asg name s = .ok (place, s₁) := by
  rw [statement, StateT.bind_eq_ok] at h
  obtain ⟨place, s₁, hloc, _⟩ := h
  exact ⟨place, s₁, hloc⟩

/-- Storage comes from the assignment and takes at most one slot. -/
theorem location_cases {place : Option Operand} (h : location asg name s = .ok (place, s')) :
    (asg.find? name = some .none ∧ place = none ∧ s' = s) ∨
    (∃ r, asg.find? name = some (.reg r) ∧ place = some (.reg r) ∧ s' = s) ∨
    (∃ r, asg.find? name = some (.xreg r) ∧ place = some (.xreg r) ∧ s' = s) ∨
    (asg.find? name = some .spill ∧ place = some (.mem (.slot s.slots.next.offset)) ∧
      s' = { s with slots := s.slots.next }) := by
  cases hfind : asg.find? name with
  | none =>
    simp only [location, hfind] at h
    cases h
  | some l =>
    cases l with
    | none =>
      rw [location_none hfind] at h
      cases h
      exact Or.inl ⟨rfl, rfl, rfl⟩
    | reg r =>
      rw [location_reg hfind] at h
      cases h
      exact Or.inr (Or.inl ⟨r, rfl, rfl, rfl⟩)
    | xreg r =>
      rw [location_xreg hfind] at h
      cases h
      exact Or.inr (Or.inr (Or.inl ⟨r, rfl, rfl, rfl⟩))
    | spill =>
      rw [location_spill hfind] at h
      cases h
      exact Or.inr (Or.inr (Or.inr ⟨rfl, rfl, rfl⟩))
    | other k =>
      simp only [location, hfind] at h
      cases h

end ExprBackend.Codegen
