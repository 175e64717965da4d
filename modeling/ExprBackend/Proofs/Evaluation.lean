import ExprBackend.Expr.Basic

/-!
# The meaning of expressions

Programs are evaluated on 64-bit words. Integers wrap around, division cuts toward zero and has
no value for a divisor of 0, comparisons are signed and give 0 or 1. Operations on floats are those
of `Binary64`: greater is the negation of less or equal, and negation is the product with minus
one.
-/

namespace ExprBackend

def truthWord (b : Bool) : UInt64 := if b then 1 else 0

def quotientWord (a b : UInt64) : UInt64 := (a.toInt64 / b.toInt64).toUInt64

def remainderWord (a b : UInt64) : UInt64 := (a.toInt64 % b.toInt64).toUInt64

/-- The product of a float with minus one. -/
def Binary64.negate (w : UInt64) : UInt64 := mul 0xbff0000000000000 w

def UnOp.eval? (op : UnOp) (ty : Ty) (w : UInt64) : Option UInt64 :=
  match op with
  | .not => if ty = .float then none else some (truthWord (w = 0))
  | .neg => some (if ty = .float then Binary64.negate w else -w)
  | .other _ => none

def BinOp.evalInt? (op : BinOp) (a b : UInt64) : Option UInt64 :=
  match op with
  | .plus => some (a + b)
  | .minus => some (a - b)
  | .times => some (a * b)
  | .div => if b = 0 then none else some (quotientWord a b)
  | .mod => if b = 0 then none else some (remainderWord a b)
  | .less => some (truthWord (a.toInt64 < b.toInt64))
  | .lessEq => some (truthWord (a.toInt64 ≤ b.toInt64))
  | .greater => some (truthWord (b.toInt64 < a.toInt64))
  | .greaterEq => some (truthWord (b.toInt64 ≤ a.toInt64))
  | .eq => some (truthWord (a = b))
  | .notEq => some (truthWord (a ≠ b))
  | .other _ => none

def BinOp.evalFloat? (op : BinOp) (a b : UInt64) : Option UInt64 :=
  match op with
  | .plus => some (Binary64.add a b)
  | .minus => some (Binary64.sub a b)
  | .times => some (Binary64.mul a b)
  | .div => some (Binary64.div a b)
  | .less => some (truthWord (Binary64.lt a b))
  | .lessEq => some (truthWord (Binary64.le a b))
  | .greater => some (truthWord (!Binary64.le a b))
  | .greaterEq => some (truthWord (!Binary64.lt a b))
  | .eq => some (truthWord (Binary64.eq a b))
  | .notEq => some (truthWord (!Binary64.eq a b))
  | _ => none

def BinOp.eval? (op : BinOp) (ty : Ty) (a b : UInt64) : Option UInt64 :=
  if ty = .float then op.evalFloat? a b else op.evalInt? a b

/-- The values of names, the latest binding first. -/
abbrev Env := List (String × UInt64)

def Atom.eval? (env : Env) (x : Atom) : Option UInt64 :=
  if x.isVar then List.lookup x.name env else some x.word

mutual

def Expr.eval? : Expr → Env → Option (UInt64 × Env)
  | .atom x, env => do return (← x.eval? env, env)
  | .bind name init, env => do
    let (w, env) ← init.eval? env
    return (w, (name, w) :: env)
  | .unary op x ty, env => do return (← op.eval? ty (← x.eval? env), env)
  | .binary op l r ty, env => do
    return (← op.eval? ty (← l.eval? env) (← r.eval? env), env)
  | .branch cond onTrue onFalse, env => do
    if (← cond.eval? env) ≠ 0 then return (← blockEval? onTrue env, env)
    else match onFalse with
      | some b => return (← blockEval? b env, env)
      | none => none
  | .missing, _ => none

/-- The value of a block is that of its last statement. -/
def blockEval? : List Expr → Env → Option UInt64
  | [], _ => none
  | [x], env => do return (← x.eval? env).1
  | x :: y :: xs, env => do blockEval? (y :: xs) (← x.eval? env).2

end

section Inversion

variable {env env' : Env} {w : UInt64}

theorem Expr.eval?_atom {x : Atom} :
    (Expr.atom x).eval? env = some (w, env') ↔ x.eval? env = some w ∧ env' = env := by
  simp only [Expr.eval?, Option.bind_eq_bind, Option.bind_eq_some_iff, Option.pure_def,
    Option.some.injEq, Prod.mk.injEq]
  grind

theorem Expr.eval?_bind {name : String} {init : Expr} :
    (Expr.bind name init).eval? env = some (w, env') ↔
      ∃ env₁, init.eval? env = some (w, env₁) ∧ env' = (name, w) :: env₁ := by
  simp only [Expr.eval?, Option.bind_eq_bind, Option.bind_eq_some_iff, Option.pure_def,
    Option.some.injEq, Prod.mk.injEq, Prod.exists]
  grind

theorem Expr.eval?_unary {op : UnOp} {x : Atom} {ty : Ty} :
    (Expr.unary op x ty).eval? env = some (w, env') ↔
      ∃ a, x.eval? env = some a ∧ op.eval? ty a = some w ∧ env' = env := by
  simp only [Expr.eval?, Option.bind_eq_bind, Option.bind_eq_some_iff, Option.pure_def,
    Option.some.injEq, Prod.mk.injEq]
  grind

theorem Expr.eval?_binary {op : BinOp} {l r : Atom} {ty : Ty} :
    (Expr.binary op l r ty).eval? env = some (w, env') ↔
      ∃ a b, l.eval? env = some a ∧ r.eval? env = some b ∧ op.eval? ty a b = some w ∧
        env' = env := by
  simp only [Expr.eval?, Option.bind_eq_bind, Option.bind_eq_some_iff, Option.pure_def,
    Option.some.injEq, Prod.mk.injEq]
  grind

theorem Expr.eval?_branch {cond : Atom} {onTrue b : List Expr} :
    (Expr.branch cond onTrue (some b)).eval? env = some (w, env') ↔
      ∃ c, cond.eval? env = some c ∧
        blockEval? (if c ≠ 0 then onTrue else b) env = some w ∧ env' = env := by
  simp only [Expr.eval?, Option.bind_eq_bind, Option.bind_eq_some_iff]
  refine exists_congr fun c => and_congr_right fun _ => ?_
  split <;> simp only [Option.bind_eq_some_iff, Option.pure_def, Option.some.injEq, Prod.mk.injEq]
    <;> grind

theorem blockEval?_single {x : Expr} :
    blockEval? [x] env = some w ↔ ∃ env', x.eval? env = some (w, env') := by
  simp only [blockEval?, Option.bind_eq_bind, Option.bind_eq_some_iff, Option.pure_def,
    Option.some.injEq, Prod.exists]
  grind

theorem blockEval?_cons {x y : Expr} {xs : List Expr} :
    blockEval? (x :: y :: xs) env = some w ↔
      ∃ a env', x.eval? env = some (a, env') ∧ blockEval? (y :: xs) env' = some w := by
  simp only [blockEval?, Option.bind_eq_bind, Option.bind_eq_some_iff, Prod.exists]

end Inversion

def Func.eval? (f : Func) (args : List UInt64) : Option UInt64 :=
  blockEval? f.body ((f.params.map Param.name).zip args)

end ExprBackend
