import Std.Data.String.ToNat

/-!
# Names of temporaries

A temporary has a number sign in its name, which no name of a program may have, and a number of its
own behind the sign.
-/

namespace ExprBackend

/-- A supply of names for temporaries: a stem, a number sign and a running number. -/
structure Temporaries where
  stem : String := "t"
  used : Nat := 0
deriving DecidableEq, Repr

/-- A supply with the given stem; an empty stem stands for `t`. -/
def Temporaries.withStem (stem : String) : Temporaries :=
  { stem := if stem = "" then "t" else stem }

/-- The name with a given number. -/
def Temporaries.nameAt (t : Temporaries) (n : Nat) : String :=
  t.stem ++ "#" ++ toString n

/-- The next name and the supply after it. -/
def Temporaries.next (t : Temporaries) : String × Temporaries :=
  (t.nameAt t.used, { t with used := t.used + 1 })

/-- The next `n` names. -/
def Temporaries.take (t : Temporaries) : Nat → List String
  | 0 => []
  | n + 1 => t.next.1 :: t.next.2.take n

def isTemporary (name : String) : Bool :=
  name.toList.contains '#'

namespace Temporaries

variable (t : Temporaries)

variable {t} in
theorem nameAt_inj {j k : Nat} : t.nameAt j = t.nameAt k ↔ j = k := by
  simp only [nameAt, String.append_right_inj]
  exact Nat.repr_inj

theorem isTemporary_nameAt (n : Nat) : isTemporary (t.nameAt n) = true := by
  simp [isTemporary, nameAt]

theorem next_ne_empty : t.next.1 ≠ "" := by
  intro h
  have htemp := t.isTemporary_nameAt t.used
  rw [show t.nameAt t.used = "" from h] at htemp
  simp [isTemporary] at htemp

end Temporaries

end ExprBackend
