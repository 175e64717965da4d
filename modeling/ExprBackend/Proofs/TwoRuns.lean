import ExprBackend.Expr.Printer
import ExprBackend.Proofs.Results
import ExprBackend.Proofs.Scoping

/-!
# Two runs side by side

Two computations that go on alike: they take the same steps, and wherever one of them fails the other
one fails too. How their results are related is a parameter. For the printer nothing is asked of the
two texts but that there are both or none.
-/

namespace ExprBackend

/-- Both computations fail, or both succeed with related results. -/
inductive Except.Related {ε α β : Type} (R : α → β → Prop) : Except ε α → Except ε β → Prop where
  | ok {a : α} {b : β} (h : R a b) : Related R (.ok a) (.ok b)
  | error (e e' : ε) : Related R (.error e) (.error e')

namespace Except.Related

variable {ε α β γ δ : Type} {R : α → β → Prop} {S : γ → δ → Prop} {x : Except ε α} {y : Except ε β}

theorem bind {f : α → Except ε γ} {g : β → Except ε δ} (h : Related R x y)
    (hfg : ∀ a b, R a b → Related S (f a) (g b)) : Related S (x >>= f) (y >>= g) := by
  cases h with
  | ok h => exact hfg _ _ h
  | error e e' => exact .error e e'

theorem refl (x : Except ε α) : Related Eq x x := by
  cases x with
  | ok a => exact .ok rfl
  | error e => exact .error e e

theorem exists_iff (h : Related R x y) : (∃ b, y = .ok b) ↔ ∃ a, x = .ok a := by
  cases h with
  | ok h => exact ⟨fun _ => ⟨_, rfl⟩, fun _ => ⟨_, rfl⟩⟩
  | error e e' => simp

theorem of_ok {a : α} {b : β} (h : Related R x y) (hx : x = .ok a) (hy : y = .ok b) : R a b := by
  cases h with
  | ok h =>
    cases hx
    cases hy
    exact h
  | error e e' => cases hx

end Except.Related

theorem StateT.get_bind {ε σ α : Type} (f : σ → StateT σ (Except ε) α) (s : σ) :
    ((get : StateT σ (Except ε) σ) >>= f) s = f s s := rfl

theorem StateT.modify_bind {ε σ α : Type} (h : σ → σ) (f : PUnit → StateT σ (Except ε) α) (s : σ) :
    ((modify h : StateT σ (Except ε) PUnit) >>= f) s = f ⟨⟩ (h s) := rfl

/-- For computations with a state, the results are related together with the states they leave. -/
theorem StateT.related_bind {ε σ τ α β γ δ : Type} {R : α × σ → β × τ → Prop}
    {S : γ × σ → δ × τ → Prop} {x : StateT σ (Except ε) α} {y : StateT τ (Except ε) β}
    {f : α → StateT σ (Except ε) γ} {g : β → StateT τ (Except ε) δ} {s : σ} {t : τ}
    (h : Except.Related R (x s) (y t))
    (hfg : ∀ p q, R p q → Except.Related S (f p.1 p.2) (g q.1 q.2)) :
    Except.Related S ((x >>= f) s) ((y >>= g) t) :=
  Except.Related.bind h hfg

theorem StateT.related_lift {ε σ τ α β γ δ : Type} {R : α → β → Prop} {S : γ × σ → δ × τ → Prop}
    {x : Except ε α} {y : Except ε β} {f : α → StateT σ (Except ε) γ}
    {g : β → StateT τ (Except ε) δ} {s : σ} {t : τ} (h : Except.Related R x y)
    (hfg : ∀ a b, R a b → Except.Related S (f a s) (g b t)) :
    Except.Related S (((liftM x : StateT σ (Except ε) α) >>= f) s)
      (((liftM y : StateT τ (Except ε) β) >>= g) t) := by
  cases h with
  | ok h => exact hfg _ _ h
  | error e e' => exact .error e e'

/-- Both computations fail, or both give the same value and leave related states. -/
inductive EStateM.Related {ε σ α : Type} (R : σ → σ → Prop) :
    EStateM.Result ε σ α → EStateM.Result ε σ α → Prop where
  | ok (a : α) {s t : σ} (h : R s t) : Related R (.ok a s) (.ok a t)
  | error (e e' : ε) (s t : σ) : Related R (.error e s) (.error e' t)

theorem EStateM.Related.bind {ε σ α β : Type} {R : σ → σ → Prop} {x y : EStateM ε σ α}
    {f g : α → EStateM ε σ β} {s t : σ} (h : EStateM.Related R (x s) (y t))
    (hfg : ∀ a s' t', R s' t' → EStateM.Related R (f a s') (g a t')) :
    EStateM.Related R ((x >>= f) s) ((y >>= g) t) := by
  cases hx : x s with
  | ok a s' =>
    cases hy : y t with
    | ok b t' =>
      rw [hx, hy] at h
      rw [EStateM.bind_of_ok hx, EStateM.bind_of_ok hy]
      cases h with
      | ok a h => exact hfg a s' t' h
    | error e t' =>
      rw [hx, hy] at h
      cases h
  | error e s' =>
    cases hy : y t with
    | ok b t' =>
      rw [hx, hy] at h
      cases h
    | error e' t' =>
      rw [EStateM.bind_of_error hx, EStateM.bind_of_error hy]
      exact .error e e' s' t'

namespace Printer

theorem within_related {α : Type} {R : α → α → Prop} {x y : Except PrintError α}
    (h : Except.Related R x y) (place : Place) :
    Except.Related R (within place x) (within place y) := by
  cases h with
  | ok h => exact .ok h
  | error e e' => cases e <;> cases e' <;> exact .error _ _

/-- That there is a text is all that matters of it. -/
def Printable (_ _ : String) : Prop := True

theorem printable_refl (x : Except PrintError String) : Except.Related Printable x x := by
  cases x with
  | ok text => exact .ok trivial
  | error e => exact .error e e

theorem blockText_cons {depth : Nat} {x : Expr} (hx : x.isBind = false) (xs : List Expr) :
    blockText depth (x :: xs) = (do
      let tabs ← indent depth
      let line ← exprText depth x
      return tabs ++ line ++ "\n" ++ (← blockText depth xs)) := by
  rw [blockText]
  rintro name init rfl
  cases hx

section Lines

variable {depth : Nat} {x x' init init' : Expr} {xs xs' b b' : List Expr}

theorem line_related (hx : x.isBind = false) (hx' : x'.isBind = false)
    (hline : Except.Related Printable (exprText depth x) (exprText depth x'))
    (hrest : Except.Related Printable (blockText depth xs) (blockText depth xs')) :
    Except.Related Printable (blockText depth (x :: xs)) (blockText depth (x' :: xs')) := by
  rw [blockText_cons hx, blockText_cons hx']
  refine (Except.Related.refl _).bind ?_
  rintro tabs _ rfl
  refine hline.bind fun _ _ _ => ?_
  refine hrest.bind fun _ _ _ => ?_
  exact .ok trivial

theorem bindLine_related (name name' : String) (hty : init'.ty? = init.ty?)
    (hinit : Except.Related Printable (exprText depth init) (exprText depth init'))
    (hrest : Except.Related Printable (blockText depth xs) (blockText depth xs')) :
    Except.Related Printable (blockText depth (.bind name init :: xs))
      (blockText depth (.bind name' init' :: xs')) := by
  rw [blockText, blockText, hty]
  refine (Except.Related.refl _).bind ?_
  rintro tabs _ rfl
  refine (Except.Related.refl _).bind ?_
  rintro ty _ rfl
  refine hinit.bind fun _ _ _ => ?_
  refine hrest.bind fun _ _ _ => ?_
  exact .ok trivial

theorem branch_related (cond cond' : Atom)
    (hfirst : Except.Related Printable (blockText (depth + 1) xs) (blockText (depth + 1) xs')) :
    Except.Related Printable (exprText depth (.branch cond xs none))
      (exprText depth (.branch cond' xs' none)) := by
  rw [exprText, exprText]
  refine (within_related hfirst _).bind fun _ _ _ => ?_
  refine (Except.Related.refl _).bind ?_
  rintro tabs _ rfl
  exact .ok trivial

theorem branchElse_related (cond cond' : Atom)
    (hfirst : Except.Related Printable (blockText (depth + 1) xs) (blockText (depth + 1) xs'))
    (hsecond : Except.Related Printable (blockText (depth + 1) b) (blockText (depth + 1) b')) :
    Except.Related Printable (exprText depth (.branch cond xs (some b)))
      (exprText depth (.branch cond' xs' (some b'))) := by
  rw [exprText, exprText]
  refine (within_related hfirst _).bind fun _ _ _ => ?_
  refine (Except.Related.refl _).bind ?_
  rintro tabs _ rfl
  refine (within_related hsecond _).bind fun _ _ _ => ?_
  exact .ok trivial

end Lines

end Printer

end ExprBackend
