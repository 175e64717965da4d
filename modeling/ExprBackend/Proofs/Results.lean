/-!
# Computations that may fail

How the result of a sequence of computations follows from the results of its parts, and the other
way round, for the three kinds of computation that are used.
-/

namespace ExprBackend

universe u v

variable {ε σ : Type u} {α β : Type u}

theorem Except.bind_eq_ok {ε : Type u} {α β : Type v} {x : Except ε α} {f : α → Except ε β} {b : β} :
    (x >>= f) = .ok b ↔ ∃ a, x = .ok a ∧ f a = .ok b := by
  cases x with
  | error e => simp [bind, Except.bind]
  | ok a => simp [bind, Except.bind]

theorem Except.eq_ok_of_mapError {ε' : Type u} {x : Except ε α} {g : ε → ε'} {a : α}
    (h : x.mapError g = .ok a) : x = .ok a := by
  cases x with
  | error e => cases h
  | ok b => exact congrArg Except.ok (Except.ok.inj h)

theorem Except.eq_ok_of_toOption {x : Except ε α} {a : α} (h : x.toOption = some a) :
    x = .ok a := by
  cases x with
  | error e => cases h
  | ok b => exact congrArg Except.ok (Option.some.inj h)

theorem Except.exists_of_mapM {g : α → Except ε β} {xs : List α} {ys : List β}
    (h : xs.mapM g = .ok ys) {y : β} (hy : y ∈ ys) : ∃ x ∈ xs, g x = .ok y := by
  induction xs generalizing ys with
  | nil =>
    cases h
    cases hy
  | cons x xs ih =>
    rw [List.mapM_cons] at h
    obtain ⟨z, hz, hrest⟩ := Except.bind_eq_ok.1 h
    obtain ⟨zs, hzs, hpure⟩ := Except.bind_eq_ok.1 hrest
    cases hpure
    rcases List.mem_cons.1 hy with rfl | hy
    · exact ⟨x, List.mem_cons_self, hz⟩
    · obtain ⟨x', hx', hgx'⟩ := ih hzs hy
      exact ⟨x', List.mem_cons_of_mem x hx', hgx'⟩

theorem StateT.pure_eq_ok {a b : α} {s s' : σ} :
    (pure a : StateT σ (Except ε) α) s = .ok (b, s') ↔ b = a ∧ s' = s := by
  change Except.ok (a, s) = .ok (b, s') ↔ _
  simp only [Except.ok.injEq, Prod.mk.injEq, eq_comm]

theorem StateT.bind_of_ok {x : StateT σ (Except ε) α} {f : α → StateT σ (Except ε) β} {s s' : σ}
    {a : α} (h : x s = .ok (a, s')) : (x >>= f) s = f a s' := by
  change (x s >>= fun p => f p.1 p.2) = _
  rw [h]
  rfl

theorem StateT.bind_eq_ok {x : StateT σ (Except ε) α} {f : α → StateT σ (Except ε) β} {s : σ}
    {r : β × σ} :
    (x >>= f) s = .ok r ↔ ∃ a s', x s = .ok (a, s') ∧ f a s' = .ok r := by
  change (x s >>= fun p => f p.1 p.2) = _ ↔ _
  rw [Except.bind_eq_ok]
  exact ⟨fun ⟨p, hx, hf⟩ => ⟨p.1, p.2, hx, hf⟩, fun ⟨a, s', hx, hf⟩ => ⟨(a, s'), hx, hf⟩⟩

theorem EStateM.bind_of_ok {x : EStateM ε σ α} {f : α → EStateM ε σ β} {s s' : σ} {a : α}
    (h : x s = .ok a s') : (x >>= f) s = f a s' := by
  simp only [bind, EStateM.bind, h]

theorem EStateM.get_bind (f : σ → EStateM ε σ β) (s : σ) : (get >>= f) s = f s s := rfl

theorem EStateM.bind_of_error {x : EStateM ε σ α} {f : α → EStateM ε σ β} {s s' : σ} {e : ε}
    (h : x s = .error e s') : (x >>= f) s = .error e s' := by
  simp only [bind, EStateM.bind, h]

theorem EStateM.of_bind_ok {x : EStateM ε σ α} {f : α → EStateM ε σ β} {s s' : σ} {b : β}
    (h : (x >>= f) s = .ok b s') : ∃ a s₁, x s = .ok a s₁ ∧ f a s₁ = .ok b s' := by
  cases hx : x s with
  | ok a s₁ =>
    rw [EStateM.bind_of_ok hx] at h
    exact ⟨a, s₁, rfl, h⟩
  | error e s₁ =>
    rw [EStateM.bind_of_error hx] at h
    cases h

theorem EStateM.of_bind_error {x : EStateM ε σ α} {f : α → EStateM ε σ β} {s s' : σ} {e : ε}
    (h : (x >>= f) s = .error e s') :
    x s = .error e s' ∨ ∃ a s₁, x s = .ok a s₁ ∧ f a s₁ = .error e s' := by
  cases hx : x s with
  | ok a s₁ =>
    rw [EStateM.bind_of_ok hx] at h
    exact Or.inr ⟨a, s₁, rfl, h⟩
  | error e' s₁ =>
    rw [EStateM.bind_of_error hx] at h
    cases h
    exact Or.inl rfl

section AdaptExcept

variable {ε ε' σ α : Type} {step step' : EStateM ε σ α} {s s' : σ}

theorem EStateM.adaptExcept_congr (h : step s = step' s') (f : ε → ε') :
    EStateM.adaptExcept f step s = EStateM.adaptExcept f step' s' := by
  unfold EStateM.adaptExcept
  rw [h]

theorem EStateM.adaptExcept_ok {a : α} (h : step s = .ok a s') (f : ε → ε') :
    EStateM.adaptExcept f step s = .ok a s' := by
  unfold EStateM.adaptExcept
  rw [h]

theorem EStateM.adaptExcept_error {e : ε} (h : step s = .error e s') (f : ε → ε') :
    EStateM.adaptExcept f step s = .error (f e) s' := by
  unfold EStateM.adaptExcept
  rw [h]

theorem EStateM.run'_ok {a : α} (h : step s = .ok a s') : step.run' s = some a := by
  unfold EStateM.run' EStateM.run
  rw [h]

theorem EStateM.run'_error {e : ε} (h : step s = .error e s') : step.run' s = none := by
  unfold EStateM.run' EStateM.run
  rw [h]

/-- Another error is no other value. -/
theorem EStateM.run'_adaptExcept {f : ε → ε} (h : step' s = EStateM.adaptExcept f step s) :
    step'.run' s = step.run' s := by
  cases hstep : step s with
  | ok a s' => rw [run'_ok hstep, run'_ok (h.trans (adaptExcept_ok hstep f))]
  | error e s' => rw [run'_error hstep, run'_error (h.trans (adaptExcept_error hstep f))]

end AdaptExcept

end ExprBackend
