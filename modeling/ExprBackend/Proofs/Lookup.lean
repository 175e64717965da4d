import Mathlib.Data.List.Nodup

/-!
# Lists of pairs as maps

A list of pairs maps each first part to the second part of the first pair that has it.
-/

namespace ExprBackend

variable {α β : Type} [DecidableEq α]

theorem mem_of_lookup {xs : List (α × β)} {a : α} {b : β} (h : xs.lookup a = some b) :
    (a, b) ∈ xs := by
  obtain ⟨l, r, rfl, _⟩ := List.lookup_eq_some_iff.1 h
  simp

theorem lookup_of_mem {xs : List (α × β)} (hnodup : (xs.map Prod.fst).Nodup) {e : α × β}
    (he : e ∈ xs) : xs.lookup e.1 = some e.2 := by
  induction xs with
  | nil => cases he
  | cons d xs ih =>
    rw [List.map_cons, List.nodup_cons] at hnodup
    rcases List.mem_cons.1 he with rfl | he
    · exact List.lookup_cons_self
    · have hne : e.1 ≠ d.1 := fun h => hnodup.1 (h ▸ List.mem_map_of_mem he)
      rw [List.lookup_cons, beq_eq_false_iff_ne.2 hne]
      exact ih hnodup.2 he

theorem lookup_isSome {xs : List (α × β)} {a : α} :
    (xs.lookup a).isSome = true ↔ a ∈ xs.map Prod.fst := by
  induction xs with
  | nil => simp
  | cons d xs ih =>
    rw [List.lookup_cons]
    by_cases h : a = d.1
    · simp [h]
    · rw [beq_eq_false_iff_ne.2 h, List.map_cons, List.mem_cons]
      simp only [h, false_or]
      exact ih

end ExprBackend
