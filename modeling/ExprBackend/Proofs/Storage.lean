import ExprBackend.Proofs.Allocation
import ExprBackend.Proofs.Interference

/-!
# The storage of a function

What the locations of a function say, in terms of its names, their types and its runs: every name
has one location of its class, and two names that are live before one statement are never in one
register.
-/

namespace ExprBackend

theorem Location.Suits.cases {pools : Pools} {ty : Ty} {l : Location} (h : l.Suits pools ty) :
    l = .none ∨ l = .spill ∨ (ty ≠ .float ∧ ∃ r ∈ pools.general, l = .reg r) ∨
      (ty = .float ∧ ∃ r ∈ pools.float, l = .xreg r) := by
  cases l with
  | none => exact Or.inl rfl
  | spill => exact Or.inr (Or.inl rfl)
  | reg r => exact Or.inr (Or.inr (Or.inl ⟨h.1, r, h.2, rfl⟩))
  | xreg r => exact Or.inr (Or.inr (Or.inr ⟨h.1, r, h.2, rfl⟩))
  | other k => exact h.elim

/-- Every function whose names are bound once and read in scope gets storage for exactly its
names. A name has none if and only if it is never read. One that is read has a register of its
class or a slot of the frame, and of the names that are live before one statement, with all
parameters live to the end, no two are in one register. -/
theorem Func.assignment_exact (f : Func) (hf : f.Scoped) (pools : Pools)
    (hgeneral : pools.general.Nodup) (hfloat : pools.float.Nodup) :
    Variables.ofFunc f = .ok f.numbers ∧
    ∃ asg, f.assignment pools = .ok asg ∧
      (∀ z, (asg.find? z).isSome = true ↔ z ∈ f.bindings.map Prod.fst) ∧
      (∀ z ∈ f.bindings.map Prod.fst, asg.find? z = some .none ↔ z ∉ blockReads f.body) ∧
      (∀ z ty, (z, ty) ∈ f.bindings → z ∈ blockReads f.body →
        asg.find? z = some .spill ∨
          (ty ≠ .float ∧ ∃ r ∈ pools.general, asg.find? z = some (.reg r)) ∨
          (ty = .float ∧ ∃ r ∈ pools.float, asg.find? z = some (.xreg r))) ∧
      ∀ o ∈ statements f.numbers f.body, ∀ y z u v, f.numbers.find? y = some u →
        f.numbers.find? z = some v → y ≠ z → o.LiveBefore f.seed u → o.LiveBefore f.seed v →
          ∀ l, l.isRegister = true → asg.find? y = some l → asg.find? z ≠ some l := by
  obtain ⟨asg, hasg, hfits, hdomain⟩ := assignment_fits hf hgeneral hfloat
  refine ⟨Variables.ofFunc_ok hf, asg, hasg, ?_, hfits.dead_iff, ?_, ?_⟩
  · intro z
    constructor
    · intro hz
      obtain ⟨l, hl⟩ := Option.isSome_iff_exists.1 hz
      exact hdomain z l hl
    · intro hz
      obtain ⟨e, he, rfl⟩ := List.mem_map.1 hz
      obtain ⟨l, hl, _⟩ := hfits.located e he
      exact Option.isSome_iff_exists.2 ⟨l, hl⟩
  · intro z ty hmem hread
    obtain ⟨l, hl, hsuits⟩ := hfits.located _ hmem
    rw [hl]
    rcases hsuits.cases with rfl | rfl | ⟨hty, r, hr, rfl⟩ | ⟨hty, r, hr, rfl⟩
    · exact absurd hread ((hfits.dead_iff z (List.mem_map_of_mem hmem)).1 hl)
    · exact Or.inl rfl
    · exact Or.inr (Or.inl ⟨hty, r, hr, rfl⟩)
    · exact Or.inr (Or.inr ⟨hty, r, hr, rfl⟩)
  · intro o ho y z u v hy hz hne hu hv
    have huv : u ≠ v := fun h => hne (hf.injective y z u hy (h ▸ hz))
    obtain ⟨p, hp, _, hpu, hpv⟩ := (Conflicts.liveTogether_iff u v).2 ⟨huv, o, ho, hu, hv⟩
    exact hfits.apart p hp y z hne ⟨u, hy, hpu⟩ ⟨v, hz, hpv⟩

/-- A float that is doubled in one branch only, and a name that is never read. -/
def doubledIf : Func where
  name := "doubled_if"
  params := [⟨"c", .bool⟩, ⟨"x", .float⟩]
  body := [
    .bind "spare" (.atom (.var "c" .bool)),
    .bind "z" (.branch (.var "c" .bool)
      [.bind "w" (.binary .plus (.var "x" .float) (.var "x" .float) .float),
        .atom (.var "w" .float)]
      (some [.atom (.var "x" .float)])),
    .atom (.var "z" .float)]

/-- The parameter and the double of it can not both be in the only register. -/
theorem Func.assignment_exact_doubledIf :
    doubledIf.Scoped ∧
    ∃ asg, doubledIf.assignment ⟨[.rbx], [⟨1⟩]⟩ = .ok asg ∧ asg.find? "spare" = some .none ∧
      (asg.find? "w" = some .spill ∨ asg.find? "w" = some (.xreg ⟨1⟩)) ∧
      (asg.find? "w" = some (.xreg ⟨1⟩) → asg.find? "x" ≠ some (.xreg ⟨1⟩)) := by
  refine ⟨by decide, ?_⟩
  obtain ⟨_, asg, hasg, _, hdead, hstored, hapart⟩ :=
    Func.assignment_exact doubledIf (by decide) ⟨[.rbx], [⟨1⟩]⟩ (by decide) (by decide)
  refine ⟨asg, hasg, (hdead "spare" (by decide)).2 (by decide), ?_, ?_⟩
  · simpa using hstored "w" .float (by decide) (by decide)
  · let o : Occurrence := ⟨.atom (.var "w" .float), 1, [[.read 3, .read 4]]⟩
    have ho : o ∈ statements doubledIf.numbers doubledIf.body :=
      List.mem_of_getElem? (i := 1) rfl
    refine hapart o ho "w" "x" 3 1 (by decide +kernel) (by decide +kernel) (by decide) ?_ ?_ _ rfl
    · exact ⟨_, List.mem_singleton.2 rfl, Or.inl ⟨[], _, rfl, by decide⟩⟩
    · exact ⟨_, List.mem_singleton.2 rfl, Or.inr ⟨by decide, by decide +kernel⟩⟩

end ExprBackend
