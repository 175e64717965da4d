import ExprBackend.Proofs.Coloring
import Mathlib.Data.Finset.Card

/-!
# When a colouring gives nothing up

A graph can be taken apart with `k` colours if no set of its nodes holds together: each has a node
with fewer than `k` neighbours in the set. Taking out a node with few neighbours changes nothing
about that, so the order in which the nodes go does not matter either.
-/

namespace ExprBackend

namespace Graph

/-- Every set of nodes of `S` has one with fewer than `k` neighbours in the set. -/
def Reducible (g : Graph) (S : Nat → Prop) (k : Nat) : Prop :=
  ∀ W : Finset Nat, W.Nonempty → (∀ v ∈ W, S v) →
    ∃ v ∈ W, (W.filter fun u => g.hasEdge v u = true).card < k

section Reducible

variable {g : Graph} {S : Nat → Prop} {k : Nat}

theorem Reducible.mono {k' : Nat} (h : g.Reducible S k) (hk : k ≤ k') : g.Reducible S k' := by
  intro W hW hin
  obtain ⟨v, hv, hcard⟩ := h W hW hin
  exact ⟨v, hv, hcard.trans_le hk⟩

/-- Only the nodes of `S` and the edges between them count. -/
theorem reducible_congr {h : Graph} {T : Nat → Prop} (hST : ∀ v, S v ↔ T v)
    (hedge : ∀ u v, S u → S v → (g.hasEdge u v = true ↔ h.hasEdge u v = true)) :
    g.Reducible S k ↔ h.Reducible T k := by
  have hsame {W : Finset Nat} (hin : ∀ v ∈ W, S v) {v : Nat} (hv : v ∈ W) :
      (W.filter fun u => g.hasEdge v u = true) = W.filter fun u => h.hasEdge v u = true :=
    Finset.filter_congr fun u hu => hedge v u (hin v hv) (hin u hu)
  constructor
  · intro hg W hW hin
    have hin : ∀ v ∈ W, S v := fun v hv => (hST v).2 (hin v hv)
    obtain ⟨v, hv, hcard⟩ := hg W hW hin
    exact ⟨v, hv, hsame hin hv ▸ hcard⟩
  · intro hh W hW hin
    obtain ⟨v, hv, hcard⟩ := hh W hW fun v hv => (hST v).1 (hin v hv)
    exact ⟨v, hv, (hsame hin hv).symm ▸ hcard⟩

/-- The neighbours in a set are among all neighbours. -/
theorem Valid.card_le_degree (hg : g.Valid) (W : Finset Nat) (v : Nat) :
    (W.filter fun u => g.hasEdge v u = true).card ≤ g.degree v := by
  have hsub : (W.filter fun u => g.hasEdge v u = true) ⊆ (g.neighbors v).toFinset := by
    intro u hu
    rw [List.mem_toFinset, mem_neighbors, ← hg.hasEdge_iff]
    exact (Finset.mem_filter.1 hu).2
  rw [degree_eq_length_neighbors]
  exact (Finset.card_le_card hsub).trans (List.toFinset_card_le _)

/-- In the set of all nodes a node has all its neighbours. -/
theorem Valid.card_present (hg : g.Valid) (v : Nat) :
    (g.present.toFinset.filter fun u => g.hasEdge v u = true).card = g.degree v := by
  have hall : (g.present.toFinset.filter fun u => g.hasEdge v u = true) =
      (g.neighbors v).toFinset := by
    ext u
    rw [Finset.mem_filter, List.mem_toFinset, List.mem_toFinset, mem_present, mem_neighbors,
      hg.hasEdge_iff]
    exact and_iff_right_of_imp hg.has_of_adj_right
  rw [hall, degree_eq_length_neighbors]
  exact List.toFinset_card_of_nodup (BitSet.keys_nodup _)

theorem degree_le_maxDegree {v : Nat} (hv : g.has v = true) : g.degree v ≤ g.maxDegree := by
  have hfold (ds : List Nat) (m d : Nat) (hd : d ≤ m ∨ d ∈ ds) : d ≤ ds.foldl max m := by
    induction ds generalizing m with
    | nil => simpa using hd
    | cons e ds ih =>
      apply ih
      rcases hd with hd | hd
      · exact Or.inl (hd.trans (le_max_left m e))
      · rcases List.mem_cons.1 hd with rfl | hd
        · exact Or.inl (le_max_right m d)
        · exact Or.inr hd
  exact hfold _ 0 _ (Or.inr (List.mem_map_of_mem (mem_present.2 hv)))

theorem Valid.reducible_of_maxDegree (hg : g.Valid) (hS : ∀ v, S v → g.has v = true)
    (h : g.maxDegree < k) : g.Reducible S k := by
  intro W hW hin
  obtain ⟨v, hv⟩ := hW
  refine ⟨v, hv, ?_⟩
  calc (W.filter fun u => g.hasEdge v u = true).card
      ≤ g.degree v := hg.card_le_degree W v
    _ ≤ g.maxDegree := degree_le_maxDegree (hS v (hin v hv))
    _ < k := h

theorem Valid.hasEdge_without (hg : g.Valid) {v : Nat} (hv : g.has v = true) (a b : Nat) :
    (g.without v).hasEdge a b = true ↔ g.hasEdge a b = true ∧ a ≠ v ∧ b ≠ v := by
  rw [(hg.without hv).hasEdge_iff, adj_without hg hv, hg.hasEdge_iff]

/-- A node with few neighbours can go first. -/
theorem Valid.reducible_without (hg : g.Valid) {v : Nat} (hv : g.has v = true)
    (hdegree : g.degree v < k) :
    (g.without v).Reducible (fun u => (g.without v).has u = true) k ↔
      g.Reducible (fun u => g.has u = true) k := by
  have hhas (u : Nat) : (g.without v).has u = true ↔ g.has u = true ∧ u ≠ v := by
    rw [has_without hg hv, Bool.and_eq_true, Bool.not_eq_true', decide_eq_false_iff_not]
  have hrest : (g.without v).Reducible (fun u => (g.without v).has u = true) k ↔
      g.Reducible (fun u => g.has u = true ∧ u ≠ v) k := by
    apply reducible_congr hhas
    intro a b ha hb
    rw [hg.hasEdge_without hv]
    exact and_iff_left ⟨((hhas a).1 ha).2, ((hhas b).1 hb).2⟩
  rw [hrest]
  constructor
  · intro h W hW hin
    by_cases hmem : v ∈ W
    · exact ⟨v, hmem, (hg.card_le_degree W v).trans_lt hdegree⟩
    · exact h W hW fun u hu => ⟨hin u hu, fun huv => hmem (huv ▸ hu)⟩
  · intro h W hW hin
    exact h W hW fun u hu => (hin u hu).1

/-- A graph that can be taken apart has a node with few neighbours. -/
theorem Valid.exists_degree_lt (hg : g.Valid) (h : g.Reducible (fun u => g.has u = true) k)
    {u : Nat} (hu : g.has u = true) : ∃ v, g.has v = true ∧ g.degree v < k := by
  have hin : ∀ v ∈ g.present.toFinset, g.has v = true := by
    intro v hv
    exact mem_present.1 (List.mem_toFinset.1 hv)
  obtain ⟨v, hv, hcard⟩ := h g.present.toFinset ⟨u, List.mem_toFinset.2 (mem_present.2 hu)⟩ hin
  rw [hg.card_present] at hcard
  exact ⟨v, hin v hv, hcard⟩

end Reducible

end Graph

namespace Coloring

open ExprBackend.Graph

/-- Nothing more is given up exactly where the rest of the graph can be taken apart. -/
theorem spilled_simplify {k n : Nat} {g₀ g g' : Graph} {q : Queue} {plan plan' : Plan}
    (h : Planned k g₀ g plan) (hq : Queue.Covers q g) (hn : g.size = n)
    (hrun : simplify k n q plan g = .ok plan' g') :
    plan'.spilled = [] ↔ plan.spilled = [] ∧ g.Reducible (fun v => g.has v = true) k := by
  induction n generalizing g q plan with
  | zero =>
    have hsame : plan = plan' := by
      injection hrun
    have hnone : ∀ v, ¬ g.has v = true := by
      intro v hv
      have hmem := mem_present.2 hv
      rw [List.length_eq_zero_iff.1 (h.remains.valid.size_eq.symm.trans hn)] at hmem
      cases hmem
    rw [hsame, iff_self_and]
    rintro - W ⟨v, hv⟩ hin
    exact absurd (hin v hv) (hnone v)
  | succ n ih =>
    obtain ⟨v, q', next, hv, hstep, hplan, hcovers, hsize, hcase⟩ := simplify_step h hq hn
    rw [ih hplan hcovers hsize (hstep ▸ hrun)]
    rcases hcase with ⟨hdegree, hspilled⟩ | ⟨hmany, hspilled⟩
    · rw [hspilled, h.remains.valid.reducible_without hv hdegree]
    · -- no node had few neighbours, so the graph cannot be taken apart
      rw [hspilled]
      constructor
      · rintro ⟨hnil, -⟩
        simp at hnil
      · rintro ⟨-, hred⟩
        obtain ⟨u, hu, hdegree⟩ := h.remains.valid.exists_degree_lt hred hv
        have := hmany u hu
        omega

end Coloring

open Coloring

namespace Graph

variable {C : Type} [DecidableEq C]

theorem spilled_color {g g' : Graph} (hg : g.Valid) {freq : Frequency} {pool : List C}
    {c : Coloring C} (hrun : color freq pool g = .ok c g') :
    c.spilled = [] ↔ g.Reducible (fun v => g.has v = true ∧ freq.get v ≠ 0) pool.length := by
  obtain ⟨g₁, hdead, hg₁, hhas⟩ := dropUnread_ok freq g.present_nodup (Remains.refl hg)
    fun v hv => mem_present.1 hv
  obtain ⟨plan, g₂, hplan, _⟩ := simplify_ok (k := pool.length)
    (planned_start hg₁.valid) (Queue.covers_fill freq g₁) rfl
  have hread (v : Nat) : g₁.has v = true ↔ g.has v = true ∧ freq.get v ≠ 0 := by
    rw [hhas]
    by_cases hv : g.has v = true <;> simp [hv, mem_present]
  have hspilled : c.spilled = plan.spilled := by
    rw [color, EStateM.get_bind, EStateM.bind_of_ok hdead, EStateM.get_bind,
      EStateM.bind_of_ok hplan, EStateM.get_bind] at hrun
    cases hselect : select g₂ pool plan.stack [] with
    | ok colors =>
      simp only [hselect] at hrun
      injection hrun with hc
      rw [← hc]
    | error e =>
      simp only [hselect] at hrun
      cases hrun
  rw [hspilled, spilled_simplify (planned_start hg₁.valid) (Queue.covers_fill freq g₁) rfl hplan,
    and_iff_right rfl]
  apply reducible_congr hread
  intro u v hu hv
  rw [hg₁.valid.hasEdge_iff, hg.hasEdge_iff, hg₁.adj_iff]
  exact and_iff_left ⟨hu, hv⟩

/-- Colouring gives a node up only where it has to: when some nodes that are read each have as many
neighbours among them as there are colours. -/
theorem color_spills_nothing_iff (cs : List Command) (freq : Frequency) (pool : List C)
    (hpool : pool.Nodup) :
    ∃ c g', color freq pool (after cs) = .ok c g' ∧
      (c.spilled = [] ↔
        ∀ W : Finset Nat, W.Nonempty → (∀ v ∈ W, (after cs).has v = true ∧ freq.get v ≠ 0) →
          ∃ v ∈ W, (W.filter fun u => (after cs).hasEdge v u = true).card < pool.length) ∧
      ((after cs).maxDegree < pool.length → c.spilled = []) ∧
      (c.spilled = [] → ∀ larger : List C, larger.Nodup → pool.length ≤ larger.length →
        ∃ c' g'', color freq larger (after cs) = .ok c' g'' ∧ c'.spilled = []) := by
  have hg := valid_after cs
  obtain ⟨c, g', hrun, _, _⟩ := exists_color hg freq hpool
  refine ⟨c, g', hrun, spilled_color hg hrun, ?_, ?_⟩
  · intro hdegree
    rw [spilled_color hg hrun]
    exact hg.reducible_of_maxDegree (fun _ h => h.1) hdegree
  · intro hnone larger hlarger hle
    obtain ⟨c', g'', hrun', _, _⟩ := exists_color hg freq hlarger
    rw [spilled_color hg hrun] at hnone
    exact ⟨c', g'', hrun', (spilled_color hg hrun').2 (hnone.mono hle)⟩

/-- A square has two neighbours for each of its nodes: two colours would do for it, but a node is
given up. With three colours none is. -/
theorem color_spills_nothing_iff_square :
    [10, 20].Nodup ∧ [10, 20, 30].Nodup ∧
      (∃ c g', color ([0, 1, 2, 3].foldl Frequency.addRead {}) [10, 20]
        (after [.addEdge 0 1, .addEdge 1 2, .addEdge 2 3, .addEdge 3 0]) = .ok c g' ∧
        c.spilled ≠ []) ∧
      ∃ c g', color ([0, 1, 2, 3].foldl Frequency.addRead {}) [10, 20, 30]
        (after [.addEdge 0 1, .addEdge 1 2, .addEdge 2 3, .addEdge 3 0]) = .ok c g' ∧
        c.spilled = [] := by
  obtain ⟨c, g', hrun, hiff, _⟩ := color_spills_nothing_iff
    [.addEdge 0 1, .addEdge 1 2, .addEdge 2 3, .addEdge 3 0]
    ([0, 1, 2, 3].foldl Frequency.addRead {}) [10, 20] (by decide)
  obtain ⟨c', g'', hrun', _, hdegree, _⟩ := color_spills_nothing_iff
    [.addEdge 0 1, .addEdge 1 2, .addEdge 2 3, .addEdge 3 0]
    ([0, 1, 2, 3].foldl Frequency.addRead {}) [10, 20, 30] (by decide)
  refine ⟨by decide, by decide, ⟨c, g', hrun, ?_⟩, c', g'', hrun', hdegree (by decide +kernel)⟩
  intro hnone
  obtain ⟨v, hv, hcard⟩ := hiff.1 hnone {0, 1, 2, 3} (by decide) (by decide +kernel)
  have hmany : ∀ v ∈ ({0, 1, 2, 3} : Finset Nat),
      2 ≤ (({0, 1, 2, 3} : Finset Nat).filter fun u =>
        (after [.addEdge 0 1, .addEdge 1 2, .addEdge 2 3, .addEdge 3 0]).hasEdge v u = true).card := by
    decide +kernel
  exact absurd (hmany v hv) (Nat.not_le.2 hcard)

end Graph

end ExprBackend
