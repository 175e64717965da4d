import ExprBackend.Allocation.Assign
import ExprBackend.Proofs.SpillQueue
import Mathlib.Order.Monotone.Basic

/-!
# Colouring under new numbers

Nodes are compared by their numbers only where nothing else tells them apart, and nodes that are never
read are out of the way before the first of them is chosen. So new numbers that keep the order, with
any number of unread nodes in between, lead to the same choices throughout.
-/

namespace ExprBackend

/-- Lists in ascending order with the same members are the same. -/
theorem eq_of_pairwise_lt {xs ys : List Nat} (hxs : xs.Pairwise (· < ·)) (hys : ys.Pairwise (· < ·))
    (h : ∀ v, v ∈ xs ↔ v ∈ ys) : xs = ys := by
  refine List.Perm.eq_of_pairwise ?_ hxs hys ?_
  · intro a b _ _ hab hba
    omega
  · exact (List.perm_ext_iff_of_nodup (hxs.imp Nat.ne_of_lt) (hys.imp Nat.ne_of_lt)).2 h

namespace Graph

variable {σ : Nat → Nat} {g g' : Graph} {freq freq' : Frequency}

/-- A graph has the nodes and edges of another one under new numbers. -/
structure Mirrors (σ : Nat → Nat) (g g' : Graph) : Prop where
  valid : g.Valid
  valid' : g'.Valid
  has_iff : ∀ u, g'.has u = true ↔ ∃ v, u = σ v ∧ g.has v = true
  adj_iff : ∀ u v, g'.Adj (σ u) (σ v) ↔ g.Adj u v

theorem Mirrors.has_eq (h : Mirrors σ g g') (hσ : StrictMono σ) (v : Nat) :
    g'.has (σ v) = g.has v := by
  rw [Bool.eq_iff_iff, h.has_iff]
  constructor
  · rintro ⟨u, huv, hu⟩
    rwa [hσ.injective huv]
  · intro hv
    exact ⟨v, rfl, hv⟩

theorem Mirrors.present_eq (h : Mirrors σ g g') (hσ : StrictMono σ) :
    g'.present = g.present.map σ := by
  refine eq_of_pairwise_lt g'.present_pairwise
    (List.pairwise_map.2 (g.present_pairwise.imp fun hlt => hσ hlt)) fun u => ?_
  simp only [mem_present, h.has_iff, List.mem_map, eq_comm, and_comm]

theorem Mirrors.neighbors_eq (h : Mirrors σ g g') (hσ : StrictMono σ) (v : Nat) :
    g'.neighbors (σ v) = (g.neighbors v).map σ := by
  refine eq_of_pairwise_lt (BitSet.keys_pairwise _)
    (List.pairwise_map.2 ((BitSet.keys_pairwise _).imp fun hlt => hσ hlt)) fun u => ?_
  rw [mem_neighbors, List.mem_map]
  constructor
  · intro hadj
    obtain ⟨w, rfl, _⟩ := (h.has_iff u).1 (h.valid'.has_of_adj_right hadj)
    exact ⟨w, mem_neighbors.2 ((h.adj_iff v w).1 hadj), rfl⟩
  · rintro ⟨w, hw, rfl⟩
    exact (h.adj_iff v w).2 (mem_neighbors.1 hw)

theorem Mirrors.degree_eq (h : Mirrors σ g g') (hσ : StrictMono σ) (v : Nat) :
    g'.degree (σ v) = g.degree v := by
  rw [degree_eq_length_neighbors, degree_eq_length_neighbors, h.neighbors_eq hσ, List.length_map]

theorem Mirrors.without (h : Mirrors σ g g') (hσ : StrictMono σ) {v : Nat} (hv : g.has v = true) :
    Mirrors σ (g.without v) (g'.without (σ v)) := by
  have hv' : g'.has (σ v) = true := (h.has_eq hσ v).trans hv
  refine ⟨h.valid.without hv, h.valid'.without hv', fun u => ?_, fun a b => ?_⟩
  · simp only [has_without h.valid hv, has_without h.valid' hv', Bool.and_eq_true, h.has_iff,
      Bool.not_eq_true', decide_eq_false_iff_not]
    constructor
    · rintro ⟨⟨w, rfl, hw⟩, hne⟩
      exact ⟨w, rfl, hw, fun hwv => hne (congrArg σ hwv)⟩
    · rintro ⟨w, rfl, hw, hne⟩
      exact ⟨⟨w, rfl, hw⟩, fun hwv => hne (hσ.injective hwv)⟩
  · rw [adj_without h.valid hv, adj_without h.valid' hv', h.adj_iff, hσ.injective.ne_iff,
      hσ.injective.ne_iff]

end Graph

namespace Coloring

open ExprBackend.Graph

variable {σ : Nat → Nat} {g g' : Graph} {freq freq' : Frequency} {k n : Nat}

theorem trivial?_mirrors (h : Mirrors σ g g') (hσ : StrictMono σ) :
    trivial? g' k = (trivial? g k).map σ := by
  rw [trivial?, trivial?, h.present_eq hσ, List.find?_map]
  simp only [Function.comp_def, h.degree_eq hσ]

theorem noLater_renumbered (hσ : StrictMono σ) (hfreq : ∀ v, freq'.get (σ v) = freq.get v)
    (u v : Nat) : noLater freq' (σ v) (σ u) = noLater freq v u := by
  rw [noLater, noLater, hfreq, hfreq, decide_eq_decide.2 (hσ.le_iff_le (a := v) (b := u))]

theorem cheapest?_mirrors (h : Mirrors σ g g') (hσ : StrictMono σ)
    (hfreq : ∀ v, freq'.get (σ v) = freq.get v) :
    cheapest? freq' g' = (cheapest? freq g).map σ := by
  rw [cheapest?, cheapest?, h.present_eq hσ, List.find?_map]
  simp only [Function.comp_def, List.all_map, noLater_renumbered hσ hfreq]

def Plan.renumber (σ : Nat → Nat) (plan : Plan) : Plan where
  stack := plan.stack.map σ
  spilled := plan.spilled.map σ

/-- The nodes of a stack are gone, and list each other under their new numbers. -/
def Listed (σ : Nat → Nat) (g g' : Graph) (stack : List Nat) : Prop :=
  ∀ v ∈ stack, g.removed v = true ∧ g'.removed (σ v) = true ∧
    g'.history (σ v) = (g.history v).map σ

theorem Listed.without {stack : List Nat} (hl : Listed σ g g' stack) (h : Mirrors σ g g')
    (hσ : StrictMono σ) {v : Nat} (hv : g.has v = true) :
    Listed σ (g.without v) (g'.without (σ v)) stack := by
  have hv' : g'.has (σ v) = true := (h.has_eq hσ v).trans hv
  intro u hu
  obtain ⟨hgone, hgone', hhistory⟩ := hl u hu
  have huv : u ≠ v := by
    rintro rfl
    rw [h.valid.not_removed hv] at hgone
    cases hgone
  rw [removed_without h.valid hv, removed_without h.valid' hv', history_without h.valid hv,
    history_without h.valid' hv', hgone, hgone', if_neg huv, if_neg (hσ.injective.ne huv)]
  exact ⟨Bool.or_true _, Bool.or_true _, hhistory⟩

theorem Listed.push {stack : List Nat} (hl : Listed σ g g' stack) (h : Mirrors σ g g')
    (hσ : StrictMono σ) {v : Nat} (hv : g.has v = true) :
    Listed σ (g.without v) (g'.without (σ v)) (v :: stack) := by
  have hv' : g'.has (σ v) = true := (h.has_eq hσ v).trans hv
  intro u hu
  rcases List.mem_cons.1 hu with rfl | hu
  · rw [removed_without h.valid hv, removed_without h.valid' hv', history_without h.valid hv,
      history_without h.valid' hv', if_pos rfl, if_pos rfl, h.neighbors_eq hσ]
    simp
  · exact hl.without h hσ hv u hu

theorem scan_mirrors {plan plan₁ : Plan} {g₁ : Graph} (hσ : StrictMono σ)
    (hfreq : ∀ v, freq'.get (σ v) = freq.get v) (h : Mirrors σ g g')
    (hl : Listed σ g g' plan.stack) (hrun : scan freq k n plan g = .ok plan₁ g₁) :
    ∃ g₁', scan freq' k n (plan.renumber σ) g' = .ok (plan₁.renumber σ) g₁' ∧
      Listed σ g₁ g₁' plan₁.stack := by
  induction n generalizing g g' plan with
  | zero =>
    cases hrun
    exact ⟨g', rfl, hl⟩
  | succ n ih =>
    have htriv' := trivial?_mirrors (k := k) h hσ
    cases htriv : trivial? g k with
    | some v =>
      have hv := (trivial?_eq_some_iff.1 htriv).1
      rw [htriv] at htriv'
      rw [scan_trivial htriv hv] at hrun
      obtain ⟨g₁', hrun', hl'⟩ := ih (h.without hσ hv) (hl.push h hσ hv) hrun
      refine ⟨g₁', ?_, hl'⟩
      rw [scan_trivial htriv' ((h.has_eq hσ v).trans hv)]
      exact hrun'
    | none =>
      rw [htriv] at htriv'
      have hcheap' := cheapest?_mirrors h hσ hfreq
      cases hcheap : cheapest? freq g with
      | some v =>
        have hv := mem_present.1 (List.mem_of_find?_eq_some hcheap)
        rw [hcheap] at hcheap'
        rw [scan_spill htriv hcheap hv] at hrun
        have hl₁ : Listed σ (g.without v) (g'.without (σ v))
            { plan with spilled := plan.spilled ++ [v] : Plan }.stack := hl.without h hσ hv
        obtain ⟨g₁', hrun', hl'⟩ := ih (h.without hσ hv) hl₁ hrun
        refine ⟨g₁', ?_, hl'⟩
        rw [scan_spill htriv' hcheap' ((h.has_eq hσ v).trans hv)]
        simpa [Plan.renumber] using hrun'
      | none =>
        rw [hcheap] at hcheap'
        simp only [scan, EStateM.get_bind, htriv, hcheap] at hrun
        cases hrun
        refine ⟨g', ?_, hl⟩
        simp only [scan, EStateM.get_bind, htriv', hcheap', Option.map_none]
        rfl

section Select

variable {C : Type} [DecidableEq C]

def renumberAll (σ : Nat → Nat) (colors : List (Nat × C)) : List (Nat × C) :=
  colors.map fun e => (σ e.1, e.2)

omit [DecidableEq C] in
theorem mem_renumberAll (hσ : StrictMono σ) {colors : List (Nat × C)} {v : Nat} {c : C} :
    (σ v, c) ∈ renumberAll σ colors ↔ (v, c) ∈ colors := by
  rw [renumberAll, List.mem_map]
  constructor
  · rintro ⟨e, he, heq⟩
    obtain ⟨hv, rfl⟩ := Prod.mk.inj heq
    rwa [← hσ.injective hv]
  · intro h
    exact ⟨(v, c), h, rfl⟩

omit [DecidableEq C] in
theorem lookup_renumberAll (hσ : StrictMono σ) (colors : List (Nat × C)) (v : Nat) :
    (renumberAll σ colors).lookup (σ v) = colors.lookup v := by
  induction colors with
  | nil => rfl
  | cons e es ih =>
    have hkey : (σ v == σ e.1) = (v == e.1) := by
      rw [Bool.eq_iff_iff, beq_iff_eq, beq_iff_eq, hσ.injective.eq_iff]
    rw [renumberAll, List.map_cons, List.lookup_cons, ← renumberAll, ih, List.lookup_cons, hkey]

theorem usedColors_renumberAll (hσ : StrictMono σ) (colors : List (Nat × C)) (vs : List Nat) :
    usedColors (renumberAll σ colors) (vs.map σ) = usedColors colors vs := by
  rw [usedColors, usedColors, List.filterMap_map]
  simp only [Function.comp_def, lookup_renumberAll hσ]

theorem select_mirrors (hσ : StrictMono σ) {pool : List C} {stack : List Nat}
    {colors all : List (Nat × C)} (hl : Listed σ g g' stack)
    (h : select g pool stack colors = .ok all) :
    select g' pool (stack.map σ) (renumberAll σ colors) = .ok (renumberAll σ all) := by
  induction stack generalizing colors with
  | nil =>
    cases h
    rfl
  | cons v vs ih =>
    obtain ⟨hgone, hgone', hhistory⟩ := hl v List.mem_cons_self
    have hlisted : g.removedNeighbors v = .ok (g.history v) := by
      rw [removedNeighbors, hgone, if_pos rfl]
      rfl
    have hlisted' : g'.removedNeighbors (σ v) = .ok ((g.history v).map σ) := by
      rw [removedNeighbors, hgone', if_pos rfl, ← hhistory]
      rfl
    have hrest : Listed σ g g' vs := fun u hu => hl u (List.mem_cons_of_mem v hu)
    simp only [List.map_cons, select, hlisted, hlisted', bind, Except.bind,
      usedColors_renumberAll hσ] at h ⊢
    cases hfind : pool.find? (fun c => c ∉ usedColors colors (g.history v)) with
    | none =>
      rw [hfind] at h
      cases h
    | some c =>
      rw [hfind] at h
      exact ih hrest h

end Select

end Coloring

open Coloring

namespace Graph

variable {C : Type} [DecidableEq C] {σ : Nat → Nat} {g g' : Graph} {freq freq' : Frequency}

/-- How a valid graph is coloured: first the nodes that are never read go, then a search takes the
others apart, and what is on the stack gets its colours. -/
theorem coloring_by_search (hg : g.Valid) (freq : Frequency) {pool : List C} (hpool : pool.Nodup) :
    ∃ g₁ plan g₂ colors, Remains g g₁ ∧
      (∀ v, g₁.has v = true ↔ g.has v = true ∧ freq.get v ≠ 0) ∧
      scan freq pool.length g₁.size {} g₁ = .ok plan g₂ ∧
      select g₂ pool plan.stack [] = .ok colors ∧ g.coloring freq pool =
        .ok { colors, spilled := plan.spilled, dead := g.present.filter (freq.get · = 0) } := by
  obtain ⟨dead, g₁, plan, g₂, hdead, hscan, hheap⟩ := exists_plan hg freq pool.length
  obtain ⟨g₁', hdead', hremains, hhas⟩ := dropUnread_ok freq g.present_nodup (Remains.refl hg)
    fun v hv => mem_present.1 hv
  cases hdead.symm.trans hdead'
  have hqueue := simplify_of_takeApart (hheap Queue.heap)
  rw [Queue.heap_fill] at hqueue
  have hread (v : Nat) : g₁.has v = true ↔ g.has v = true ∧ freq.get v ≠ 0 := by
    rw [hhas]
    by_cases hz : freq.get v = 0 <;> simp [mem_present, hz]
  cases hselect : select g₂ pool plan.stack [] with
  | ok colors =>
    refine ⟨g₁, plan, g₂, colors, hremains, hread, hscan, hselect, ?_⟩
    rw [coloring, color_eq hdead hqueue hselect]
  | error e =>
    -- a pool without repetition always has a colour left
    obtain ⟨c, g₃, hcolor, _⟩ := exists_color hg freq hpool
    rw [color, EStateM.get_bind, EStateM.bind_of_ok hdead, EStateM.get_bind,
      EStateM.bind_of_ok hqueue, EStateM.get_bind] at hcolor
    simp only [hselect] at hcolor
    cases hcolor

/-- A graph whose nodes that are read have new numbers in the same order is coloured in the same way
under the new numbers. -/
theorem coloring_renumbered (hσ : StrictMono σ) (hg : g.Valid) (hg' : g'.Valid)
    (hfreq : ∀ v, freq'.get (σ v) = freq.get v)
    (hread : ∀ u, g'.has u = true → freq'.get u ≠ 0 → ∃ v, u = σ v)
    (hhas : ∀ v, freq.get v ≠ 0 → g'.has (σ v) = g.has v)
    (hadj : ∀ u v, g'.Adj (σ u) (σ v) ↔ g.Adj u v) {pool : List C} (hpool : pool.Nodup) :
    ∃ c c', g.coloring freq pool = .ok c ∧ g'.coloring freq' pool = .ok c' ∧
      c'.colors = renumberAll σ c.colors ∧ c'.spilled = c.spilled.map σ ∧
      c.dead = g.present.filter (freq.get · = 0) ∧
      c'.dead = g'.present.filter (freq'.get · = 0) := by
  obtain ⟨g₁, plan, g₂, colors, hg₁, hhas₁, hscan, hselect, hcolor⟩ :=
    coloring_by_search hg freq hpool
  obtain ⟨g₁', plan', g₂', colors', hg₁', hhas₁', hscan', hselect', hcolor'⟩ :=
    coloring_by_search hg' freq' hpool
  have hmirrors : Mirrors σ g₁ g₁' := by
    refine ⟨hg₁.valid, hg₁'.valid, fun u => ?_, fun u v => ?_⟩
    · rw [hhas₁']
      constructor
      · rintro ⟨hu, hne⟩
        obtain ⟨v, rfl⟩ := hread u hu hne
        rw [hfreq] at hne
        exact ⟨v, rfl, (hhas₁ v).2 ⟨(hhas v hne).symm.trans hu, hne⟩⟩
      · rintro ⟨v, rfl, hv⟩
        obtain ⟨hv, hne⟩ := (hhas₁ v).1 hv
        exact ⟨(hhas v hne).trans hv, (hfreq v).trans_ne hne⟩
    · have hiff (w : Nat) : g₁'.has (σ w) = true ↔ g₁.has w = true := by
        rw [hhas₁', hhas₁, hfreq]
        exact and_congr_left fun hne => by rw [hhas w hne]
      rw [hg₁'.adj_iff, hg₁.adj_iff, hadj, hiff, hiff]
  have hsize : g₁'.size = g₁.size := by
    rw [hg₁'.valid.size_eq, hg₁.valid.size_eq, hmirrors.present_eq hσ, List.length_map]
  have hstart : Listed σ g₁ g₁' ({} : Plan).stack := fun v hv => absurd hv List.not_mem_nil
  obtain ⟨g₃, hscan₃, hlisted⟩ := scan_mirrors hσ hfreq hmirrors hstart hscan
  rw [hsize] at hscan'
  cases hscan'.symm.trans hscan₃
  cases hselect'.symm.trans (select_mirrors hσ hlisted hselect)
  exact ⟨_, _, hcolor, hcolor', rfl, rfl, rfl, rfl⟩

end Graph

end ExprBackend
