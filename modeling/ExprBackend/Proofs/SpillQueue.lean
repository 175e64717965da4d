import ExprBackend.Proofs.Coloring

/-!
# The queue of candidates

All nodes that are read enter the queue at the start, and those that leave the graph on the way stay
in it until they are popped. Every node of the graph is always in the queue, so popping comes to one
of them, and what was popped before it is of no use any more. So a queue gives up the same nodes as
a search through the whole graph, and which kind of heap it is does not matter.
-/

namespace ExprBackend

namespace Coloring

open ExprBackend.Graph

/-- Of two nodes the first is given up no later: it is read less, or as often and not higher. -/
def noLater (freq : Frequency) (v u : Nat) : Bool :=
  freq.get v < freq.get u || (freq.get v == freq.get u && v ≤ u)

/-- The node of the graph that is given up no later than any other. -/
def cheapest? (freq : Frequency) (g : Graph) : Option Nat :=
  g.present.find? fun v => g.present.all (noLater freq v)

/-- Takes the next `n` nodes out of the graph. Each time all its nodes are looked at. -/
def scan (freq : Frequency) (k : Nat) : Nat → Plan → EStateM Violation Graph Plan
  | 0, plan => return plan
  | n + 1, plan => do
    let g ← get
    match trivial? g k with
    | some v =>
      Graph.remove v
      scan freq k n { plan with stack := v :: plan.stack }
    | none =>
      match cheapest? freq g with
      | some v =>
        Graph.remove v
        scan freq k n { plan with spilled := plan.spilled ++ [v] }
      | none => return plan

section Scan

variable {freq : Frequency} {g : Graph} {k n u v : Nat} {plan : Plan}

theorem noLater_iff : noLater freq v u = true ↔
    freq.get v < freq.get u ∨ freq.get v = freq.get u ∧ v ≤ u := by
  simp [noLater]

theorem noLater_antisymm (hvu : noLater freq v u = true) (huv : noLater freq u v = true) :
    v = u := by
  rw [noLater_iff] at hvu huv
  omega

theorem cheapest?_eq_some (hv : g.has v = true)
    (hleast : ∀ u, g.has u = true → noLater freq v u = true) : cheapest? freq g = some v := by
  have hall : g.present.all (noLater freq v) = true :=
    List.all_eq_true.2 fun u hu => hleast u (mem_present.1 hu)
  have hsome : (cheapest? freq g).isSome = true :=
    List.find?_isSome.2 ⟨v, mem_present.2 hv, hall⟩
  obtain ⟨u, hu⟩ := Option.isSome_iff_exists.1 hsome
  rw [cheapest?] at hu ⊢
  have hfirst := List.find?_some hu
  have huv := List.all_eq_true.1 hfirst v (mem_present.2 hv)
  have hvu := hleast u (mem_present.1 (List.mem_of_find?_eq_some hu))
  rw [hu, noLater_antisymm hvu huv]

theorem scan_trivial (htriv : trivial? g k = some v) (hv : g.has v = true) :
    scan freq k (n + 1) plan g =
      scan freq k n { plan with stack := v :: plan.stack } (g.without v) := by
  simp only [scan, EStateM.get_bind, htriv]
  exact remove_bind hv _

theorem scan_spill (htriv : trivial? g k = none) (hcheap : cheapest? freq g = some v)
    (hv : g.has v = true) :
    scan freq k (n + 1) plan g =
      scan freq k n { plan with spilled := plan.spilled ++ [v] } (g.without v) := by
  simp only [scan, EStateM.get_bind, htriv, hcheap]
  exact remove_bind hv _

end Scan

theorem Candidate.before_eq_false {c d : Candidate} : d.before c = false ↔
    c.reads < d.reads ∨ c.reads = d.reads ∧ c.node ≤ d.node := by
  simp only [before, Bool.or_eq_false_iff, Bool.and_eq_false_iff, decide_eq_false_iff_not,
    beq_eq_false_iff_ne]
  omega

/-- A heap of candidates. Popping takes one out that no other goes before, and nothing else is known
of it. -/
structure Heap where
  Store : Type
  contents : Store → List Candidate
  empty : Store
  push : Candidate → Store → Store
  pop? : Store → Option (Candidate × Store)
  contents_empty : contents empty = []
  contents_push : ∀ c s, (contents (push c s)).Perm (c :: contents s)
  contents_of_none : ∀ {s}, pop? s = none → contents s = []
  contents_of_pop : ∀ {s c rest}, pop? s = some (c, rest) → (contents s).Perm (c :: contents rest)
  least : ∀ {s c rest}, pop? s = some (c, rest) → ∀ d ∈ contents s, d.before c = false

inductive HeapFailure where
  | violation (v : Violation)
  /-- A candidate was to be popped and there was none. -/
  | exhausted
deriving DecidableEq, Repr

namespace Heap

variable (H : Heap)

/-- Pops candidates up to the first one that is still in the graph. -/
def next? (g : Graph) (s : H.Store) : Option (Nat × H.Store) :=
  match _hpop : H.pop? s with
  | none => none
  | some (c, rest) => if g.has c.node then some (c.node, rest) else next? g rest
termination_by (H.contents s).length
decreasing_by
  rw [(H.contents_of_pop _hpop).length_eq]
  exact Nat.lt_succ_self _

/-- Takes the next `n` nodes out of the graph, with candidates from a heap. -/
def takeApart (k : Nat) : Nat → H.Store → Plan → EStateM HeapFailure Graph Plan
  | 0, _, plan => return plan
  | n + 1, s, plan => do
    let g ← get
    match trivial? g k with
    | some v =>
      EStateM.adaptExcept .violation (Graph.remove v)
      takeApart k n s { plan with stack := v :: plan.stack }
    | none =>
      match H.next? g s with
      | some (v, rest) =>
        EStateM.adaptExcept .violation (Graph.remove v)
        takeApart k n rest { plan with spilled := plan.spilled ++ [v] }
      | none => throw .exhausted

def fill (freq : Frequency) (vs : List Nat) : H.Store :=
  vs.foldl (fun s v => H.push ⟨freq.get v, v⟩ s) H.empty

section Steps

variable {H} {freq : Frequency} {g : Graph} {k n v : Nat} {s rest : H.Store} {plan : Plan}

theorem next?_of_none (hpop : H.pop? s = none) : H.next? g s = none := by
  rw [next?]
  split
  next => rfl
  next hsome => cases hsome.symm.trans hpop

theorem next?_of_present {c : Candidate} (hpop : H.pop? s = some (c, rest))
    (hc : g.has c.node = true) : H.next? g s = some (c.node, rest) := by
  rw [next?]
  split
  next hnone => cases hnone.symm.trans hpop
  next hsome =>
    cases hsome.symm.trans hpop
    rw [if_pos hc]

theorem next?_of_stale {c : Candidate} (hpop : H.pop? s = some (c, rest))
    (hc : g.has c.node = false) : H.next? g s = H.next? g rest := by
  rw [next?]
  split
  next hnone => cases hnone.symm.trans hpop
  next hsome =>
    cases hsome.symm.trans hpop
    rw [if_neg (by simp [hc])]

theorem adaptExcept_remove_bind {α : Type} (hv : g.has v = true)
    (f : Unit → EStateM HeapFailure Graph α) :
    (EStateM.adaptExcept HeapFailure.violation (Graph.remove v) >>= f) g = f () (g.without v) := by
  refine EStateM.bind_of_ok (EStateM.adaptExcept_ok ?_ _)
  rw [remove_eq, if_pos hv]

theorem takeApart_trivial (htriv : trivial? g k = some v) (hv : g.has v = true) :
    H.takeApart k (n + 1) s plan g =
      H.takeApart k n s { plan with stack := v :: plan.stack } (g.without v) := by
  simp only [takeApart, EStateM.get_bind, htriv]
  exact adaptExcept_remove_bind hv _

theorem takeApart_spill (htriv : trivial? g k = none) (hnext : H.next? g s = some (v, rest))
    (hv : g.has v = true) :
    H.takeApart k (n + 1) s plan g =
      H.takeApart k n rest { plan with spilled := plan.spilled ++ [v] } (g.without v) := by
  simp only [takeApart, EStateM.get_bind, htriv, hnext]
  exact adaptExcept_remove_bind hv _

end Steps

/-- Every node of the graph waits, and all that wait have the number of their reads. -/
structure Serves (freq : Frequency) (g : Graph) (s : H.Store) : Prop where
  waits : ∀ v, g.has v = true → ⟨freq.get v, v⟩ ∈ H.contents s
  reads : ∀ c ∈ H.contents s, c.reads = freq.get c.node

section Serves

variable {H} {freq : Frequency} {g : Graph} {v : Nat} {s rest : H.Store}

theorem mem_fill {vs : List Nat} {c : Candidate} :
    c ∈ H.contents (H.fill freq vs) ↔ ∃ v ∈ vs, c = ⟨freq.get v, v⟩ := by
  have hfold (vs : List Nat) (s : H.Store) :
      c ∈ H.contents (vs.foldl (fun s v => H.push ⟨freq.get v, v⟩ s) s) ↔
        c ∈ H.contents s ∨ ∃ v ∈ vs, c = ⟨freq.get v, v⟩ := by
    induction vs generalizing s with
    | nil => simp
    | cons v vs ih =>
      rw [List.foldl_cons, ih, (H.contents_push _ s).mem_iff, List.mem_cons, List.exists_mem_cons_iff]
      tauto
  rw [fill, hfold, H.contents_empty]
  simp

theorem serves_fill (freq : Frequency) (g : Graph) : H.Serves freq g (H.fill freq g.present) where
  waits v hv := mem_fill.2 ⟨v, mem_present.2 hv, rfl⟩
  reads c hc := by
    obtain ⟨v, _, rfl⟩ := mem_fill.1 hc
    rfl

/-- A node that leaves the graph may stay in the heap. -/
theorem Serves.without (h : H.Serves freq g s) (hg : g.Valid) (hv : g.has v = true) :
    H.Serves freq (g.without v) s where
  waits u hu := by
    rw [has_without hg hv, Bool.and_eq_true] at hu
    exact h.waits u hu.1
  reads := h.reads

/-- Popping comes to a node of the graph as long as there is one. It is the first to be given up,
and the heap still serves the graph without it. -/
theorem Serves.next? (h : H.Serves freq g s) (hg : g.Valid) {u : Nat} (hu : g.has u = true) :
    ∃ v rest, H.next? g s = some (v, rest) ∧ g.has v = true ∧ cheapest? freq g = some v ∧
      H.Serves freq (g.without v) rest := by
  -- on what is in the heap: a candidate that is popped and not in the graph is out of the way
  induction hlen : (H.contents s).length generalizing s with
  | zero =>
    have hmem := h.waits u hu
    rw [List.length_eq_zero_iff.1 hlen] at hmem
    cases hmem
  | succ n ih =>
    cases hpop : H.pop? s with
    | none =>
      rw [H.contents_of_none hpop] at hlen
      cases hlen
    | some popped =>
      obtain ⟨c, rest⟩ := popped
      have hperm := H.contents_of_pop hpop
      have hreads : ∀ d ∈ H.contents rest, d.reads = freq.get d.node := fun d hd =>
        h.reads d (hperm.mem_iff.2 (List.mem_cons_of_mem c hd))
      have hrest : ∀ v, g.has v = true → v ≠ c.node → ⟨freq.get v, v⟩ ∈ H.contents rest := by
        intro v hv hne
        rcases List.mem_cons.1 (hperm.mem_iff.1 (h.waits v hv)) with heq | hmem
        · exact absurd (congrArg Candidate.node heq) hne
        · exact hmem
      cases hc : g.has c.node with
      | true =>
        refine ⟨c.node, rest, next?_of_present hpop hc, hc, cheapest?_eq_some hc ?_, ?_, hreads⟩
        · intro v hv
          have hleast := H.least hpop _ (h.waits v hv)
          have hown := h.reads c (hperm.mem_iff.2 List.mem_cons_self)
          rw [Candidate.before_eq_false] at hleast
          rw [noLater_iff, ← hown]
          exact hleast
        · intro v hv
          rw [has_without hg hc] at hv
          simp only [Bool.and_eq_true, Bool.not_eq_true', decide_eq_false_iff_not] at hv
          exact hrest v hv.1 hv.2
      | false =>
        rw [next?_of_stale hpop hc]
        refine ih ⟨fun v hv => hrest v hv ?_, hreads⟩ ?_
        · rintro rfl
          simp [hc] at hv
        · simpa [hlen] using hperm.length_eq.symm

end Serves

section Run

variable {H} {freq : Frequency} {g₀ g : Graph} {k n : Nat} {s : H.Store} {plan : Plan}

/-- Candidates from a heap and a search of the graph take the graph apart in the same way. -/
theorem takeApart_eq_scan (h : Planned k g₀ g plan) (hs : H.Serves freq g s) (hn : g.size = n) :
    ∃ plan' g', scan freq k n plan g = .ok plan' g' ∧
      H.takeApart k n s plan g = .ok plan' g' := by
  induction n generalizing g s plan with
  | zero => exact ⟨plan, g, rfl, rfl⟩
  | succ n ih =>
    have hvalid := h.remains.valid
    have hsize {v : Nat} (hv : g.has v = true) : (g.without v).size = n :=
      Nat.succ.inj ((hvalid.size_without hv).trans hn)
    cases htriv : trivial? g k with
    | some v =>
      obtain ⟨hv, hdegree, _⟩ := trivial?_eq_some_iff.1 htriv
      rw [scan_trivial htriv hv, takeApart_trivial htriv hv]
      exact ih (h.push hv hdegree) (hs.without hvalid hv) (hsize hv)
    | none =>
      obtain ⟨u, hu⟩ := hvalid.exists_has (by omega)
      obtain ⟨v, rest, hnext, hv, hcheap, hrest⟩ := hs.next? hvalid hu
      rw [scan_spill htriv hcheap hv, takeApart_spill htriv hnext hv]
      exact ih (h.spill hv) hrest (hsize hv)

end Run

end Heap

namespace Queue

/-- No candidate stands behind one that it goes before. -/
def Sorted (q : Queue) : Prop := q.Pairwise fun c d => d.before c = false

theorem perm_push (c : Candidate) (q : Queue) : (push c q).Perm (c :: q) := by
  induction q with
  | nil => exact List.Perm.refl _
  | cons d ds ih =>
    rw [push]
    split
    · exact (ih.cons d).trans (List.Perm.swap c d ds)
    · exact List.Perm.refl _

theorem Sorted.push {q : Queue} (h : Sorted q) (c : Candidate) : Sorted (push c q) := by
  induction q with
  | nil => exact List.pairwise_singleton _ _
  | cons d ds ih =>
    obtain ⟨hd, hds⟩ := List.pairwise_cons.1 h
    rw [Queue.push]
    split
    · next hbefore =>
      refine List.pairwise_cons.2 ⟨fun e he => ?_, ih hds⟩
      rcases mem_push.1 he with rfl | he
      · simp only [Candidate.before, Bool.or_eq_true, Bool.and_eq_true, decide_eq_true_eq,
          beq_iff_eq] at hbefore
        rw [Candidate.before_eq_false]
        omega
      · exact hd e he
    · next hbefore =>
      refine List.pairwise_cons.2 ⟨fun e he => ?_, h⟩
      rw [Bool.not_eq_true, Candidate.before_eq_false] at hbefore
      rcases List.mem_cons.1 he with rfl | he
      · exact Candidate.before_eq_false.2 hbefore
      · have hlast := Candidate.before_eq_false.1 (hd e he)
        rw [Candidate.before_eq_false]
        omega

def uncons? : {q : Queue // Sorted q} → Option (Candidate × {q : Queue // Sorted q})
  | ⟨[], _⟩ => none
  | ⟨c :: cs, h⟩ => some (c, ⟨cs, h.tail⟩)

theorem eq_nil_of_uncons? {q : {q : Queue // Sorted q}} (h : uncons? q = none) : q.1 = [] := by
  rcases q with ⟨_ | ⟨c, cs⟩, hq⟩
  · rfl
  · cases h

theorem eq_cons_of_uncons? {q rest : {q : Queue // Sorted q}} {c : Candidate}
    (h : uncons? q = some (c, rest)) : q.1 = c :: rest.1 := by
  rcases q with ⟨_ | ⟨d, ds⟩, hq⟩
  · cases h
  · cases h
    rfl

def heap : Heap where
  Store := {q : Queue // Sorted q}
  contents := Subtype.val
  empty := ⟨[], List.Pairwise.nil⟩
  push c q := ⟨push c q.1, q.2.push c⟩
  pop? := uncons?
  contents_empty := rfl
  contents_push c q := perm_push c q.1
  contents_of_none := eq_nil_of_uncons?
  contents_of_pop h := List.Perm.of_eq (eq_cons_of_uncons? h)
  least {q c rest} h d hd := by
    have hq := q.2
    rw [eq_cons_of_uncons? h] at hq hd
    rcases List.mem_cons.1 hd with rfl | hd
    · exact Candidate.before_eq_false.2 (by omega)
    · exact (List.pairwise_cons.1 hq).1 d hd

theorem heap_fill (freq : Frequency) (vs : List Nat) :
    (heap.fill freq vs).1 = vs.foldl (fun q v => push ⟨freq.get v, v⟩ q) [] := by
  have hfold (vs : List Nat) (q : heap.Store) :
      (vs.foldl (fun q v => heap.push ⟨freq.get v, v⟩ q) q).1 =
        vs.foldl (fun q v => push ⟨freq.get v, v⟩ q) q.1 := by
    induction vs generalizing q with
    | nil => rfl
    | cons v vs ih => exact ih _
  exact hfold vs _

variable {g : Graph} {v : Nat}

theorem pop?_of_heap {q rest : heap.Store} (h : heap.next? g q = some (v, rest)) :
    pop? g q.1 = some (v, rest.1) ∧ g.has v = true := by
  obtain ⟨q, hq⟩ := q
  induction q with
  | nil =>
    have hpop : heap.pop? ⟨[], hq⟩ = none := rfl
    cases (Heap.next?_of_none hpop).symm.trans h
  | cons c cs ih =>
    have hpop : heap.pop? ⟨c :: cs, hq⟩ = some (c, ⟨cs, hq.tail⟩) := rfl
    rw [pop?]
    cases hc : g.has c.node with
    | true =>
      rw [Heap.next?_of_present hpop hc] at h
      cases h
      exact ⟨rfl, hc⟩
    | false =>
      rw [Heap.next?_of_stale hpop hc] at h
      exact ih hq.tail h

end Queue

/-- What the queue in order does, the queue of a colouring does. -/
theorem simplify_of_takeApart {k n : Nat} {g g' : Graph} {q : Queue.heap.Store} {plan plan' : Plan}
    (h : Queue.heap.takeApart k n q plan g = .ok plan' g') :
    simplify k n q.1 plan g = .ok plan' g' := by
  induction n generalizing g q plan with
  | zero =>
    cases h
    rfl
  | succ n ih =>
    cases htriv : trivial? g k with
    | some v =>
      have hv := (trivial?_eq_some_iff.1 htriv).1
      rw [Heap.takeApart_trivial htriv hv] at h
      rw [simplify_trivial htriv hv]
      exact ih h
    | none =>
      cases hnext : Queue.heap.next? g q with
      | none =>
        simp only [Heap.takeApart, EStateM.get_bind, htriv, hnext] at h
        cases h
      | some popped =>
        obtain ⟨v, rest⟩ := popped
        obtain ⟨hpop, hv⟩ := Queue.pop?_of_heap hnext
        rw [Heap.takeApart_spill htriv hnext hv] at h
        rw [simplify_spill htriv hpop hv]
        exact ih h

end Coloring

open Coloring

namespace Graph

variable {C : Type} [DecidableEq C]

/-- Every valid graph is taken apart, by a search and by any heap alike. -/
theorem exists_plan {g : Graph} (hg : g.Valid) (freq : Frequency) (k : Nat) :
    ∃ dead g₁ plan g₂, dropUnread freq g.present g = .ok dead g₁ ∧
      scan freq k g₁.size {} g₁ = .ok plan g₂ ∧
      ∀ H : Heap, H.takeApart k g₁.size (H.fill freq g₁.present) {} g₁ = .ok plan g₂ := by
  obtain ⟨g₁, hdead, hg₁, _⟩ := dropUnread_ok freq g.present_nodup (Remains.refl hg)
    fun v hv => mem_present.1 hv
  have hrun (H : Heap) :=
    Heap.takeApart_eq_scan (k := k) (planned_start hg₁.valid) (H.serves_fill freq g₁) rfl
  obtain ⟨plan, g₂, hscan, _⟩ := hrun Queue.heap
  refine ⟨_, g₁, plan, g₂, hdead, hscan, fun H => ?_⟩
  obtain ⟨plan', g', hscan', htake⟩ := hrun H
  cases hscan.symm.trans hscan'
  exact htake

end Graph

end ExprBackend
