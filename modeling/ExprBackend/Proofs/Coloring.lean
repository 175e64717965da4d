import ExprBackend.Allocation.Assign
import ExprBackend.Proofs.Graph
import ExprBackend.Proofs.Lookup

/-!
# Colourings are valid

Taking nodes out of a graph keeps a record of who was adjacent to whom: of two adjacent nodes the
one that goes first lists the other. A node goes on the stack while it has fewer neighbours than
there are colours, so when it is coloured, after every node that went later, a colour is left.
-/

namespace ExprBackend

namespace Graph

/-- What is left of a graph while nodes are taken out. A node that is gone lists those of its
neighbours that are still there. -/
structure Remains (g₀ g : Graph) : Prop where
  valid : g.Valid
  has_start : ∀ {v}, g.has v = true → g₀.has v = true
  adj_iff : ∀ {a b}, g.Adj a b ↔ g₀.Adj a b ∧ g.has a = true ∧ g.has b = true
  removed_of_gone : ∀ {v}, g₀.has v = true → g.has v = false → g.removed v = true
  mem_history : ∀ {v u}, g₀.has v = true → g.has v = false → g₀.Adj v u → g.has u = true →
    u ∈ g.history v

theorem Remains.refl {g : Graph} (hg : g.Valid) : Remains g g where
  valid := hg
  has_start h := h
  adj_iff := ⟨fun h => ⟨h, hg.has_of_adj h, hg.has_of_adj_right h⟩, And.left⟩
  removed_of_gone h hno := by simp [h] at hno
  mem_history h hno := by simp [h] at hno

theorem Remains.without {g₀ g : Graph} (h : Remains g₀ g) {v : Nat} (hv : g.has v = true) :
    Remains g₀ (g.without v) where
  valid := h.valid.without hv
  has_start {u} hu := by
    rw [has_without h.valid hv, Bool.and_eq_true] at hu
    exact h.has_start hu.1
  adj_iff {a b} := by
    simp only [adj_without h.valid hv, has_without h.valid hv, h.adj_iff, Bool.and_eq_true,
      Bool.not_eq_true', decide_eq_false_iff_not]
    tauto
  removed_of_gone {u} hu hno := by
    rw [has_without h.valid hv] at hno
    rw [removed_without h.valid hv]
    by_cases huv : u = v
    · simp [huv]
    · have hgone : g.has u = false := by simpa [huv] using hno
      simp [h.removed_of_gone hu hgone]
  mem_history {u w} hu hno hadj hw := by
    rw [has_without h.valid hv] at hno hw
    simp only [Bool.and_eq_true, Bool.not_eq_true', decide_eq_false_iff_not] at hw
    rw [history_without h.valid hv]
    by_cases huv : u = v
    · subst huv
      rw [if_pos rfl, mem_neighbors, h.adj_iff]
      exact ⟨hadj, hv, hw.1⟩
    · have hgone : g.has u = false := by simpa [huv] using hno
      rw [if_neg huv]
      exact h.mem_history hu hgone hadj hw.1

end Graph

namespace Coloring

open ExprBackend.Graph

theorem dropUnread_ok (freq : Frequency) {g₀ : Graph} {vs : List Nat} (hnodup : vs.Nodup) {g : Graph}
    (h : Remains g₀ g) (hvs : ∀ v ∈ vs, g.has v = true) :
    ∃ g', dropUnread freq vs g = .ok (vs.filter fun v => freq.get v = 0) g' ∧ Remains g₀ g' ∧
      ∀ u, g'.has u = (g.has u && !(decide (u ∈ vs) && decide (freq.get u = 0))) := by
  induction vs generalizing g with
  | nil => exact ⟨g, rfl, h, fun u => by simp⟩
  | cons v vs ih =>
    have hv : g.has v = true := hvs v List.mem_cons_self
    obtain ⟨hnot, hnodup⟩ := List.nodup_cons.1 hnodup
    by_cases hzero : freq.get v = 0
    · have hrest : ∀ u ∈ vs, (g.without v).has u = true := by
        intro u hu
        have huv : u ≠ v := fun huv => hnot (huv ▸ hu)
        simp [has_without h.valid hv, hvs u (List.mem_cons_of_mem _ hu), huv]
      obtain ⟨g', hrun, hg', hhas⟩ := ih hnodup (h.without hv) hrest
      refine ⟨g', ?_, hg', fun u => ?_⟩
      · simp only [dropUnread, hzero, if_true, bind, EStateM.bind, remove_eq, hv, hrun, pure,
          EStateM.pure, List.filter_cons, decide_true]
      · rw [hhas, has_without h.valid hv]
        by_cases huv : u = v
        · simp [huv, hzero]
        · simp [huv]
    · obtain ⟨g', hrun, hg', hhas⟩ := ih hnodup h fun u hu => hvs u (List.mem_cons_of_mem _ hu)
      refine ⟨g', ?_, hg', fun u => ?_⟩
      · simp only [dropUnread, hzero, if_false, hrun, List.filter_cons, decide_false,
          Bool.false_eq_true]
      · rw [hhas]
        by_cases huv : u = v
        · simp [huv, hzero]
        · simp [huv]

theorem Queue.mem_push {c d : Candidate} {q : Queue} : c ∈ Queue.push d q ↔ c = d ∨ c ∈ q := by
  induction q with
  | nil => simp [Queue.push]
  | cons e q ih =>
    rw [Queue.push]
    split
    · rw [List.mem_cons, ih, List.mem_cons]
      exact or_left_comm
    · simp

def Queue.Covers (q : Queue) (g : Graph) : Prop := ∀ v, g.has v = true → ∃ c ∈ q, c.node = v

theorem Queue.covers_fill (freq : Frequency) (g : Graph) :
    Queue.Covers (g.present.foldl (fun q v => Queue.push ⟨freq.get v, v⟩ q) []) g := by
  have hfill (vs : List Nat) (q : Queue) (v : Nat) (hv : v ∈ vs ∨ ∃ c ∈ q, c.node = v) :
      ∃ c ∈ vs.foldl (fun q v => Queue.push ⟨freq.get v, v⟩ q) q, c.node = v := by
    induction vs generalizing q with
    | nil => exact hv.resolve_left (by simp)
    | cons u us ih =>
      refine ih _ ?_
      rcases hv with hv | ⟨c, hc, rfl⟩
      · rcases List.mem_cons.1 hv with rfl | hv
        · exact Or.inr ⟨_, Queue.mem_push.2 (Or.inl rfl), rfl⟩
        · exact Or.inl hv
      · exact Or.inr ⟨c, Queue.mem_push.2 (Or.inr hc), rfl⟩
  exact fun v hv => hfill _ _ v (Or.inl (mem_present.2 hv))

/-- As long as a node is left, the queue has one, and the others stay behind it. -/
theorem Queue.pop?_of_covers {g : Graph} {q : Queue} (hq : Queue.Covers q g) {u : Nat}
    (hu : g.has u = true) :
    ∃ v rest, Queue.pop? g q = some (v, rest) ∧ g.has v = true ∧
      ∀ w, g.has w = true → w ≠ v → ∃ c ∈ rest, c.node = w := by
  induction q with
  | nil =>
    obtain ⟨c, hc, _⟩ := hq u hu
    cases hc
  | cons c cs ih =>
    rw [Queue.pop?]
    split
    · next hc =>
      refine ⟨c.node, cs, rfl, hc, fun w hw hne => ?_⟩
      obtain ⟨d, hd, rfl⟩ := hq w hw
      rcases List.mem_cons.1 hd with rfl | hd
      · exact absurd rfl hne
      · exact ⟨d, hd, rfl⟩
    · next hc =>
      refine ih fun w hw => ?_
      obtain ⟨d, hd, rfl⟩ := hq w hw
      rcases List.mem_cons.1 hd with rfl | hd
      · exact absurd hw hc
      · exact ⟨d, hd, rfl⟩

/-- A plan that is followed so far. Every node of the start is still there, on the stack or given
up. The nodes of the stack had fewer than `k` neighbours, and each lists those of its neighbours
that went on the stack after it. -/
structure Planned (k : Nat) (g₀ g : Graph) (plan : Plan) : Prop where
  remains : Remains g₀ g
  perm : g₀.present.Perm (g.present ++ (plan.stack ++ plan.spilled))
  few : ∀ v ∈ plan.stack, (g.history v).length < k
  later : plan.stack.Pairwise fun u v => g₀.Adj v u → u ∈ g.history v

theorem planned_start {k : Nat} {g : Graph} (hg : g.Valid) : Planned k g g {} where
  remains := Remains.refl hg
  perm := by simp
  few v hv := by cases hv
  later := List.Pairwise.nil

section Step

variable {k : Nat} {g₀ g : Graph} {plan : Plan}

theorem Planned.nodup (h : Planned k g₀ g plan) :
    (g.present ++ (plan.stack ++ plan.spilled)).Nodup :=
  h.perm.nodup_iff.1 g₀.present_nodup

theorem Planned.mem_start (h : Planned k g₀ g plan) {v : Nat} (hv : v ∈ plan.stack) :
    g₀.has v = true :=
  mem_present.1 (h.perm.mem_iff.2 (by simp [hv]))

theorem Planned.gone (h : Planned k g₀ g plan) {v : Nat} (hv : v ∈ plan.stack) :
    g.has v = false := by
  by_contra hhas
  have hmem : v ∈ g.present := mem_present.2 (by simpa using hhas)
  exact (List.nodup_append.1 h.nodup).2.2 v hmem v (by simp [hv]) rfl

/-- Taking a node out leaves the stack as it is, with all that its nodes list. -/
theorem Planned.stack_without (h : Planned k g₀ g plan) {v : Nat} (hv : g.has v = true) :
    (∀ u ∈ plan.stack, ((g.without v).history u).length < k) ∧
      plan.stack.Pairwise fun u w => g₀.Adj w u → u ∈ (g.without v).history w := by
  have hsame : ∀ u ∈ plan.stack, (g.without v).history u = g.history u := by
    intro u hu
    have huv : u ≠ v := by
      rintro rfl
      simp [h.gone hu] at hv
    rw [history_without h.remains.valid hv, if_neg huv]
  constructor
  · intro u hu
    rw [hsame u hu]
    exact h.few u hu
  · refine h.later.imp_of_mem fun _ hw hlist hadj => ?_
    rw [hsame _ hw]
    exact hlist hadj

theorem Planned.push (h : Planned k g₀ g plan) {v : Nat} (hv : g.has v = true)
    (hdegree : g.degree v < k) :
    Planned k g₀ (g.without v) { plan with stack := v :: plan.stack } where
  remains := h.remains.without hv
  perm := by
    refine h.perm.trans ?_
    refine ((perm_present_without h.remains.valid hv).append_right _).trans ?_
    exact List.perm_middle.symm
  few u hu := by
    rcases List.mem_cons.1 hu with rfl | hu
    · rw [history_without h.remains.valid hv, if_pos rfl, ← degree_eq_length_neighbors]
      exact hdegree
    · exact (h.stack_without hv).1 u hu
  later := by
    refine List.pairwise_cons.2 ⟨fun u hu hadj => ?_, (h.stack_without hv).2⟩
    -- `v` was still there when `u` went
    have huv : u ≠ v := by
      rintro rfl
      simp [h.gone hu] at hv
    rw [history_without h.remains.valid hv, if_neg huv]
    exact h.remains.mem_history (h.mem_start hu) (h.gone hu) hadj hv

theorem Planned.spill (h : Planned k g₀ g plan) {v : Nat} (hv : g.has v = true) :
    Planned k g₀ (g.without v) { plan with spilled := plan.spilled ++ [v] } where
  remains := h.remains.without hv
  perm := by
    refine h.perm.trans ?_
    refine ((perm_present_without h.remains.valid hv).append_right _).trans ?_
    simp only [List.cons_append]
    rw [← List.append_assoc, ← List.append_assoc, ← List.append_assoc]
    exact (List.perm_append_singleton _ _).symm
  few := (h.stack_without hv).1
  later := (h.stack_without hv).2

end Step

theorem trivial?_eq_none_iff {g : Graph} {k : Nat} :
    trivial? g k = none ↔ ∀ u, g.has u = true → k ≤ g.degree u := by
  simp [trivial?, List.find?_eq_none, mem_present]

/-- The node that goes next is the lowest one with fewer than `k` neighbours. -/
theorem trivial?_eq_some_iff {g : Graph} {k v : Nat} : trivial? g k = some v ↔
    g.has v = true ∧ g.degree v < k ∧ ∀ u < v, g.has u = true → k ≤ g.degree u := by
  have hlowest {w : Nat} (h : trivial? g k = some w) :
      g.has w = true ∧ g.degree w < k ∧ ∀ u < w, g.has u = true → k ≤ g.degree u := by
    refine ⟨mem_present.1 (List.mem_of_find?_eq_some h), by simpa using List.find?_some h, ?_⟩
    obtain ⟨_, front, back, hsplit, hfront⟩ := List.find?_eq_some_iff_append.1 h
    have hsorted := g.present_pairwise
    rw [hsplit, List.pairwise_append, List.pairwise_cons] at hsorted
    intro u hu hhas
    have hmem := mem_present.2 hhas
    rw [hsplit, List.mem_append, List.mem_cons] at hmem
    rcases hmem with hmem | rfl | hmem
    · simpa using hfront u hmem
    · omega
    · have hlt := hsorted.2.1.1 u hmem
      omega
  refine ⟨hlowest, fun ⟨hv, hdegree, hbelow⟩ => ?_⟩
  cases h : trivial? g k with
  | none =>
    have hmany := trivial?_eq_none_iff.1 h v hv
    omega
  | some w =>
    obtain ⟨hw, hwdegree, hwbelow⟩ := hlowest h
    rcases Nat.lt_trichotomy w v with hlt | rfl | hlt
    · have hmany := hbelow w hlt hw
      omega
    · rfl
    · have hmany := hwbelow v hlt hv
      omega

theorem simplify_trivial {k n v : Nat} {g : Graph} {q : Queue} {plan : Plan}
    (htriv : trivial? g k = some v) (hv : g.has v = true) :
    simplify k (n + 1) q plan g =
      simplify k n q { plan with stack := v :: plan.stack } (g.without v) := by
  simp only [simplify, EStateM.get_bind, htriv]
  exact remove_bind hv _

theorem simplify_spill {k n v : Nat} {g : Graph} {q rest : Queue} {plan : Plan}
    (htriv : trivial? g k = none) (hpop : Queue.pop? g q = some (v, rest)) (hv : g.has v = true) :
    simplify k (n + 1) q plan g =
      simplify k n rest { plan with spilled := plan.spilled ++ [v] } (g.without v) := by
  simp only [simplify, EStateM.get_bind, htriv, hpop]
  exact remove_bind hv _

theorem Queue.Covers.without {g : Graph} {q : Queue} {v : Nat} (hg : g.Valid) (hv : g.has v = true)
    (hrest : ∀ w, g.has w = true → w ≠ v → ∃ c ∈ q, c.node = w) :
    Queue.Covers q (g.without v) := by
  intro w hw
  rw [has_without hg hv] at hw
  simp only [Bool.and_eq_true, Bool.not_eq_true', decide_eq_false_iff_not] at hw
  exact hrest w hw.1 hw.2

/-- The next node that goes has fewer than `k` neighbours. Where none has, one is given up. -/
theorem simplify_step {k n : Nat} {g₀ g : Graph} {q : Queue} {plan : Plan}
    (h : Planned k g₀ g plan) (hq : Queue.Covers q g) (hn : g.size = n + 1) :
    ∃ v q' plan', g.has v = true ∧
      simplify k (n + 1) q plan g = simplify k n q' plan' (g.without v) ∧
      Planned k g₀ (g.without v) plan' ∧ Queue.Covers q' (g.without v) ∧ (g.without v).size = n ∧
      (g.degree v < k ∧ plan'.spilled = plan.spilled ∨
        (∀ u, g.has u = true → k ≤ g.degree u) ∧ plan'.spilled = plan.spilled ++ [v]) := by
  have hvalid := h.remains.valid
  have hsize {v : Nat} (hv : g.has v = true) : (g.without v).size = n :=
    Nat.succ.inj ((hvalid.size_without hv).trans hn)
  cases htriv : trivial? g k with
  | some v =>
    obtain ⟨hv, hdegree, _⟩ := trivial?_eq_some_iff.1 htriv
    exact ⟨v, q, _, hv, simplify_trivial htriv hv, h.push hv hdegree,
      Queue.Covers.without hvalid hv fun w hw _ => hq w hw, hsize hv, Or.inl ⟨hdegree, rfl⟩⟩
  | none =>
    obtain ⟨u, hu⟩ := hvalid.exists_has (by omega)
    obtain ⟨v, rest, hpop, hv, hrest⟩ := Queue.pop?_of_covers hq hu
    exact ⟨v, rest, _, hv, simplify_spill htriv hpop hv, h.spill hv,
      Queue.Covers.without hvalid hv hrest, hsize hv, Or.inr ⟨trivial?_eq_none_iff.1 htriv, rfl⟩⟩

/-- As many steps as there are nodes take the whole graph apart. -/
theorem simplify_ok {k n : Nat} {g₀ g : Graph} {q : Queue} {plan : Plan}
    (h : Planned k g₀ g plan) (hq : Queue.Covers q g) (hn : g.size = n) :
    ∃ plan' g', simplify k n q plan g = .ok plan' g' ∧ Planned k g₀ g' plan' ∧ g'.size = 0 := by
  induction n generalizing g q plan with
  | zero => exact ⟨plan, g, rfl, h, hn⟩
  | succ n ih =>
    obtain ⟨v, q', plan', _, hrun, hplan, hcovers, hsize, _⟩ := simplify_step h hq hn
    rw [hrun]
    exact ih hplan hcovers hsize

section Select

variable {C : Type} [DecidableEq C]

theorem mem_usedColors {colors : List (Nat × C)} {vs : List Nat} {c : C} :
    c ∈ usedColors colors vs ↔ ∃ v ∈ vs, colors.lookup v = some c := by
  rw [usedColors, List.mem_eraseDups, List.mem_filterMap]

/-- Fewer nodes than colours leave a colour. -/
theorem exists_free_color {pool : List C} (hpool : pool.Nodup) (colors : List (Nat × C))
    {vs : List Nat} (h : vs.length < pool.length) :
    ∃ c, pool.find? (fun c => c ∉ usedColors colors vs) = some c := by
  rw [← Option.isSome_iff_exists, List.find?_isSome]
  by_contra hall
  have hsub : pool ⊆ vs.filterMap fun v => colors.lookup v := by
    intro c hc
    by_contra hno
    refine hall ⟨c, hc, ?_⟩
    rw [decide_eq_true_iff]
    rwa [usedColors, List.mem_eraseDups]
  have hle := (List.subperm_of_subset hpool hsub).length_le
  have hmap := List.length_filterMap_le (fun v => colors.lookup v) vs
  omega

/-- Whatever the graph is, colours are taken from the pool. -/
theorem mem_pool_of_select {g : Graph} {pool : List C} {stack : List Nat}
    {colors all : List (Nat × C)} (h : select g pool stack colors = .ok all)
    (hcolors : ∀ e ∈ colors, e.2 ∈ pool) : ∀ e ∈ all, e.2 ∈ pool := by
  induction stack generalizing colors with
  | nil =>
    cases h
    exact hcolors
  | cons v vs ih =>
    obtain ⟨ns, _, hrest⟩ := Except.bind_eq_ok.1 h
    cases hfind : pool.find? (fun c => c ∉ usedColors colors ns) with
    | none =>
      simp only [hfind] at hrest
      cases hrest
    | some c =>
      simp only [hfind] at hrest
      apply ih hrest
      intro e he
      rcases List.mem_cons.1 he with rfl | he
      · exact List.mem_of_find?_eq_some hfind
      · exact hcolors e he

/-- A stack whose nodes list their neighbours further up is coloured so that neighbours differ.
`colors` holds the nodes above the stack. -/
theorem select_ok {g : Graph} {pool : List C} (hpool : pool.Nodup) {R : Nat → Nat → Prop}
    (hsymm : ∀ u v, R u v → R v u) (hirrefl : ∀ v, ¬ R v v) (stack : List Nat)
    (colors : List (Nat × C))
    (hnodup : (stack ++ colors.map Prod.fst).Nodup)
    (hremoved : ∀ v ∈ stack, g.removed v = true)
    (hfew : ∀ v ∈ stack, (g.history v).length < pool.length)
    (hlater : stack.Pairwise fun u v => R v u → u ∈ g.history v)
    (habove : ∀ v ∈ stack, ∀ e ∈ colors, R v e.1 → e.1 ∈ g.history v)
    (hproper : ∀ d ∈ colors, ∀ e ∈ colors, R d.1 e.1 → d.2 ≠ e.2) :
    ∃ all, select g pool stack colors = .ok all ∧
      (all.map Prod.fst).Perm (stack ++ colors.map Prod.fst) ∧
      ∀ d ∈ all, ∀ e ∈ all, R d.1 e.1 → d.2 ≠ e.2 := by
  induction stack generalizing colors with
  | nil => exact ⟨colors, rfl, List.Perm.refl _, hproper⟩
  | cons v vs ih =>
    have hv : v ∈ v :: vs := List.mem_cons_self
    obtain ⟨c, hc⟩ := exists_free_color hpool colors (hfew v hv)
    have hcfree : c ∉ usedColors colors (g.history v) := by simpa using List.find?_some hc
    have hkeys : (colors.map Prod.fst).Nodup := (List.nodup_append.1 hnodup).2.1
    obtain ⟨hfirst, hpairs⟩ := List.pairwise_cons.1 hlater
    have hperm : (vs ++ (v :: colors.map Prod.fst)).Perm (v :: vs ++ colors.map Prod.fst) :=
      List.perm_middle
    -- a neighbour that has a colour already is listed, so its colour is in use
    have hdiffers : ∀ e ∈ colors, R v e.1 → c ≠ e.2 := by
      rintro e he hadj rfl
      refine hcfree (mem_usedColors.2 ⟨e.1, habove v hv e he hadj, ?_⟩)
      exact lookup_of_mem hkeys he
    have hrun : select g pool (v :: vs) colors = select g pool vs ((v, c) :: colors) := by
      simp only [select, removedNeighbors, hremoved v hv, if_true, bind, Except.bind]
      rw [show (g.node v).history = g.history v from rfl, hc]
    obtain ⟨all, hall, hallperm, hallproper⟩ := ih ((v, c) :: colors)
      (hperm.nodup_iff.2 hnodup) (fun u hu => hremoved u (List.mem_cons_of_mem _ hu))
      (fun u hu => hfew u (List.mem_cons_of_mem _ hu)) hpairs
      (by
        intro u hu e he
        rcases List.mem_cons.1 he with rfl | he
        · exact hfirst u hu
        · exact habove u (List.mem_cons_of_mem _ hu) e he)
      (by
        intro d hd e he hadj
        rcases List.mem_cons.1 hd with rfl | hd <;> rcases List.mem_cons.1 he with rfl | he
        · exact absurd hadj (hirrefl _)
        · exact hdiffers e he hadj
        · exact (hdiffers d hd (hsymm _ _ hadj)).symm
        · exact hproper d hd e he hadj)
    exact ⟨all, hrun.trans hall, hallperm.trans hperm, hallproper⟩

end Select

/-- A colouring of a graph: every node stands in one of the three lists, those that are never read
in the last one, and neighbours have different colours of the pool. -/
structure Fits {C : Type} (c : Coloring C) (g : Graph) (freq : Frequency) (pool : List C) : Prop where
  perm : g.present.Perm (c.colors.map Prod.fst ++ c.spilled ++ c.dead)
  dead_iff : ∀ {v}, v ∈ c.dead ↔ g.has v = true ∧ freq.get v = 0
  mem_pool : ∀ e ∈ c.colors, e.2 ∈ pool
  proper : ∀ d ∈ c.colors, ∀ e ∈ c.colors, g.Adj d.1 e.1 → d.2 ≠ e.2

section Fits

variable {C : Type} {c : Coloring C} {g : Graph} {freq : Frequency} {pool : List C}

theorem Fits.nodup (h : c.Fits g freq pool) :
    (c.colors.map Prod.fst ++ c.spilled ++ c.dead).Nodup :=
  h.perm.nodup_iff.1 g.present_nodup

theorem Fits.mem_iff (h : c.Fits g freq pool) {v : Nat} :
    g.has v = true ↔ v ∈ c.colors.map Prod.fst ∨ v ∈ c.spilled ∨ v ∈ c.dead := by
  rw [← mem_present, h.perm.mem_iff, List.mem_append, List.mem_append, or_assoc]

end Fits

end Coloring

open Coloring

namespace Graph

variable {C : Type} [DecidableEq C]

theorem color_eq {freq : Frequency} {pool : List C} {g g₁ g₂ : Graph} {dead : List Nat}
    {plan : Plan} {colors : List (Nat × C)} (hdead : dropUnread freq g.present g = .ok dead g₁)
    (hplan : simplify pool.length g₁.size
      (g₁.present.foldl (fun q v => Queue.push ⟨freq.get v, v⟩ q) []) {} g₁ = .ok plan g₂)
    (hcolors : select g₂ pool plan.stack [] = .ok colors) :
    color freq pool g = .ok { colors, spilled := plan.spilled, dead } g₂ := by
  rw [color, EStateM.get_bind, EStateM.bind_of_ok hdead, EStateM.get_bind,
    EStateM.bind_of_ok hplan, EStateM.get_bind]
  simp only [hcolors]
  rfl

theorem mem_pool_of_color {freq : Frequency} {pool : List C} {g g' : Graph} {c : Coloring C}
    (h : color freq pool g = .ok c g') : ∀ e ∈ c.colors, e.2 ∈ pool := by
  unfold color at h
  rw [EStateM.get_bind] at h
  obtain ⟨dead, g₁, _, h⟩ := EStateM.of_bind_ok h
  rw [EStateM.get_bind] at h
  obtain ⟨plan, g₂, _, h⟩ := EStateM.of_bind_ok h
  rw [EStateM.get_bind] at h
  cases hselect : select g₂ pool plan.stack [] with
  | error e =>
    rw [hselect] at h
    cases h
  | ok colors =>
    rw [hselect] at h
    cases h
    exact mem_pool_of_select hselect (List.forall_mem_nil _)

/-- Every valid graph is coloured, and none of its nodes is left. -/
theorem exists_color {g : Graph} (hg : g.Valid) (freq : Frequency) {pool : List C}
    (hpool : pool.Nodup) :
    ∃ c g', color freq pool g = .ok c g' ∧ g'.size = 0 ∧ c.Fits g freq pool := by
  obtain ⟨g₁, hdead, hg₁, hhas⟩ := dropUnread_ok freq g.present_nodup (Remains.refl hg)
    fun v hv => mem_present.1 hv
  obtain ⟨plan, g₂, hplan, hplanned, hsize⟩ := simplify_ok (k := pool.length)
    (planned_start hg₁.valid) (Queue.covers_fill freq g₁) rfl
  have hnone : g₂.present = [] := by
    rw [← List.length_eq_zero_iff, ← hplanned.remains.valid.size_eq, hsize]
  have hstart : g₁.present.Perm (plan.stack ++ plan.spilled) := by
    simpa [hnone] using hplanned.perm
  obtain ⟨colors, hcolors, hkeys, hproper⟩ := select_ok (g := g₂)
    hpool (R := g₁.Adj) (fun _ _ h => hg₁.valid.symm h) hg₁.valid.irrefl plan.stack []
    (by simpa using (List.nodup_append.1 (hstart.nodup_iff.1 g₁.present_nodup)).1)
    (fun v hv => hplanned.remains.removed_of_gone (hplanned.mem_start hv) (hplanned.gone hv))
    hplanned.few hplanned.later (by simp) (by simp)
  rw [List.map_nil, List.append_nil] at hkeys
  have hdeadIff (v : Nat) :
      v ∈ (g.present.filter fun v => freq.get v = 0) ↔ g.has v = true ∧ freq.get v = 0 := by
    rw [List.mem_filter, mem_present, decide_eq_true_iff]
  have hlive : ∀ e ∈ colors, g₁.has e.1 = true := by
    intro e he
    exact hplanned.mem_start (hkeys.mem_iff.1 (List.mem_map_of_mem he))
  have hcolor := color_eq hdead hplan hcolors
  refine ⟨_, g₂, hcolor, hsize, ?_, hdeadIff _, mem_pool_of_color hcolor, ?_⟩
  · -- the nodes that are read are those of `g₁`
    have hsplit : g.present.Perm (g₁.present ++ g.present.filter fun v => freq.get v = 0) := by
      have hdisjoint : ∀ v ∈ g₁.present, v ∉ g.present.filter fun v => freq.get v = 0 := by
        intro v hv hd
        rw [hdeadIff] at hd
        simp [mem_present, hhas, hd.2] at hv
      rw [List.perm_ext_iff_of_nodup g.present_nodup (List.nodup_append.2
        ⟨g₁.present_nodup, g.present_nodup.filter _, fun a ha b hb h => hdisjoint a ha (h ▸ hb)⟩)]
      intro v
      by_cases hz : freq.get v = 0 <;> simp [mem_present, hhas, hz]
    exact hsplit.trans ((hstart.trans (hkeys.symm.append_right _)).append_right _)
  · intro d hd e he hadj
    exact hproper d hd e he (hg₁.adj_iff.2 ⟨hadj, hlive d hd, hlive e he⟩)

/-- Colouring a graph that any commands have made gives every node one place, with different
colours for neighbours, and never runs out of colours. -/
theorem color_after_valid (cs : List Command) (freq : Frequency) (pool : List C)
    (hpool : pool.Nodup) :
    ∃ c g', color freq pool (after cs) = .ok c g' ∧ g'.size = 0 ∧
      (c.colors.map Prod.fst ++ c.spilled ++ c.dead).Nodup ∧
      (∀ v, v ∈ c.colors.map Prod.fst ++ c.spilled ++ c.dead ↔ (after cs).has v = true) ∧
      (∀ v, v ∈ c.dead ↔ (after cs).has v = true ∧ freq.get v = 0) ∧
      (∀ e ∈ c.colors, e.2 ∈ pool) ∧
      ∀ u v, (after cs).hasEdge u v = true →
        ∀ x y, c.color? u = some x → c.color? v = some y → x ≠ y := by
  obtain ⟨c, g', hrun, hsize, hfits⟩ := exists_color (valid_after cs) freq hpool
  refine ⟨c, g', hrun, hsize, hfits.nodup, fun v => ?_, fun v => hfits.dead_iff, hfits.mem_pool, ?_⟩
  · rw [← hfits.perm.mem_iff, mem_present]
  · intro u v hedge x y hx hy
    rw [hasEdge, Bool.and_eq_true] at hedge
    exact hfits.proper (u, x) (mem_of_lookup hx) (v, y) (mem_of_lookup hy) hedge.2

/-- Of a triangle that is read one node is spilled, and the other two have different colours. The
node beside it is not read. -/
theorem color_after_valid_triangle :
    let cs : List Command := [.addEdge 0 1, .addEdge 1 2, .addEdge 2 0, .addEdge 2 7]
    let freq : Frequency := [0, 1, 2].foldl Frequency.addRead {}
    [10, 20].Nodup ∧ (after cs).hasEdge 1 2 = true ∧
      ∃ c g' x y, color freq [10, 20] (after cs) = .ok c g' ∧ g'.size = 0 ∧ 7 ∈ c.dead ∧
        c.spilled = [0] ∧ c.color? 1 = some x ∧ c.color? 2 = some y ∧ x ≠ y := by
  intro cs freq
  have hedge : (after cs).hasEdge 1 2 = true := by decide +kernel
  obtain ⟨c, g', hrun, hsize, _, _, hdead, _, hdiffer⟩ :=
    color_after_valid cs freq [10, 20] (by decide)
  obtain ⟨x, y, hcolor⟩ : ∃ x y, EStateM.run' (color freq [10, 20]) (after cs) =
      some ⟨[(1, x), (2, y)], [0], [7]⟩ := ⟨20, 10, by decide +kernel⟩
  rw [EStateM.run'_ok hrun] at hcolor
  cases hcolor
  exact ⟨by decide, hedge, _, g', x, y, hrun, hsize, (hdead 7).2 (by decide +kernel), rfl, rfl, rfl,
    hdiffer 1 2 hedge x y rfl rfl⟩

end Graph

end ExprBackend
