import ExprBackend.Proofs.Allocation
import ExprBackend.Proofs.Interference
import ExprBackend.Proofs.Spilling

/-!
# Straight-line code is allocated without waste

In a block without branches every variable is live over consecutive statements. Of some variables
take one that is live no longer than the others: all of them that conflict with it are live where
it is live last, so it has few neighbours if few are live at a time. Nothing is given up then, and
where too many are live at one statement something has to be.
-/

namespace ExprBackend

def Expr.branchless : Expr → Bool
  | .bind _ init => init.branchless
  | .branch _ _ _ => false
  | _ => true

def blockBranchless (b : Block) : Bool := b.all Expr.branchless

/-- No statement reads a name that is bound by it or by a later one. -/
def blockReadsBehind : Block → Bool
  | [] => true
  | x :: xs =>
    x.reads.all (fun z => z ∉ (blockBindings (x :: xs)).map Prod.fst) && blockReadsBehind xs

theorem Variables.name_eq_of_find? {vars : Variables} {z : String} {v : Nat}
    (h : vars.find? z = some v) : vars.name v = z := by
  rw [find?, lookup_ids, Array.findIdx?_eq_some_iff_getElem] at h
  obtain ⟨hv, hname, _⟩ := h
  rw [name, Array.getElem?_eq_getElem hv, Option.getD_some]
  exact of_decide_eq_true hname

theorem Variables.injective (vars : Variables) : vars.Injective := by
  intro y z v hy hz
  rw [← name_eq_of_find? hy, ← name_eq_of_find? hz]

namespace Liveness

variable {vars : Variables} {s : BitSet} {v : Nat}

theorem innerPoints_branchless : ∀ (x : Expr), x.branchless = true → innerPoints vars x s = []
  | .atom _, _ => by simp only [innerPoints]
  | .bind _ init, h => by
    rw [Expr.branchless] at h
    rw [innerPoints, innerPoints_branchless init h]
  | .unary _ _ _, _ => by simp only [innerPoints]
  | .binary _ _ _ _, _ => by simp only [innerPoints]
  | .branch _ _ _, h => by cases h
  | .missing, _ => by simp only [innerPoints]

/-- The points of a block without branches are its statements. -/
theorem live_blockPoints {xs : List Expr} (h : blockBranchless xs = true) :
    (blockPoints vars xs s).map Point.live = (liveEach vars xs s).reverse := by
  induction xs with
  | nil => rfl
  | cons x xs ih =>
    rw [blockBranchless, List.all_cons, Bool.and_eq_true] at h
    rw [blockPoints, innerPoints_branchless x h.1, List.append_nil, List.map_append, ih h.2,
      liveEach, List.reverse_cons, liveBlock]
    rfl

/-- A statement makes nothing live but what it reads. -/
theorem read_or_live : ∀ (x : Expr), x.branchless = true →
    (liveExpr vars x s).contains v = true →
    (∃ z ∈ x.reads, vars.find? z = some v) ∨ s.contains v = true
  | .atom x, _, hv => by
    rwa [liveExpr, BitSet.contains_insertAll, Atom.ids_eq, List.mem_filterMap] at hv
  | .bind name init, h, hv => by
    rw [Expr.branchless] at h
    rw [liveExpr, BitSet.contains_eraseAll] at hv
    rw [Expr.reads]
    exact read_or_live init h hv.2
  | .unary op x ty, _, hv => by
    rwa [liveExpr, BitSet.contains_insertAll, Atom.ids_eq, List.mem_filterMap] at hv
  | .binary op l r ty, _, hv => by
    rw [liveExpr, BitSet.contains_insertAll, BitSet.contains_insertAll, Atom.ids_eq, Atom.ids_eq,
      List.mem_filterMap, List.mem_filterMap] at hv
    simp only [Expr.reads, List.mem_append]
    grind
  | .branch cond onTrue onFalse, h, _ => by cases h
  | .missing, _, hv => by
    rw [liveExpr] at hv
    exact Or.inr hv

/-- What is live later and not bound on the way is live from the start. -/
theorem live_of_later {xs : List Expr} {z : String} (hz : vars.find? z = some v)
    (hunbound : z ∉ (blockBindings xs).map Prod.fst) {t : BitSet} (ht : t ∈ liveEach vars xs s)
    (hv : t.contains v = true) : (liveBlock vars xs s).contains v = true := by
  induction xs with
  | nil => cases ht
  | cons x xs ih =>
    rcases List.mem_cons.1 ht with rfl | ht
    · exact hv
    · have hrest : z ∉ (blockBindings xs).map Prod.fst := by
        rw [blockBindings, List.map_append, List.mem_append, not_or] at hunbound
        exact hunbound.2
      have hlive := ih hrest ht
      rw [live_liveBlock vars.injective hz xs s hrest] at hlive
      rw [live_liveBlock vars.injective hz _ s hunbound, blockReads, List.mem_append]
      rcases hlive with hread | hend
      · exact Or.inl (Or.inr hread)
      · exact Or.inr hend

/-- What is live at a statement and at a later one is live at the next one. -/
theorem live_tail {x : Expr} {xs : List Expr} {z : String} (hz : vars.find? z = some v)
    (hx : x.branchless = true) (hbehind : blockReadsBehind (x :: xs) = true)
    (hnow : (liveBlock vars (x :: xs) s).contains v = true) {t : BitSet}
    (ht : t ∈ liveEach vars xs s) (hlater : t.contains v = true) :
    (liveBlock vars xs s).contains v = true := by
  by_cases hbound : z ∈ (blockBindings xs).map Prod.fst
  · -- a name that is bound later is not read here
    rw [liveBlock] at hnow
    rcases read_or_live x hx hnow with ⟨y, hread, hy⟩ | hlive
    · rw [vars.injective y z v hy hz] at hread
      rw [blockReadsBehind, Bool.and_eq_true, List.all_eq_true] at hbehind
      have hno := of_decide_eq_true (hbehind.1 z hread)
      rw [blockBindings, List.map_append, List.mem_append, not_or] at hno
      exact absurd hbound hno.2
    · exact hlive
  · exact live_of_later hz hbound ht hlater

/-- What is read is live at the statement that reads it. -/
theorem exists_live_of_read {xs : List Expr} (hbehind : blockReadsBehind xs = true) {z : String}
    (hz : vars.find? z = some v) (hread : z ∈ blockReads xs) :
    ∃ t ∈ liveEach vars xs s, t.contains v = true := by
  induction xs with
  | nil => cases hread
  | cons x xs ih =>
    rw [blockReadsBehind, Bool.and_eq_true, List.all_eq_true] at hbehind
    rw [blockReads, List.mem_append] at hread
    rcases hread with hread | hread
    · have hno := of_decide_eq_true (hbehind.1 z hread)
      rw [blockBindings, List.map_append, List.mem_append, not_or] at hno
      refine ⟨liveBlock vars (x :: xs) s, List.mem_cons_self, ?_⟩
      rw [liveBlock, live_liveExpr vars.injective hz x _ hno.1]
      exact Or.inl hread
    · obtain ⟨t, ht, hv⟩ := ih hbehind.2 hread
      exact ⟨t, List.mem_cons_of_mem _ ht, hv⟩

/-- Sets in which every variable is live without a gap. -/
def Consecutive : List BitSet → Prop
  | [] => True
  | t :: ts =>
    (∀ v, t.contains v = true → (∃ u ∈ ts, u.contains v = true) →
      ∃ u ∈ ts.head?, u.contains v = true) ∧ Consecutive ts

theorem consecutive_liveEach {xs : List Expr} (hs : vars.Named s)
    (hbranchless : blockBranchless xs = true) (hbehind : blockReadsBehind xs = true) :
    Consecutive (liveEach vars xs s) := by
  induction xs with
  | nil => trivial
  | cons x xs ih =>
    have hx : x.branchless = true ∧ blockBranchless xs = true := by
      rwa [blockBranchless, List.all_cons, Bool.and_eq_true] at hbranchless
    have hrest : blockReadsBehind xs = true := by
      rw [blockReadsBehind, Bool.and_eq_true] at hbehind
      exact hbehind.2
    refine ⟨?_, ih hx.2 hrest⟩
    rintro v hnow ⟨t, ht, hlater⟩
    obtain ⟨z, hz⟩ := named_liveBlock (x :: xs) hs v hnow
    have hnext := live_tail hz hx.1 hbehind hnow ht hlater
    cases xs with
    | nil => cases ht
    | cons y ys => exact ⟨liveBlock vars (y :: ys) s, rfl, hnext⟩

/-- Of some variables one is live no longer than the others: those that are live together with it
are all live at one statement. -/
theorem exists_shortest {ts : List BitSet} (hts : Consecutive ts) {W : Finset Nat}
    (hW : W.Nonempty) (hlive : ∀ v ∈ W, ∃ t ∈ ts, t.contains v = true) :
    ∃ v ∈ W, ∃ t ∈ ts, t.contains v = true ∧
      ∀ u ∈ W, (∃ t' ∈ ts, t'.contains v = true ∧ t'.contains u = true) → t.contains u = true := by
  induction ts with
  | nil =>
    obtain ⟨v, hv⟩ := hW
    obtain ⟨t, ht, _⟩ := hlive v hv
    cases ht
  | cons t ts ih =>
    by_cases hfirst : ∃ v ∈ W, ∀ t' ∈ ts, t'.contains v = false
    · -- a variable that is live at the first statement only
      obtain ⟨v, hv, honly⟩ := hfirst
      have hhere : ∀ t' ∈ t :: ts, t'.contains v = true → t' = t := by
        intro t' ht' hv'
        rcases List.mem_cons.1 ht' with rfl | ht'
        · rfl
        · rw [honly t' ht'] at hv'
          cases hv'
      obtain ⟨t', ht', hv'⟩ := hlive v hv
      refine ⟨v, hv, t, List.mem_cons_self, hhere t' ht' hv' ▸ hv', ?_⟩
      rintro u _ ⟨t'', ht'', hv'', hu⟩
      rwa [← hhere t'' ht'' hv'']
    · -- all go on, so the first statement can be left out
      have hon : ∀ v ∈ W, ∃ t' ∈ ts, t'.contains v = true := by
        intro v hv
        by_contra hno
        refine hfirst ⟨v, hv, fun t' ht' => ?_⟩
        rw [← Bool.not_eq_true]
        exact fun hv' => hno ⟨t', ht', hv'⟩
      obtain ⟨v, hv, t', ht', hv', hall⟩ := ih hts.2 hon
      refine ⟨v, hv, t', List.mem_cons_of_mem _ ht', hv', ?_⟩
      rintro u hu ⟨t'', ht'', hv'', hu''⟩
      rcases List.mem_cons.1 ht'' with rfl | ht''
      · obtain ⟨n, hn, hvn⟩ := hts.1 v hv'' (hon v hv)
        obtain ⟨n', hn', hun⟩ := hts.1 u hu'' (hon u hu)
        obtain rfl : n = n' := Option.some.inj (hn.symm.trans hn')
        exact hall u hu ⟨n, List.mem_of_head? hn, hvn, hun⟩
      · exact hall u hu ⟨t'', ht'', hv'', hu''⟩

end Liveness

/-- A graph of what is live together over consecutive statements can be taken apart with `k` colours
if and only if at most `k` nodes are live at a time. -/
theorem Graph.reducible_iff_length_le {g : Graph} {S : Nat → Prop} [DecidablePred S] {k : Nat}
    {ts : List BitSet} (hts : Liveness.Consecutive ts)
    (hlive : ∀ v, S v → ∃ t ∈ ts, t.contains v = true)
    (hedge : ∀ u v, S u → S v → (g.hasEdge u v = true ↔
      u ≠ v ∧ ∃ t ∈ ts, t.contains u = true ∧ t.contains v = true)) :
    g.Reducible S k ↔ ∀ t ∈ ts, (t.keys.filter fun v => S v).length ≤ k := by
  have hmem (t : BitSet) (v : Nat) :
      v ∈ (t.keys.filter fun v => S v).toFinset ↔ t.contains v = true ∧ S v := by
    rw [List.mem_toFinset, List.mem_filter, BitSet.mem_keys, decide_eq_true_iff]
  have hcard (t : BitSet) :
      (t.keys.filter fun v => S v).toFinset.card = (t.keys.filter fun v => S v).length :=
    List.toFinset_card_of_nodup (t.keys_nodup.filter _)
  constructor
  · -- variables that are live together are all neighbours
    intro hred t ht
    by_contra hmany
    rw [Nat.not_le, ← hcard] at hmany
    obtain ⟨v, hv, hfew⟩ := hred (t.keys.filter fun v => S v).toFinset
      (Finset.card_pos.1 (Nat.zero_lt_of_lt hmany)) fun v hv => ((hmem t v).1 hv).2
    have hothers : ((t.keys.filter fun v => S v).toFinset.filter fun u => g.hasEdge v u = true) =
        (t.keys.filter fun v => S v).toFinset.erase v := by
      ext u
      rw [Finset.mem_filter, Finset.mem_erase, and_comm (a := u ≠ v)]
      refine and_congr_right fun hu => ?_
      obtain ⟨hvt, hvS⟩ := (hmem t v).1 hv
      obtain ⟨hut, huS⟩ := (hmem t u).1 hu
      rw [hedge v u hvS huS]
      exact ⟨fun h => h.1.symm, fun h => ⟨h.symm, t, ht, hvt, hut⟩⟩
    rw [hothers, Finset.card_erase_of_mem hv] at hfew
    omega
  · intro hle W hW hin
    obtain ⟨v, hv, t, ht, hvt, hall⟩ :=
      Liveness.exists_shortest hts hW fun v hv => hlive v (hin v hv)
    refine ⟨v, hv, ?_⟩
    have hsub : (W.filter fun u => g.hasEdge v u = true) ⊆
        (t.keys.filter fun v => S v).toFinset.erase v := by
      intro u hu
      rw [Finset.mem_filter] at hu
      obtain ⟨hne, htogether⟩ := (hedge v u (hin v hv) (hin u hu.1)).1 hu.2
      rw [Finset.mem_erase, hmem]
      exact ⟨hne.symm, hall u hu.1 htogether, hin u hu.1⟩
    have hself : v ∈ (t.keys.filter fun v => S v).toFinset := (hmem t v).2 ⟨hvt, hin v hv⟩
    calc (W.filter fun u => g.hasEdge v u = true).card
        ≤ ((t.keys.filter fun v => S v).toFinset.erase v).card := Finset.card_le_card hsub
      _ < (t.keys.filter fun v => S v).toFinset.card := Finset.card_erase_lt_of_mem hself
      _ ≤ k := (hcard t).trans_le (hle t ht)

/-- No name of a class is spilled if and only if no number of the class is. -/
theorem spill_free_iff {vars : Variables} {locs : List (Nat × Location)}
    (hnodup : (locs.map Prod.fst).Nodup)
    (hnames : ∀ e ∈ locs, vars.find? (vars.name e.1) = some e.1) {float : Bool}
    {spilled : List Nat} (hspilled : ∀ v, v ∈ spilled ↔ (v, .spill) ∈ locs ∧ vars.isFloat v = float) :
    (∀ z v, vars.find? z = some v → vars.isFloat v = float →
      Assignment.find? (locs.map fun e => (vars.name e.1, e.2)) z ≠ some .spill) ↔
      spilled = [] := by
  rw [List.eq_nil_iff_forall_not_mem]
  constructor
  · intro hnone v hv
    obtain ⟨hloc, hclass⟩ := (hspilled v).1 hv
    have hv := hnames _ hloc
    exact hnone _ v hv hclass ((find?_names hnodup hnames hv rfl).2 hloc)
  · intro hnone z v hz hclass hspill
    rw [find?_names hnodup hnames hz (Variables.name_eq_of_find? hz)] at hspill
    exact hnone v ((hspilled v).2 ⟨hspill, hclass⟩)

namespace Conflicts

variable {vars : Variables} {b : Block} {seed : List Nat} {c : Conflicts}

theorem named_ofList (hseed : ∀ v ∈ seed, ∃ z, vars.find? z = some v) :
    vars.Named (BitSet.ofList seed) := by
  intro v hv
  rw [BitSet.contains_ofList, decide_eq_true_iff] at hv
  exact hseed v hv

theorem named_of_isNode (hseed : ∀ v ∈ seed, ∃ z, vars.find? z = some v) {v : Nat}
    (hv : IsNode vars b seed v) : ∃ z, vars.find? z = some v := by
  rcases hv with hv | ⟨p, hp, ⟨z, _, _, hz⟩ | hlive⟩
  · exact hseed v hv
  · exact ⟨z, hz⟩
  · exact Liveness.named_blockPoints b (named_ofList hseed) p hp v hlive

/-- The graph of a class of a block without branches. -/
theorem reducible_graph_iff (hbranchless : blockBranchless b = true)
    (hbehind : blockReadsBehind b = true) (hseed : ∀ v ∈ seed, ∃ z, vars.find? z = some v)
    (hc : Shows vars (IsNode vars b seed) (LiveTogether vars b seed) c)
    (hfreq : c.freq = seed.foldl Frequency.note (Liveness.freqBlock vars b {})) (float : Bool)
    (k : Nat) :
    (c.graph float).Reducible (fun v => (c.graph float).has v = true ∧ c.freq.get v ≠ 0) k ↔
      ∀ p ∈ pointsOf vars b seed,
        (p.live.keys.filter fun v => vars.isFloat v = float ∧ c.freq.get v ≠ 0).length ≤ k := by
  have hpoints (t : BitSet) : t ∈ Liveness.liveEach vars b (BitSet.ofList seed) ↔
      ∃ p ∈ pointsOf vars b seed, p.live = t := by
    rw [← List.mem_reverse, ← Liveness.live_blockPoints hbranchless, List.mem_map]
    rfl
  have hconsecutive : Liveness.Consecutive (Liveness.liveEach vars b (BitSet.ofList seed)) :=
    Liveness.consecutive_liveEach (named_ofList hseed) hbranchless hbehind
  rw [Graph.reducible_iff_length_le hconsecutive]
  · simp only [hpoints, forall_exists_index, and_imp, forall_apply_eq_imp_iff₂]
    refine forall₂_congr fun p hp => ?_
    -- what is live is a node of its class
    have hsame : (p.live.keys.filter fun v => (c.graph float).has v = true ∧ c.freq.get v ≠ 0) =
        p.live.keys.filter fun v => vars.isFloat v = float ∧ c.freq.get v ≠ 0 := by
      apply List.filter_congr
      intro v hv
      have hnode : IsNode vars b seed v := Or.inr ⟨p, hp, Or.inr (BitSet.mem_keys.1 hv)⟩
      rw [decide_eq_decide, hc.has_iff, and_iff_right hnode]
    rw [hsame]
  · intro v hv
    have hcount := hv.2
    rw [hfreq, get_freq, Int.natCast_ne_zero, ← Nat.pos_iff_ne_zero,
      List.countP_pos_iff] at hcount
    obtain ⟨z, hread, hz⟩ := hcount
    exact Liveness.exists_live_of_read hbehind (of_decide_eq_true hz) hread
  · intro u v hu hv
    rw [(hc.valid float).hasEdge_iff, hc.adj_iff,
      and_iff_left ⟨((hc.has_iff _ _).1 hu.1).2, ((hc.has_iff _ _).1 hv.1).2⟩]
    simp only [hpoints, exists_exists_and_eq_and]
    constructor
    · rintro ⟨p, hp, hne, hlive⟩
      exact ⟨hne, p, hp, hlive⟩
    · rintro ⟨hne, p, hp, hlive⟩
      exact ⟨p, hp, hne, hlive⟩

/-- What is given up is spilled, each in its class. -/
theorem mem_spilled_iff {nodes : Nat → Prop} {edges : Nat → Nat → Prop} {pools : Pools}
    {general : Coloring Reg} {float : Coloring XReg} (hc : Shows vars nodes edges c)
    (hfit₀ : general.Fits (c.graph false) c.freq pools.general)
    (hfit₁ : float.Fits (c.graph true) c.freq pools.float) (v : Nat) :
    (v ∈ general.spilled ↔ (v, .spill) ∈ general.locations .reg ++ float.locations .xreg ∧
      vars.isFloat v = false) ∧
    (v ∈ float.spilled ↔ (v, .spill) ∈ general.locations .reg ++ float.locations .xreg ∧
      vars.isFloat v = true) := by
  have hspill : (v, .spill) ∈ general.locations .reg ++ float.locations .xreg ↔
      v ∈ general.spilled ∨ v ∈ float.spilled := by
    simp [Coloring.mem_locations]
  have hclass₀ (hv : v ∈ general.spilled) : vars.isFloat v = false :=
    ((hc.has_iff false v).1 (hfit₀.mem_iff.2 (Or.inr (Or.inl hv)))).2
  have hclass₁ (hv : v ∈ float.spilled) : vars.isFloat v = true :=
    ((hc.has_iff true v).1 (hfit₁.mem_iff.2 (Or.inr (Or.inl hv)))).2
  rw [hspill]
  grind

/-- In a block without branches a class has a register for every variable that needs one, if and only
if it has one for each of those that are live before any one statement. -/
theorem assign_optimal_branchless (vars : Variables) (b : Block) (seed : List Nat) (pools : Pools)
    (hnumbered : blockNumbered vars b = true) (hbranchless : blockBranchless b = true)
    (hbehind : blockReadsBehind b = true) (hseed : ∀ v ∈ seed, ∃ z, vars.find? z = some v)
    (hgeneral : pools.general.Nodup) (hfloat : pools.float.Nodup) :
    ∃ walk c asg, Liveness.ofBlock vars (.ofList seed) b = .ok walk ∧
      ofBlock vars b seed = .ok c ∧ c.assign vars pools = .ok asg ∧
      ((∀ z v, vars.find? z = some v → vars.isFloat v = false → asg.find? z ≠ some .spill) ↔
        ∀ p ∈ walk.points, (p.live.keys.filter fun v =>
          vars.isFloat v = false ∧ c.freq.get v ≠ 0).length ≤ pools.general.length) ∧
      ((∀ z v, vars.find? z = some v → vars.isFloat v = true → asg.find? z ≠ some .spill) ↔
        ∀ p ∈ walk.points, (p.live.keys.filter fun v =>
          vars.isFloat v = true ∧ c.freq.get v ≠ 0).length ≤ pools.float.length) := by
  obtain ⟨c, hc, hshows, hfreq⟩ := ofBlock_ok hnumbered seed
  obtain ⟨general, g₀, hcolor₀, _, hfit₀⟩ :=
    Graph.exists_color (hshows.valid false) c.freq hgeneral
  obtain ⟨float, g₁, hcolor₁, _, hfit₁⟩ := Graph.exists_color (hshows.valid true) c.freq hfloat
  have hlocated := located_locations hshows hfit₀ hfit₁
  have hnames : ∀ e ∈ general.locations .reg ++ float.locations .xreg,
      vars.find? (vars.name e.1) = some e.1 := by
    intro e he
    obtain ⟨z, hz⟩ := named_of_isNode hseed ((hlocated.nodes_iff e.1).2 ⟨e.2, he⟩)
    rwa [Variables.name_eq_of_find? hz]
  have hspilled := mem_spilled_iff hshows hfit₀ hfit₁
  refine ⟨_, c, _, Liveness.ofBlock_ok hnumbered _, hc,
    assign_eq (by rw [Graph.coloring, hcolor₀]) (by rw [Graph.coloring, hcolor₁]), ?_, ?_⟩
  · rw [spill_free_iff hlocated.nodup hnames fun v => (hspilled v).1,
      Graph.spilled_color (hshows.valid false) hcolor₀,
      reducible_graph_iff hbranchless hbehind hseed hshows hfreq]
    rfl
  · rw [spill_free_iff hlocated.nodup hnames fun v => (hspilled v).2,
      Graph.spilled_color (hshows.valid true) hcolor₁,
      reducible_graph_iff hbranchless hbehind hseed hshows hfreq]
    rfl

/-- Two registers do for three integers of which never more than two are live. Without a register for
floats one is spilled. -/
theorem assign_optimal_branchless_pairs :
    let vars : Variables :=
      .ofTyping [("x", .int), ("y", .int), ("p", .float), ("a", .int), ("q", .float)]
    let b : Block :=
      [.bind "a" (.binary .plus (.var "x" .int) (.var "y" .int) .int),
        .bind "q" (.binary .times (.var "p" .float) (.var "p" .float) .float),
        .binary .minus (.var "a" .int) (.var "y" .int) .int, .atom (.var "q" .float)]
    blockNumbered vars b = true ∧ blockBranchless b = true ∧ blockReadsBehind b = true ∧
      ∃ c asg, ofBlock vars b [1] = .ok c ∧ c.assign vars ⟨[.rcx, .rsi], []⟩ = .ok asg ∧
        (∀ z v, vars.find? z = some v → vars.isFloat v = false → asg.find? z ≠ some .spill) ∧
        ¬ ∀ z v, vars.find? z = some v → vars.isFloat v = true → asg.find? z ≠ some .spill := by
  intro vars b
  have hnumbered : blockNumbered vars b = true := by decide +kernel
  have hbranchless : blockBranchless b = true := by decide +kernel
  have hbehind : blockReadsBehind b = true := by decide +kernel
  refine ⟨hnumbered, hbranchless, hbehind, ?_⟩
  obtain ⟨walk, c, asg, hwalk, hc, hassign, hgeneral, hfloat⟩ :=
    assign_optimal_branchless vars b [1] ⟨[.rcx, .rsi], []⟩ hnumbered hbranchless hbehind
      (by
        intro v hv
        refine ⟨vars.name v, ?_⟩
        revert v
        decide +kernel)
      (by decide) (by decide)
  have hlive : ((Liveness.ofBlock vars (.ofList [1]) b).toOption.bind fun walk =>
      (ofBlock vars b [1]).toOption.map fun c =>
        decide ((∀ p ∈ walk.points, (p.live.keys.filter fun v =>
            vars.isFloat v = false ∧ c.freq.get v ≠ 0).length ≤ 2) ∧
          ¬ ∀ p ∈ walk.points, (p.live.keys.filter fun v =>
            vars.isFloat v = true ∧ c.freq.get v ≠ 0).length ≤ 0)) = some true := by
    decide +kernel
  rw [hwalk, hc] at hlive
  obtain ⟨hfew, hmany⟩ := of_decide_eq_true (Option.some.inj hlive)
  exact ⟨c, asg, hc, hassign, hgeneral.2 hfew, fun h => hmany (hfloat.1 h)⟩

end Conflicts

end ExprBackend
