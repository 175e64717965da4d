import ExprBackend.Interference.Conflicts
import ExprBackend.Proofs.Graph
import ExprBackend.Proofs.Walk

/-!
# Conflict graphs

The graphs of a block have a node for every variable that is live somewhere, is bound by a
statement or is live at the end, and an edge between any two variables of one class that are live
at one point.
-/

namespace ExprBackend.Conflicts

def graph (c : Conflicts) (float : Bool) : Graph := if float then c.float else c.general

def withGraph (c : Conflicts) (float : Bool) (g : Graph) : Conflicts :=
  if float then { c with float := g } else { c with general := g }

theorem graph_withGraph (c : Conflicts) (j k : Bool) (g : Graph) :
    (c.withGraph k g).graph j = if j = k then g else c.graph j := by
  cases j <;> cases k <;> rfl

theorem change_ok {c : Conflicts} {k : Bool} {x : EStateM Violation Graph Unit} {g : Graph}
    (h : x (c.graph k) = .ok () g) : change k x c = .ok ((), c.withGraph k g) := by
  have hget : (get : Build Conflicts) c = .ok (c, c) := rfl
  have hx : x (if k then c.float else c.general) = .ok () g := h
  rw [change, StateT.bind_of_ok hget, hx]
  rfl

/-- The graphs have the given nodes and edges, each variable in the graph of its class. -/
structure Shows (vars : Variables) (nodes : Nat → Prop) (edges : Nat → Nat → Prop)
    (c : Conflicts) : Prop where
  valid : ∀ k, (c.graph k).Valid
  kept : ∀ k v, (c.graph k).removed v = false
  has_iff : ∀ k v, (c.graph k).has v = true ↔ nodes v ∧ vars.isFloat v = k
  adj_iff : ∀ k a b, (c.graph k).Adj a b ↔ edges a b ∧ vars.isFloat a = k ∧ vars.isFloat b = k

variable {vars : Variables} {nodes : Nat → Prop} {edges : Nat → Nat → Prop} {c : Conflicts}

theorem Shows.congr {nodes' : Nat → Prop} {edges' : Nat → Nat → Prop}
    (h : Shows vars nodes edges c) (hnodes : ∀ v, nodes v ↔ nodes' v)
    (hedges : ∀ a b, edges a b ↔ edges' a b) : Shows vars nodes' edges' c where
  valid := h.valid
  kept := h.kept
  has_iff k v := by rw [h.has_iff, hnodes]
  adj_iff k a b := by rw [h.adj_iff, hedges]

theorem shows_empty (vars : Variables) :
    Shows vars (fun _ => False) (fun _ _ => False) {} := by
  have hgraph (k : Bool) : graph {} k = {} := by cases k <;> rfl
  constructor
  · intro k
    rw [hgraph]
    exact Graph.valid_empty
  · intro k v
    rw [hgraph]
    simp [Graph.removed, Graph.node]
  · intro k v
    rw [hgraph]
    simp [Graph.has, Graph.node]
  · intro k a b
    rw [hgraph]
    simp [Graph.Adj, Graph.node]

theorem Shows.addVariable (h : Shows vars nodes edges c) (v : Nat) :
    ∃ c', addVariable vars v c = .ok ((), c') ∧
      Shows vars (fun u => u = v ∨ nodes u) edges c' := by
  have hadd : Graph.addNode v (c.graph (vars.isFloat v)) =
      .ok () ((c.graph (vars.isFloat v)).withNode v) := by
    rw [Graph.addNode_eq, h.kept]
    rfl
  refine ⟨_, change_ok hadd, ?_, ?_, ?_, ?_⟩
  · intro k
    rw [graph_withGraph]
    split
    · exact (h.valid _).withNode (h.kept _ _)
    · exact h.valid k
  · intro k u
    rw [graph_withGraph]
    split
    · rw [Graph.removed_withNode, h.kept]
    · exact h.kept k u
  · intro k u
    rw [graph_withGraph]
    split
    next hk => rw [Graph.has_withNode, Bool.or_eq_true, h.has_iff, decide_eq_true_iff]; grind
    next hk => rw [h.has_iff]; grind
  · intro k a b
    rw [graph_withGraph]
    split
    next hk => rw [Graph.adj_withNode, h.adj_iff, hk]
    next hk => exact h.adj_iff k a b

/-- A pair becomes an edge if both are of one class, and then both are nodes. -/
theorem Shows.addPair (h : Shows vars nodes edges c) {v u : Nat} (hne : v ≠ u) (hv : nodes v) :
    ∃ c', addPair vars v u c = .ok ((), c') ∧
      Shows vars (fun x => (x = u ∧ vars.isFloat u = vars.isFloat v) ∨ nodes x)
        (fun a b => (a = v ∧ b = u) ∨ (a = u ∧ b = v) ∨ edges a b) c' := by
  by_cases hclass : vars.isFloat u = vars.isFloat v
  · have hadd : Graph.addEdge v u (c.graph (vars.isFloat v)) =
        .ok () ((c.graph (vars.isFloat v)).withEdge v u) := by
      rw [Graph.addEdge_eq, if_neg hne, h.kept, h.kept]
      rfl
    have hpair : Conflicts.addPair vars v u c = .ok ((), c.withGraph (vars.isFloat v)
        ((c.graph (vars.isFloat v)).withEdge v u)) := by
      rw [Conflicts.addPair, if_pos hclass]
      exact change_ok hadd
    refine ⟨_, hpair, ?_, ?_, ?_, ?_⟩
    · intro k
      rw [graph_withGraph]
      split
      · exact (h.valid _).withEdge (h.kept _ _) (h.kept _ _) hne
      · exact h.valid k
    · intro k x
      rw [graph_withGraph]
      split
      · rw [Graph.removed_withEdge, h.kept]
      · exact h.kept k x
    · intro k x
      rw [graph_withGraph]
      split
      next hk =>
        rw [Graph.has_withEdge, Bool.or_eq_true, Bool.or_eq_true, h.has_iff, decide_eq_true_iff,
          decide_eq_true_iff]
        grind
      next hk => rw [h.has_iff]; grind
    · intro k a b
      rw [graph_withGraph]
      split
      next hk => rw [Graph.adj_withEdge hne, h.adj_iff]; grind
      next hk => rw [h.adj_iff]; grind
  · refine ⟨c, ?_, ?_⟩
    · rw [Conflicts.addPair, if_neg hclass]
      rfl
    · constructor
      · exact h.valid
      · exact h.kept
      · intro k x
        rw [h.has_iff]
        grind
      · intro k a b
        rw [h.adj_iff]
        grind

theorem Shows.addPairs (h : Shows vars nodes edges c) {v : Nat} (hv : nodes v) {us : List Nat}
    (hus : v ∉ us) :
    ∃ c', us.forM (Conflicts.addPair vars v) c = .ok ((), c') ∧
      Shows vars (fun x => (x ∈ us ∧ vars.isFloat x = vars.isFloat v) ∨ nodes x)
        (fun a b => (a = v ∧ b ∈ us) ∨ (a ∈ us ∧ b = v) ∨ edges a b) c' := by
  induction us generalizing nodes edges c with
  | nil => exact ⟨c, rfl, h.congr (by simp) (by simp)⟩
  | cons u us ih =>
    rw [List.mem_cons, not_or] at hus
    obtain ⟨c₁, hrun₁, h₁⟩ := h.addPair hus.1 hv
    obtain ⟨c₂, hrun₂, h₂⟩ := ih h₁ (Or.inr hv) hus.2
    refine ⟨c₂, ?_, h₂.congr ?_ ?_⟩
    · exact (StateT.bind_of_ok hrun₁).trans hrun₂
    · grind
    · grind

theorem Shows.addClique (h : Shows vars nodes edges c) {vs : List Nat} (hvs : vs.Nodup) :
    ∃ c', addClique vars vs c = .ok ((), c') ∧ Shows vars (fun x => x ∈ vs ∨ nodes x)
      (fun a b => (a ≠ b ∧ a ∈ vs ∧ b ∈ vs) ∨ edges a b) c' := by
  induction vs generalizing nodes edges c with
  | nil => exact ⟨c, rfl, h.congr (by simp) (by simp)⟩
  | cons v vs ih =>
    rw [List.nodup_cons] at hvs
    obtain ⟨c₁, hrun₁, h₁⟩ := h.addVariable v
    obtain ⟨c₂, hrun₂, h₂⟩ := h₁.addPairs (Or.inl rfl) hvs.1
    obtain ⟨c₃, hrun₃, h₃⟩ := ih h₂ hvs.2
    refine ⟨c₃, ?_, h₃.congr ?_ ?_⟩
    · rw [Conflicts.addClique, StateT.bind_of_ok hrun₁, StateT.bind_of_ok hrun₂, hrun₃]
    · grind
    · grind

/-- A variable is bound by the statement of a point. -/
def Binds (vars : Variables) (p : Point) (v : Nat) : Prop :=
  ∃ name init, p.statement = .bind name init ∧ vars.find? name = some v

def Numbered (vars : Variables) (p : Point) : Prop :=
  ∀ name init, p.statement = .bind name init → ∃ v, vars.find? name = some v

theorem Shows.addPoint (h : Shows vars nodes edges c) {p : Point} (hp : Numbered vars p) :
    ∃ c', addPoint vars p c = .ok ((), c') ∧
      Shows vars (fun x => Binds vars p x ∨ p.live.contains x = true ∨ nodes x)
        (fun a b => (a ≠ b ∧ p.live.contains a = true ∧ p.live.contains b = true) ∨ edges a b)
        c' := by
  cases hstatement : p.statement with
  | bind name init =>
    obtain ⟨v, hv⟩ := hp name init hstatement
    obtain ⟨c₁, hrun₁, h₁⟩ := h.addVariable v
    obtain ⟨c₂, hrun₂, h₂⟩ := h₁.addClique p.live.keys_nodup
    have hnumber : (liftM (vars.number name) : Build Nat) c = .ok (v, c) := by
      rw [Liveness.number_ok hv]
      rfl
    have hbinds (x : Nat) : Binds vars p x ↔ x = v := by
      constructor
      · rintro ⟨name', init', heq, hx⟩
        rw [hstatement] at heq
        cases heq
        exact Option.some.inj (hx.symm.trans hv)
      · rintro rfl
        exact ⟨name, init, hstatement, hv⟩
    refine ⟨c₂, ?_, h₂.congr (fun x => ?_) (fun a b => ?_)⟩
    · rw [Conflicts.addPoint, hstatement]
      exact (StateT.bind_of_ok hnumber).trans ((StateT.bind_of_ok hrun₁).trans hrun₂)
    · rw [BitSet.mem_keys, hbinds]
      exact or_left_comm
    · rw [BitSet.mem_keys, BitSet.mem_keys]
  | _ =>
    obtain ⟨c₁, hrun₁, h₁⟩ := h.addClique p.live.keys_nodup
    refine ⟨c₁, ?_, h₁.congr (fun x => ?_) (fun a b => ?_)⟩
    · rw [Conflicts.addPoint, hstatement]
      exact hrun₁
    · have hno : ¬ Binds vars p x := by
        rintro ⟨name, init, heq, _⟩
        rw [hstatement] at heq
        cases heq
      rw [BitSet.mem_keys, or_iff_right hno]
    · rw [BitSet.mem_keys, BitSet.mem_keys]

theorem Shows.addPoints (h : Shows vars nodes edges c) {ps : List Point}
    (hps : ∀ p ∈ ps, Numbered vars p) :
    ∃ c', ps.forM (Conflicts.addPoint vars) c = .ok ((), c') ∧
      Shows vars (fun x => (∃ p ∈ ps, Binds vars p x ∨ p.live.contains x = true) ∨ nodes x)
        (fun a b => (∃ p ∈ ps, a ≠ b ∧ p.live.contains a = true ∧ p.live.contains b = true) ∨
          edges a b) c' := by
  induction ps generalizing nodes edges c with
  | nil => exact ⟨c, rfl, h.congr (by simp) (by simp)⟩
  | cons p ps ih =>
    obtain ⟨c₁, hrun₁, h₁⟩ := h.addPoint (hps p (by simp))
    obtain ⟨c₂, hrun₂, h₂⟩ := ih h₁ fun q hq => hps q (List.mem_cons_of_mem _ hq)
    refine ⟨c₂, (StateT.bind_of_ok hrun₁).trans hrun₂, h₂.congr ?_ ?_⟩
    · grind
    · grind

theorem Shows.addVariables (h : Shows vars nodes edges c) (vs : List Nat) :
    ∃ c', vs.forM (Conflicts.addVariable vars) c = .ok ((), c') ∧
      Shows vars (fun x => x ∈ vs ∨ nodes x) edges c' := by
  induction vs generalizing nodes c with
  | nil => exact ⟨c, rfl, h.congr (by simp) (by simp)⟩
  | cons v vs ih =>
    obtain ⟨c₁, hrun₁, h₁⟩ := h.addVariable v
    obtain ⟨c₂, hrun₂, h₂⟩ := ih h₁
    refine ⟨c₂, (StateT.bind_of_ok hrun₁).trans hrun₂, h₂.congr ?_ (by simp)⟩
    grind

mutual

theorem numbered_innerPoints : ∀ (x : Expr) (s : BitSet), x.numbered vars = true →
    ∀ p ∈ Liveness.innerPoints vars x s, Numbered vars p
  | .atom x, s, h, p, hp => by simp [Liveness.innerPoints] at hp
  | .bind name init, s, h, p, hp => by
    rw [Expr.numbered, Bool.and_eq_true] at h
    rw [Liveness.innerPoints] at hp
    exact numbered_innerPoints init s h.2 p hp
  | .unary op x ty, s, h, p, hp => by simp [Liveness.innerPoints] at hp
  | .binary op l r ty, s, h, p, hp => by simp [Liveness.innerPoints] at hp
  | .branch cond onTrue none, s, h, p, hp => by
    simp only [Expr.numbered, Bool.and_eq_true] at h
    simp only [Liveness.innerPoints, List.append_nil] at hp
    exact numbered_blockPoints onTrue s h.1.2 p hp
  | .branch cond onTrue (some b), s, h, p, hp => by
    simp only [Expr.numbered, Bool.and_eq_true] at h
    simp only [Liveness.innerPoints, List.mem_append] at hp
    rcases hp with hp | hp
    · exact numbered_blockPoints onTrue s h.1.2 p hp
    · exact numbered_blockPoints b s h.2 p hp
  | .missing, s, h, p, hp => by simp [Liveness.innerPoints] at hp

theorem numbered_blockPoints : ∀ (xs : List Expr) (s : BitSet), blockNumbered vars xs = true →
    ∀ p ∈ Liveness.blockPoints vars xs s, Numbered vars p
  | [], s, h, p, hp => by simp [Liveness.blockPoints] at hp
  | x :: xs, s, h, p, hp => by
    rw [blockNumbered, Bool.and_eq_true] at h
    simp only [Liveness.blockPoints, List.mem_append, List.mem_singleton] at hp
    rcases hp with (hp | hp) | rfl
    · exact numbered_blockPoints xs s h.2 p hp
    · exact numbered_innerPoints x _ h.1 p hp
    · intro name init hstatement
      obtain rfl : x = .bind name init := hstatement
      rw [Expr.numbered, Bool.and_eq_true, Option.isSome_iff_exists] at h
      exact h.1.1

end

/-- The points of a block at whose end the given variables are live. -/
def pointsOf (vars : Variables) (b : Block) (seed : List Nat) : List Point :=
  Liveness.blockPoints vars b (BitSet.ofList seed)

def IsNode (vars : Variables) (b : Block) (seed : List Nat) (v : Nat) : Prop :=
  v ∈ seed ∨ ∃ p ∈ pointsOf vars b seed, Binds vars p v ∨ p.live.contains v = true

def LiveTogether (vars : Variables) (b : Block) (seed : List Nat) (u v : Nat) : Prop :=
  ∃ p ∈ pointsOf vars b seed, u ≠ v ∧ p.live.contains u = true ∧ p.live.contains v = true

theorem ofBlock_ok {b : Block} (hb : blockNumbered vars b = true) (seed : List Nat) :
    ∃ c, ofBlock vars b seed = .ok c ∧
      Shows vars (IsNode vars b seed) (LiveTogether vars b seed) c ∧
      c.freq = seed.foldl Frequency.note (Liveness.freqBlock vars b {}) := by
  have hwalk := Liveness.ofBlock_ok hb (BitSet.ofList seed)
  obtain ⟨c₁, hrun₁, h₁⟩ := (shows_empty vars).addPoints
    (numbered_blockPoints b (BitSet.ofList seed) hb)
  obtain ⟨c₂, hrun₂, h₂⟩ := h₁.addVariables seed
  have hshows : Shows vars (IsNode vars b seed) (LiveTogether vars b seed) c₂ := by
    refine h₂.congr (fun v => ?_) (fun u v => ?_)
    · simp only [or_false]
      rfl
    · simp only [or_false]
      rfl
  refine ⟨{ c₂ with freq := seed.foldl Frequency.note (Liveness.freqBlock vars b {}) }, ?_,
    ⟨hshows.valid, hshows.kept, hshows.has_iff, hshows.adj_iff⟩, rfl⟩
  have hbuild : (do
      (pointsOf vars b seed).forM (addPoint vars)
      seed.forM (addVariable vars) : Build Unit) {} = .ok ((), c₂) :=
    (StateT.bind_of_ok hrun₁).trans hrun₂
  rw [ofBlock, hwalk]
  change ((do
      (pointsOf vars b seed).forM (addPoint vars)
      seed.forM (addVariable vars) : Build Unit) {} >>= _) = _
  rw [hbuild]
  rfl

end ExprBackend.Conflicts
