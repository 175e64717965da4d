import ExprBackend.Interference.Command
import ExprBackend.Proofs.BitSet
import ExprBackend.Proofs.Results
import Mathlib.Data.List.Perm.Basic

/-!
# The theory of interference graphs

A graph is seen through four observations of its nodes: presence, removal, adjacency and the
history that a removed node keeps. Each operation is described by what it does to them, and
`Valid` collects what every sequence of commands keeps, commands that fail half way included.
-/

namespace ExprBackend.Graph

def Adj (g : Graph) (a b : Nat) : Prop := (g.node a).adjacent.contains b = true

/-- The neighbours that a node had when it was taken out. -/
def history (g : Graph) (v : Nat) : List Nat := (g.node v).history

theorem mem_neighbors {g : Graph} {a b : Nat} : b ∈ g.neighbors a ↔ g.Adj a b :=
  BitSet.mem_keys

theorem degree_eq_length_neighbors (g : Graph) (v : Nat) :
    g.degree v = (g.neighbors v).length :=
  BitSet.size_eq_length_keys _

theorem lt_size_of_has {g : Graph} {v : Nat} (h : g.has v = true) : v < g.nodes.size := by
  by_contra hge
  simp [has, node, Array.getElem?_eq_none (Nat.not_lt.1 hge)] at h

theorem mem_present {g : Graph} {v : Nat} : v ∈ g.present ↔ g.has v = true := by
  simp only [present, List.mem_filter, List.mem_range, and_iff_right_iff_imp]
  exact lt_size_of_has

theorem present_pairwise (g : Graph) : g.present.Pairwise (· < ·) :=
  List.pairwise_lt_range.filter _

theorem present_nodup (g : Graph) : g.present.Nodup :=
  g.present_pairwise.imp fun h => Nat.ne_of_lt h

/-- What holds of a graph after any commands. -/
structure Valid (g : Graph) : Prop where
  symm : ∀ {a b}, g.Adj a b → g.Adj b a
  irrefl : ∀ a, ¬ g.Adj a a
  has_of_adj : ∀ {a b}, g.Adj a b → g.has a = true
  not_removed : ∀ {v}, g.has v = true → g.removed v = false
  size_eq : g.size = g.present.length

theorem Valid.has_of_adj_right {g : Graph} (hg : g.Valid) {a b : Nat} (h : g.Adj a b) :
    g.has b = true :=
  hg.has_of_adj (hg.symm h)

theorem Valid.exists_has {g : Graph} (hg : g.Valid) (hne : g.size ≠ 0) : ∃ v, g.has v = true := by
  rw [hg.size_eq] at hne
  obtain ⟨v, hv⟩ := List.exists_mem_of_length_pos (Nat.pos_of_ne_zero hne)
  exact ⟨v, mem_present.1 hv⟩

theorem Valid.hasEdge_iff {g : Graph} (hg : g.Valid) {a b : Nat} :
    g.hasEdge a b = true ↔ g.Adj a b := by
  rw [hasEdge, Bool.and_eq_true]
  constructor
  · rintro ⟨_, hadj⟩
    exact hadj
  · intro hadj
    exact ⟨hg.has_of_adj hadj, hadj⟩

theorem valid_empty : Valid {} where
  symm h := by simp [Adj, node] at h
  irrefl a h := by simp [Adj, node] at h
  has_of_adj h := by simp [Adj, node] at h
  not_removed h := by simp [has, node] at h
  size_eq := rfl

@[simp] theorem node_grow (g : Graph) (n v : Nat) : (g.grow n).node v = g.node v := by
  simp only [node, grow]
  rcases Nat.lt_or_ge v g.nodes.size with hv | hv
  · rw [Array.getElem?_append_left hv]
  · rw [Array.getElem?_append_right hv, Array.getElem?_eq_none hv, Array.getElem?_replicate]
    split <;> rfl

theorem size_nodes_grow (g : Graph) (n : Nat) :
    (g.grow n).nodes.size = max g.nodes.size (n + 1) := by
  simp only [grow, Array.size_append, Array.size_replicate]
  omega

theorem node_congr {g h : Graph} (hnodes : g.nodes = h.nodes) (v : Nat) : g.node v = h.node v := by
  rw [node, node, hnodes]

theorem node_modifyVertex (g : Graph) (v u : Nat) (f : Vertex → Vertex) :
    (g.modifyVertex v f).node u =
      if u = v ∧ v < g.nodes.size then f (g.node u) else g.node u := by
  simp only [node, modifyVertex, Array.getElem?_modify]
  rcases Nat.lt_or_ge u g.nodes.size with hu | hu
  · by_cases huv : v = u
    · subst huv
      simp [hu]
    · simp [huv, Ne.symm huv]
  · have hnot : ¬ (u = v ∧ v < g.nodes.size) := by omega
    rw [if_neg hnot, Array.getElem?_eq_none hu]
    simp

@[simp] theorem size_nodes_modifyVertex (g : Graph) (v : Nat) (f : Vertex → Vertex) :
    (g.modifyVertex v f).nodes.size = g.nodes.size := by
  simp [modifyVertex]

def withNode (g : Graph) (v : Nat) : Graph :=
  if g.has v then g
  else { (g.grow v).modifyVertex v fun n => { n with present := true } with size := g.size + 1 }

theorem addNode_eq (v : Nat) (g : Graph) :
    addNode v g = if g.removed v then .error (.addedAfterRemoval v) g else .ok () (g.withNode v) := by
  rw [addNode, EStateM.get_bind, withNode]
  by_cases hr : g.removed v = true
  · rw [if_pos hr, if_pos hr]
    rfl
  · rw [if_neg hr, if_neg hr]
    by_cases hp : g.has v = true
    · rw [if_pos hp, if_pos hp]
      rfl
    · rw [if_neg hp, if_neg hp]
      rfl

theorem node_withNode (g : Graph) (v u : Nat) :
    (g.withNode v).node u =
      if u = v then { g.node v with present := true } else g.node u := by
  by_cases hp : g.has v = true
  · by_cases huv : u = v
    · subst huv
      have hnode : g.node u = { g.node u with present := true } := by
        rw [← show (g.node u).present = true from hp]
      rw [withNode, if_pos hp, if_pos rfl]
      exact hnode
    · simp [withNode, hp, huv]
  · have hroom : v < (g.grow v).nodes.size := by
      rw [size_nodes_grow]
      omega
    have hnodes : (g.withNode v).nodes =
        ((g.grow v).modifyVertex v fun n => { n with present := true }).nodes := by
      rw [withNode, if_neg hp]
    rw [node_congr hnodes, node_modifyVertex]
    by_cases huv : u = v
    · subst huv
      simp [hroom]
    · simp [huv]

theorem has_withNode (g : Graph) (v u : Nat) :
    (g.withNode v).has u = (decide (u = v) || g.has u) := by
  rw [has, node_withNode]
  by_cases huv : u = v <;> simp [huv, has]

theorem adj_withNode (g : Graph) (v a b : Nat) : (g.withNode v).Adj a b ↔ g.Adj a b := by
  rw [Adj, node_withNode]
  by_cases hav : a = v <;> simp [hav, Adj]

theorem removed_withNode (g : Graph) (v u : Nat) : (g.withNode v).removed u = g.removed u := by
  rw [removed, node_withNode]
  by_cases huv : u = v <;> simp [huv, removed]

theorem history_withNode (g : Graph) (v u : Nat) : (g.withNode v).history u = g.history u := by
  rw [history, node_withNode]
  by_cases huv : u = v <;> simp [huv, history]

theorem size_withNode {g : Graph} (hg : g.Valid) (v : Nat) :
    (g.withNode v).size = (g.withNode v).present.length := by
  by_cases hp : g.has v = true
  · rw [withNode, if_pos hp, hg.size_eq]
  · have hperm : (g.withNode v).present.Perm (v :: g.present) := by
      rw [List.perm_ext_iff_of_nodup (present_nodup _)
        (List.nodup_cons.2 ⟨fun h => hp (mem_present.1 h), g.present_nodup⟩)]
      intro u
      simp [mem_present, has_withNode]
    rw [hperm.length_eq, List.length_cons, ← hg.size_eq, withNode, if_neg hp]

theorem Valid.withNode {g : Graph} (hg : g.Valid) {v : Nat} (hv : g.removed v = false) :
    (g.withNode v).Valid where
  symm h := by
    rw [adj_withNode] at h ⊢
    exact hg.symm h
  irrefl a h := hg.irrefl a ((adj_withNode g v a a).1 h)
  has_of_adj h := by
    rw [adj_withNode] at h
    rw [has_withNode, hg.has_of_adj h, Bool.or_true]
  not_removed {u} h := by
    rw [has_withNode, Bool.or_eq_true, decide_eq_true_eq] at h
    rw [removed_withNode]
    rcases h with rfl | h
    · exact hv
    · exact hg.not_removed h
  size_eq := size_withNode hg v

theorem node_link {g : Graph} {a b : Nat} (ha : g.has a = true) (hb : g.has b = true)
    (hab : a ≠ b) (u : Nat) :
    (g.link a b).node u =
      if u = a then { g.node a with adjacent := (g.node a).adjacent.insert b }
      else if u = b then { g.node b with adjacent := (g.node b).adjacent.insert a }
      else g.node u := by
  have hsa := lt_size_of_has ha
  have hsb := lt_size_of_has hb
  rw [link, node_modifyVertex, node_modifyVertex]
  by_cases hua : u = a
  · subst hua
    simp [hab, hsa]
  · by_cases hub : u = b
    · subst hub
      simp [hua, hsb]
    · simp [hua, hub]

theorem adj_link {g : Graph} {a b : Nat} (ha : g.has a = true) (hb : g.has b = true)
    (hab : a ≠ b) (x y : Nat) :
    (g.link a b).Adj x y ↔ g.Adj x y ∨ (x = a ∧ y = b) ∨ (x = b ∧ y = a) := by
  rw [Adj, node_link ha hb hab]
  by_cases hxa : x = a
  · subst hxa
    simp [Adj, hab, or_comm]
  · by_cases hxb : x = b
    · subst hxb
      simp [Adj, hxa, or_comm]
    · simp [Adj, hxa, hxb]

/-- A link changes nothing of a node but its neighbours. -/
theorem exists_node_link (g : Graph) (a b u : Nat) :
    ∃ s, (g.link a b).node u = { g.node u with adjacent := s } := by
  rw [link, node_modifyVertex, node_modifyVertex]
  split <;> split <;> exact ⟨_, rfl⟩

theorem has_link (g : Graph) (a b u : Nat) : (g.link a b).has u = g.has u := by
  obtain ⟨s, hs⟩ := g.exists_node_link a b u
  rw [has, hs, has]

theorem removed_link (g : Graph) (a b u : Nat) : (g.link a b).removed u = g.removed u := by
  obtain ⟨s, hs⟩ := g.exists_node_link a b u
  rw [removed, hs, removed]

theorem history_link (g : Graph) (a b u : Nat) : (g.link a b).history u = g.history u := by
  obtain ⟨s, hs⟩ := g.exists_node_link a b u
  rw [history, hs, history]

/-- Graphs with the same present nodes list them alike. -/
theorem length_present_congr {g h : Graph} (hgh : ∀ v, g.has v = h.has v) :
    g.present.length = h.present.length := by
  refine List.Perm.length_eq ?_
  rw [List.perm_ext_iff_of_nodup g.present_nodup h.present_nodup]
  intro v
  rw [mem_present, mem_present, hgh]

theorem Valid.link {g : Graph} (hg : g.Valid) {a b : Nat} (ha : g.has a = true)
    (hb : g.has b = true) (hab : a ≠ b) : (g.link a b).Valid where
  symm {x y} h := by
    rw [adj_link ha hb hab] at h ⊢
    rcases h with h | h | h
    · exact Or.inl (hg.symm h)
    · exact Or.inr (Or.inr h.symm)
    · exact Or.inr (Or.inl h.symm)
  irrefl x h := by
    rw [adj_link ha hb hab] at h
    rcases h with h | ⟨rfl, h⟩ | ⟨rfl, h⟩
    · exact hg.irrefl x h
    · exact hab h
    · exact hab h.symm
  has_of_adj {x y} h := by
    rw [adj_link ha hb hab] at h
    rw [has_link]
    rcases h with h | ⟨rfl, _⟩ | ⟨rfl, _⟩
    · exact hg.has_of_adj h
    · exact ha
    · exact hb
  not_removed h := by
    rw [has_link] at h
    rw [removed_link]
    exact hg.not_removed h
  size_eq := by
    rw [length_present_congr (g.has_link a b), ← hg.size_eq]
    rfl

def withEdge (g : Graph) (a b : Nat) : Graph := ((g.withNode a).withNode b).link a b

theorem addEdge_eq (a b : Nat) (g : Graph) :
    addEdge a b g =
      if a = b then .ok () g
      else if g.removed a then .error (.addedAfterRemoval a) g
      else if g.removed b then .error (.addedAfterRemoval b) (g.withNode a)
      else .ok () (g.withEdge a b) := by
  by_cases hab : a = b
  · simp [addEdge, hab, pure, EStateM.pure]
  · simp only [addEdge, hab, if_false, bind, EStateM.bind, addNode_eq]
    by_cases hra : g.removed a = true
    · simp [hra]
    · have hrb : (g.withNode a).removed b = g.removed b := removed_withNode g a b
      simp only [hra, Bool.false_eq_true, if_false, hrb]
      by_cases h : g.removed b = true
      · simp [h]
      · simp only [h, Bool.false_eq_true, if_false]
        rfl

section WithEdge

variable {g : Graph} {a b : Nat}

theorem has_withNode_left : ((g.withNode a).withNode b).has a = true := by
  simp [has_withNode]

theorem has_withNode_right : ((g.withNode a).withNode b).has b = true := by
  simp [has_withNode]

theorem has_withEdge (u : Nat) :
    (g.withEdge a b).has u = (decide (u = a) || decide (u = b) || g.has u) := by
  rw [withEdge, has_link, has_withNode, has_withNode,
    Bool.or_left_comm, Bool.or_assoc]

theorem adj_withEdge (hab : a ≠ b) (x y : Nat) :
    (g.withEdge a b).Adj x y ↔ g.Adj x y ∨ (x = a ∧ y = b) ∨ (x = b ∧ y = a) := by
  rw [withEdge, adj_link has_withNode_left has_withNode_right hab, adj_withNode, adj_withNode]

theorem removed_withEdge (u : Nat) : (g.withEdge a b).removed u = g.removed u := by
  rw [withEdge, removed_link, removed_withNode,
    removed_withNode]

theorem Valid.withEdge (hg : g.Valid) (ha : g.removed a = false) (hb : g.removed b = false)
    (hab : a ≠ b) : (g.withEdge a b).Valid := by
  have hga := hg.withNode ha
  have hgb := hga.withNode (v := b) (by rw [removed_withNode, hb])
  exact hgb.link has_withNode_left has_withNode_right hab

end WithEdge

def unlist (v : Nat) (us : List Nat) (g : Graph) : Graph :=
  us.foldl (fun h u => h.modifyVertex u fun n => { n with adjacent := n.adjacent.erase v }) g

theorem size_nodes_unlist (v : Nat) (us : List Nat) (g : Graph) :
    (unlist v us g).nodes.size = g.nodes.size ∧ (unlist v us g).size = g.size := by
  induction us generalizing g with
  | nil => exact ⟨rfl, rfl⟩
  | cons u us ih =>
    obtain ⟨hnodes, hsize⟩ := ih (g.modifyVertex u fun n => { n with adjacent := n.adjacent.erase v })
    exact ⟨hnodes.trans (size_nodes_modifyVertex _ _ _), hsize⟩

theorem node_unlist (v : Nat) {us : List Nat} {g : Graph} (hus : ∀ u ∈ us, u < g.nodes.size)
    (x : Nat) :
    ∃ s : BitSet, (unlist v us g).node x = { g.node x with adjacent := s } ∧
      ∀ y, s.contains y = ((g.node x).adjacent.contains y && !(decide (x ∈ us) && decide (y = v))) := by
  induction us generalizing g with
  | nil => exact ⟨(g.node x).adjacent, rfl, fun y => by simp⟩
  | cons u us ih =>
    -- the first node has been changed when the others are looked at
    let h := g.modifyVertex u fun n => { n with adjacent := n.adjacent.erase v }
    have hroom : ∀ w ∈ us, w < h.nodes.size := by
      intro w hw
      rw [size_nodes_modifyVertex]
      exact hus w (List.mem_cons_of_mem _ hw)
    obtain ⟨s, hs, hcontains⟩ := ih hroom
    have hu : u < g.nodes.size := hus u List.mem_cons_self
    have hnode : h.node x =
        if x = u then { g.node x with adjacent := (g.node x).adjacent.erase v } else g.node x := by
      rw [node_modifyVertex]
      by_cases hxu : x = u <;> simp [hxu, hu]
    refine ⟨s, ?_, fun y => ?_⟩
    · rw [unlist, List.foldl_cons]
      refine hs.trans ?_
      rw [hnode]
      split <;> rfl
    · rw [hcontains, hnode]
      by_cases hxu : x = u
      · by_cases hyv : y = v <;> simp [hxu, hyv]
      · simp [hxu]

section Without

variable {g : Graph} {v : Nat}

theorem node_without (u : Nat) : (g.without v).node u =
    ((unlist v (g.neighbors v) g).modifyVertex v fun n =>
      ⟨false, true, n.adjacent.reset, g.neighbors v⟩).node u :=
  node_congr rfl u

theorem node_without_self (hv : g.has v = true) :
    ∃ s : BitSet, (g.without v).node v = ⟨false, true, s, g.neighbors v⟩ ∧
      ∀ y, s.contains y = false := by
  have hroom : v < (unlist v (g.neighbors v) g).nodes.size := by
    rw [(size_nodes_unlist v _ g).1]
    exact lt_size_of_has hv
  rw [node_without, node_modifyVertex, if_pos ⟨rfl, hroom⟩]
  exact ⟨_, rfl, fun y => BitSet.contains_reset _ y⟩

theorem node_without_of_ne (hg : g.Valid) {u : Nat} (huv : u ≠ v) :
    ∃ s : BitSet, (g.without v).node u = { g.node u with adjacent := s } ∧
      ∀ y, s.contains y = ((g.node u).adjacent.contains y && !decide (y = v)) := by
  have hroom : ∀ w ∈ g.neighbors v, w < g.nodes.size := fun w hw =>
    lt_size_of_has (hg.has_of_adj_right (mem_neighbors.1 hw))
  obtain ⟨s, hs, hcontains⟩ := node_unlist v hroom u
  rw [node_without, node_modifyVertex, if_neg fun h => huv h.1]
  refine ⟨s, hs, fun y => ?_⟩
  rw [hcontains]
  by_cases hyv : y = v
  · subst hyv
    -- only neighbours of `v` list it
    by_cases hadj : g.Adj u y
    · have hmem : u ∈ g.neighbors y := mem_neighbors.2 (hg.symm hadj)
      simp [hmem]
    · have hno : (g.node u).adjacent.contains y = false := by simpa [Adj] using hadj
      simp [hno]
  · simp [hyv]

theorem adj_without (hg : g.Valid) (hv : g.has v = true) (a b : Nat) :
    (g.without v).Adj a b ↔ g.Adj a b ∧ a ≠ v ∧ b ≠ v := by
  by_cases hav : a = v
  · subst hav
    obtain ⟨s, hs, hcontains⟩ := node_without_self hv
    rw [Adj, hs]
    simp [hcontains]
  · obtain ⟨s, hs, hcontains⟩ := node_without_of_ne hg hav
    rw [Adj, hs]
    simp [hcontains, hav, Adj]

theorem has_without (hg : g.Valid) (hv : g.has v = true) (u : Nat) :
    (g.without v).has u = (g.has u && !decide (u = v)) := by
  by_cases huv : u = v
  · subst huv
    obtain ⟨s, hs, _⟩ := node_without_self hv
    rw [has, hs]
    simp
  · obtain ⟨s, hs, _⟩ := node_without_of_ne hg huv
    rw [has, hs]
    simp [huv, has]

theorem removed_without (hg : g.Valid) (hv : g.has v = true) (u : Nat) :
    (g.without v).removed u = (decide (u = v) || g.removed u) := by
  by_cases huv : u = v
  · subst huv
    obtain ⟨s, hs, _⟩ := node_without_self hv
    rw [removed, hs]
    simp
  · obtain ⟨s, hs, _⟩ := node_without_of_ne hg huv
    rw [removed, hs]
    simp [huv, removed]

theorem history_without (hg : g.Valid) (hv : g.has v = true) (u : Nat) :
    (g.without v).history u = if u = v then g.neighbors v else g.history u := by
  by_cases huv : u = v
  · subst huv
    obtain ⟨s, hs, _⟩ := node_without_self hv
    rw [history, hs]
    simp
  · obtain ⟨s, hs, _⟩ := node_without_of_ne hg huv
    rw [history, hs]
    simp [huv, history]

/-- Taking a node out leaves the other present nodes. -/
theorem perm_present_without (hg : g.Valid) (hv : g.has v = true) :
    g.present.Perm (v :: (g.without v).present) := by
  rw [List.perm_ext_iff_of_nodup g.present_nodup
    (List.nodup_cons.2 ⟨fun h => by simp [mem_present, has_without hg hv] at h,
      (g.without v).present_nodup⟩)]
  intro u
  by_cases huv : u = v <;> simp [mem_present, has_without hg hv, huv, hv]

theorem Valid.without (hg : g.Valid) (hv : g.has v = true) : (g.without v).Valid where
  symm {a b} h := by
    rw [adj_without hg hv] at h ⊢
    exact ⟨hg.symm h.1, h.2.2, h.2.1⟩
  irrefl a h := hg.irrefl a ((adj_without hg hv a a).1 h).1
  has_of_adj {a b} h := by
    rw [adj_without hg hv] at h
    simp [has_without hg hv, hg.has_of_adj h.1, h.2.1]
  not_removed {u} h := by
    simp only [has_without hg hv, Bool.and_eq_true, Bool.not_eq_true', decide_eq_false_iff_not] at h
    simp [removed_without hg hv, hg.not_removed h.1, h.2]
  size_eq := by
    have hlen := (perm_present_without hg hv).length_eq
    have hsize : (g.without v).size = g.size - 1 := by
      rw [← (size_nodes_unlist v (g.neighbors v) g).2]
      rfl
    rw [hsize, hg.size_eq, hlen, List.length_cons, Nat.add_sub_cancel]

theorem Valid.size_without (hg : g.Valid) (hv : g.has v = true) :
    (g.without v).size + 1 = g.size := by
  have hlen := (perm_present_without hg hv).length_eq
  rw [List.length_cons, ← hg.size_eq, ← (hg.without hv).size_eq] at hlen
  exact hlen.symm

theorem remove_eq (v : Nat) (g : Graph) :
    remove v g = if g.has v then .ok () (g.without v) else .error (.removedAbsent v) g := by
  rw [remove, EStateM.get_bind]
  by_cases hp : g.has v = true
  · rw [if_pos hp, if_pos hp]
    rfl
  · rw [if_neg hp, if_neg hp]
    rfl

theorem remove_bind {α : Type} (hv : g.has v = true) (f : Unit → EStateM Violation Graph α) :
    (remove v >>= f) g = f () (g.without v) := by
  simp only [bind, EStateM.bind, remove_eq, hv, if_true]

end Without

/-- The graph that a computation leaves, whether it fails or not. -/
def left {ε α : Type} : EStateM.Result ε Graph α → Graph
  | .ok _ g => g
  | .error _ g => g

/-- A computation leaves a valid graph if it starts from one. -/
def Keeps {ε α : Type} (x : EStateM ε Graph α) : Prop := ∀ g : Graph, g.Valid → (left (x g)).Valid

section Keeps

variable {ε α β : Type}

theorem Keeps.pure (a : α) : Keeps (pure a : EStateM ε Graph α) := fun _ hg => hg

theorem Keeps.get : Keeps (get : EStateM ε Graph Graph) := fun _ hg => hg

theorem Keeps.throw (e : ε) : Keeps (throw e : EStateM ε Graph α) := fun _ hg => hg

theorem Keeps.bind {x : EStateM ε Graph α} {f : α → EStateM ε Graph β} (hx : Keeps x)
    (hf : ∀ a, Keeps (f a)) : Keeps (x >>= f) := by
  intro g hg
  have hxg := hx g hg
  simp only [Bind.bind, EStateM.bind]
  cases h : x g with
  | ok a g' => exact hf a g' (by simpa [h, left] using hxg)
  | error e g' => simpa [h, left] using hxg

end Keeps

theorem Keeps.addNode (v : Nat) : Keeps (addNode v) := by
  intro g hg
  rw [addNode_eq]
  split
  · exact hg
  · next hr => exact hg.withNode (by simpa using hr)

theorem Keeps.addEdge (a b : Nat) : Keeps (addEdge a b) := by
  intro g hg
  rw [addEdge_eq]
  split
  · exact hg
  · next hab =>
    split
    · exact hg
    · next hra =>
      have hra : g.removed a = false := by simpa using hra
      split
      · exact hg.withNode hra
      · next hrb => exact hg.withEdge hra (by simpa using hrb) hab

theorem Keeps.remove (v : Nat) : Keeps (remove v) := by
  intro g hg
  rw [remove_eq]
  split
  · next hv => exact hg.without hv
  · exact hg

theorem Keeps.change {x : EStateM Violation Graph Unit} (hx : Keeps x) : Keeps (change x) := by
  intro g hg
  have hxg := hx g hg
  unfold Graph.change
  cases h : x g <;> simpa [h, left] using hxg

theorem Keeps.index (v : Int) : Keeps (index v) := by
  unfold Graph.index
  split
  · exact Keeps.bind Keeps.get fun _ => Keeps.throw _
  · exact Keeps.pure _

theorem Keeps.perform (c : Command) : Keeps c.perform := by
  cases c with
  | addNode v =>
    exact .bind (.index v) fun v => .bind (.change (.addNode v)) fun _ => .pure _
  | addEdge a b =>
    simp only [Command.perform]
    split
    · exact .pure _
    · exact .bind (.index a) fun a => .bind (.change (.addNode a)) fun _ =>
        .bind (.index b) fun b => .bind (.change (.addEdge a b)) fun _ => .pure _
  | remove v =>
    exact .bind (.index v) fun v => .bind (.change (.remove v)) fun _ => .pure _
  | has v => exact .bind (.index v) fun _ => .bind .get fun _ => .pure _
  | hasEdge a b =>
    refine .bind (.index a) fun a => .bind .get fun g => ?_
    split
    · split
      · exact .throw _
      · exact .pure _
    · exact .pure _
  | degree v => exact .bind (.index v) fun _ => .bind .get fun _ => .pure _
  | neighbors v =>
    refine .bind (.index v) fun v => .bind .get fun g => ?_
    split <;> exact .pure _
  | present => exact .bind .get fun _ => .pure _
  | removed v => exact .bind (.index v) fun _ => .bind .get fun _ => .pure _
  | removedNeighbors v =>
    refine .bind (.index v) fun v => .bind .get fun g => ?_
    split
    · exact .pure _
    · exact .throw _
  | maxDegree => exact .bind .get fun _ => .pure _

/-- The graph after commands on an empty one. What a command did before it failed stays. -/
def after (cs : List Command) : Graph := cs.foldl (fun g c => left (c.perform g)) {}

theorem valid_after (cs : List Command) : (after cs).Valid := by
  have hrun (g : Graph) (hg : g.Valid) :
      (cs.foldl (fun g c => left (c.perform g)) g).Valid := by
    induction cs generalizing g with
    | nil => exact hg
    | cons c cs ih => exact ih _ (Keeps.perform c g hg)
  exact hrun {} valid_empty

end ExprBackend.Graph
