import ExprBackend.Proofs.Spilling
import Mathlib.Data.Set.Card
import Mathlib.Data.List.Infix

/-!
# Runs of commands on a graph

What a graph answers after any commands, those that fail half way included, and what it remembers of
the nodes that were taken out. A command either leaves the graph alone, adds a node, adds an edge or
takes a node out, and each law about a run follows from what these four do.
-/

namespace ExprBackend.Graph

def reply (g : Graph) (c : Command) : Except Failure Answer :=
  match c.perform g with
  | .ok answer _ => .ok answer
  | .error e _ => .error e

section Answers

variable (g : Graph)

theorem reply_of_ok {g g' : Graph} {c : Command} {answer : Answer}
    (h : c.perform g = .ok answer g') : g.reply c = .ok answer := by
  rw [reply, h]

theorem index_natCast (v : Nat) : index v g = .ok v g := by
  rw [index, if_neg (by omega), Int.toNat_natCast]
  rfl

theorem index_of_neg {v : Int} (h : v < 0) :
    index v g = .error (.fault (.index v g.nodes.size)) g := by
  rw [index, if_pos h]
  rfl

theorem perform_has (v : Nat) : (Command.has v).perform g = .ok (.truth (g.has v)) g := by
  rw [Command.perform, EStateM.bind_of_ok (index_natCast g v)]
  rfl

theorem perform_hasEdge (a b : Nat) :
    (Command.hasEdge a b).perform g = .ok (.truth (g.hasEdge a b)) g := by
  rw [Command.perform, EStateM.bind_of_ok (index_natCast g a), EStateM.get_bind]
  by_cases ha : g.has a = true
  · rw [if_pos ha, if_neg (by omega), Int.toNat_natCast]
    rfl
  · have hno : g.hasEdge a b = false := by rw [hasEdge, Bool.eq_false_iff.2 ha, Bool.false_and]
    rw [if_neg ha, hno]
    rfl

theorem perform_degree (v : Nat) : (Command.degree v).perform g = .ok (.number (g.degree v)) g := by
  rw [Command.perform, EStateM.bind_of_ok (index_natCast g v)]
  rfl

theorem perform_neighbors (v : Nat) :
    (Command.neighbors v).perform g =
      .ok (if g.has v then .nodes (g.neighbors v) else .absent) g := by
  rw [Command.perform, EStateM.bind_of_ok (index_natCast g v), EStateM.get_bind]
  split <;> rfl

theorem perform_removed (v : Nat) :
    (Command.removed v).perform g = .ok (.truth (g.removed v)) g := by
  rw [Command.perform, EStateM.bind_of_ok (index_natCast g v)]
  rfl

theorem perform_removedNeighbors {v : Nat} (h : g.removed v = true) :
    (Command.removedNeighbors v).perform g = .ok (.nodes (g.history v)) g := by
  rw [Command.perform, EStateM.bind_of_ok (index_natCast g v), EStateM.get_bind, removedNeighbors,
    if_pos h]
  rfl

end Answers

/-- The four pieces of what is known of a node and the number of nodes agree with each other, and so
does what is read off them. -/
structure Consistent (g : Graph) : Prop where
  symm : ∀ a b, g.Adj a b → g.Adj b a
  irrefl : ∀ a, ¬ g.Adj a a
  has_of_adj : ∀ a b, g.Adj a b → g.has a = true ∧ g.has b = true
  neighbors_of_absent : ∀ a, g.has a = false → g.neighbors a = []
  not_both : ∀ v, ¬ (g.has v = true ∧ g.removed v = true)
  size_eq_ncard : g.size = {v | g.has v = true}.ncard
  size_eq_length : g.size = g.present.length
  mem_present : ∀ v, v ∈ g.present ↔ g.has v = true
  present_ascending : g.present.Pairwise (· < ·)
  mem_neighbors : ∀ a b, b ∈ g.neighbors a ↔ g.Adj a b
  neighbors_ascending : ∀ v, (g.neighbors v).Pairwise (· < ·)
  degree_eq : ∀ v, g.degree v = (g.neighbors v).length
  hasEdge_comm : ∀ a b, g.hasEdge a b = g.hasEdge b a
  degree_le : ∀ v ∈ g.present, g.degree v ≤ g.maxDegree
  maxDegree_attained : g.present ≠ [] → ∃ v ∈ g.present, g.degree v = g.maxDegree
  maxDegree_empty : g.present = [] → g.maxDegree = 0

/-- What is asked about nodes by their numbers is answered by what is read off the graph, and asking
changes nothing. -/
structure Answers (g : Graph) : Prop where
  has : ∀ v : Nat, (Command.has v).perform g = .ok (.truth (g.has v)) g
  removed : ∀ v : Nat, (Command.removed v).perform g = .ok (.truth (g.removed v)) g
  hasEdge : ∀ a b : Nat, (Command.hasEdge a b).perform g = .ok (.truth (g.hasEdge a b)) g
  degree : ∀ v : Nat, (Command.degree v).perform g = .ok (.number (g.degree v)) g
  neighbors : ∀ v : Nat, (Command.neighbors v).perform g =
    .ok (if g.has v then .nodes (g.neighbors v) else .absent) g
  present : Command.present.perform g = .ok (.nodes g.present) g
  maxDegree : Command.maxDegree.perform g = .ok (.number g.maxDegree) g

theorem answers (g : Graph) : g.Answers where
  has := g.perform_has
  removed := g.perform_removed
  hasEdge := g.perform_hasEdge
  degree := g.perform_degree
  neighbors := g.perform_neighbors
  present := rfl
  maxDegree := rfl

theorem foldl_max_eq_or_mem (ds : List Nat) (m : Nat) :
    ds.foldl max m = m ∨ ds.foldl max m ∈ ds := by
  induction ds generalizing m with
  | nil => exact Or.inl rfl
  | cons d ds ih =>
    rw [List.foldl_cons]
    rcases ih (max m d) with h | h
    · rcases Nat.le_total m d with hmd | hdm
      · rw [h, Nat.max_eq_right hmd]
        exact Or.inr List.mem_cons_self
      · rw [h, Nat.max_eq_left hdm]
        exact Or.inl rfl
    · exact Or.inr (List.mem_cons_of_mem d h)

/-- If no node has the greatest degree it is 0, and then every node has it. -/
theorem exists_degree_eq_maxDegree {g : Graph} (h : g.present ≠ []) :
    ∃ v ∈ g.present, g.degree v = g.maxDegree := by
  rcases foldl_max_eq_or_mem (g.present.map g.degree) 0 with hzero | hmem
  · obtain ⟨v, hv⟩ := List.exists_mem_of_ne_nil g.present h
    have hle : g.degree v ≤ g.maxDegree := degree_le_maxDegree (mem_present.1 hv)
    have hmax : g.maxDegree = 0 := hzero
    exact ⟨v, hv, by omega⟩
  · exact List.mem_map.1 hmem

theorem size_present_eq_ncard (g : Graph) : g.present.length = {v | g.has v = true}.ncard := by
  have hset : {v | g.has v = true} = (g.present.toFinset : Set Nat) := by
    ext v
    simp [mem_present]
  rw [hset, Set.ncard_coe_finset, List.toFinset_card_of_nodup g.present_nodup]

theorem Valid.neighbors_eq_nil {g : Graph} (hg : g.Valid) {v : Nat} (hv : g.has v = false) :
    g.neighbors v = [] := by
  refine List.eq_nil_iff_forall_not_mem.2 fun u hu => ?_
  rw [hg.has_of_adj (Graph.mem_neighbors.1 hu)] at hv
  cases hv

theorem Valid.hasEdge_comm {g : Graph} (hg : g.Valid) (a b : Nat) :
    g.hasEdge a b = g.hasEdge b a := by
  rw [Bool.eq_iff_iff, hg.hasEdge_iff, hg.hasEdge_iff]
  exact ⟨hg.symm, hg.symm⟩

theorem Valid.consistent {g : Graph} (hg : g.Valid) : g.Consistent where
  symm _ _ := hg.symm
  irrefl := hg.irrefl
  has_of_adj _ _ h := ⟨hg.has_of_adj h, hg.has_of_adj_right h⟩
  neighbors_of_absent _ h := hg.neighbors_eq_nil h
  not_both v h := by
    have hnot := hg.not_removed h.1
    rw [h.2] at hnot
    cases hnot
  size_eq_ncard := hg.size_eq.trans g.size_present_eq_ncard
  size_eq_length := hg.size_eq
  mem_present _ := Graph.mem_present
  present_ascending := g.present_pairwise
  mem_neighbors _ _ := Graph.mem_neighbors
  neighbors_ascending _ := BitSet.keys_pairwise _
  degree_eq := g.degree_eq_length_neighbors
  hasEdge_comm := hg.hasEdge_comm
  degree_le _ hv := degree_le_maxDegree (Graph.mem_present.1 hv)
  maxDegree_attained := exists_degree_eq_maxDegree
  maxDegree_empty h := by rw [maxDegree, h]; rfl

/-- After any commands, with any numbers, a graph is consistent and answers accordingly. What a
command did before it failed is part of the graph. -/
theorem after_consistent (cs : List Command) : (after cs).Consistent ∧ (after cs).Answers :=
  ⟨(valid_after cs).consistent, (after cs).answers⟩

/-- What a command makes of a graph. An edge of which one end can not be added may still have added
the other one. -/
inductive Effect (g : Graph) : Command → Graph → Prop
  | nothing (c : Command) : Effect g c g
  | node (c : Command) {v : Nat} : g.removed v = false → Effect g c (g.withNode v)
  | edge {a b : Nat} : a ≠ b → g.removed a = false → g.removed b = false →
      Effect g (.addEdge a b) (g.withEdge a b)
  | without {v : Nat} : g.has v = true → Effect g (.remove v) (g.without v)

section Perform

variable {g : Graph}

theorem change_ok {x : EStateM Violation Graph Unit} {g' : Graph} (h : x g = .ok () g') :
    change x g = .ok () g' := by
  rw [change, h]

theorem change_error {x : EStateM Violation Graph Unit} {e : Violation} {g' : Graph}
    (h : x g = .error e g') : change x g = .error (.violation e) g' := by
  rw [change, h]

theorem withNode_of_has {v : Nat} (h : g.has v = true) : g.withNode v = g := if_pos h

theorem withNode_withNode (v : Nat) : (g.withNode v).withNode v = g.withNode v :=
  withNode_of_has (by simp [has_withNode])

theorem perform_addNode (v : Nat) :
    (Command.addNode v).perform g =
      if g.removed v then .error (.violation (.addedAfterRemoval v)) g
      else .ok .done (g.withNode v) := by
  rw [Command.perform, EStateM.bind_of_ok (index_natCast g v)]
  have hadd := addNode_eq v g
  split at hadd
  next hr =>
    rw [if_pos hr]
    exact EStateM.bind_of_error (change_error hadd)
  next hr =>
    rw [if_neg hr]
    exact EStateM.bind_of_ok (change_ok hadd)

theorem perform_remove (v : Nat) :
    (Command.remove v).perform g =
      if g.has v then .ok .done (g.without v)
      else .error (.violation (.removedAbsent v)) g := by
  rw [Command.perform, EStateM.bind_of_ok (index_natCast g v)]
  have hremove := remove_eq v g
  split at hremove
  next hv =>
    rw [if_pos hv]
    exact EStateM.bind_of_ok (change_ok hremove)
  next hv =>
    rw [if_neg hv]
    exact EStateM.bind_of_error (change_error hremove)

/-- The first end is there by the time that the second one is looked at. -/
theorem perform_addEdge {a : Nat} {b : Int} (hab : (a : Int) ≠ b) :
    (Command.addEdge a b).perform g =
      if g.removed a then .error (.violation (.addedAfterRemoval a)) g
      else if b < 0 then .error (.fault (.index b (g.withNode a).nodes.size)) (g.withNode a)
      else if g.removed b.toNat then
        .error (.violation (.addedAfterRemoval b.toNat)) (g.withNode a)
      else .ok .done (g.withEdge a b.toNat) := by
  simp only [Command.perform, if_neg hab]
  refine (EStateM.bind_of_ok (index_natCast g a)).trans ?_
  have hadd := addNode_eq a g
  split at hadd
  next hr =>
    rw [if_pos hr]
    exact EStateM.bind_of_error (change_error hadd)
  next hr =>
    rw [if_neg hr]
    refine (EStateM.bind_of_ok (change_ok hadd)).trans ?_
    rcases lt_or_ge b 0 with hneg | hnonneg
    · rw [if_pos hneg]
      exact EStateM.bind_of_error (index_of_neg _ hneg)
    · obtain ⟨n, rfl⟩ := Int.eq_ofNat_of_zero_le hnonneg
      have hne : a ≠ n := fun h => hab (congrArg Int.ofNat h)
      have hedge := addEdge_eq a n (g.withNode a)
      rw [if_neg hne, removed_withNode, removed_withNode, if_neg hr, withEdge, withNode_withNode,
        ← withEdge] at hedge
      rw [if_neg (Int.not_lt.2 hnonneg), Int.toNat_natCast]
      refine (EStateM.bind_of_ok (index_natCast _ n)).trans ?_
      split at hedge
      next hrn =>
        rw [if_pos hrn]
        exact EStateM.bind_of_error (change_error hedge)
      next hrn =>
        rw [if_neg hrn]
        exact EStateM.bind_of_ok (change_ok hedge)

/-- A negative number stops a command before it has done anything. -/
theorem bind_index_eq {α : Type} (v : Int) (f : Nat → EStateM Failure Graph α) (g : Graph) :
    left ((index v >>= f) g) = g ∨ ∃ n : Nat, v = n ∧ (index v >>= f) g = f n g := by
  rcases lt_or_ge v 0 with hneg | hnonneg
  · rw [EStateM.bind_of_error (index_of_neg g hneg)]
    exact Or.inl rfl
  · obtain ⟨n, rfl⟩ := Int.eq_ofNat_of_zero_le hnonneg
    exact Or.inr ⟨n, rfl, EStateM.bind_of_ok (index_natCast g n)⟩

theorem left_bind_index {α : Type} (v : Int) {f : Nat → EStateM Failure Graph α}
    (h : ∀ n, left (f n g) = g) : left ((index v >>= f) g) = g := by
  rcases bind_index_eq v f g with hsame | ⟨n, _, heq⟩
  · exact hsame
  · rw [heq]
    exact h n

theorem effect_of_left_eq {c : Command} (h : left (c.perform g) = g) :
    Effect g c (left (c.perform g)) := by
  rw [h]
  exact .nothing c

theorem effect_addEdge (a b : Int) (g : Graph) :
    Effect g (.addEdge a b) (left ((Command.addEdge a b).perform g)) := by
  by_cases hab : a = b
  · refine effect_of_left_eq ?_
    simp only [Command.perform, if_pos hab]
    rfl
  · rcases lt_or_ge a 0 with hneg | hnonneg
    · refine effect_of_left_eq ?_
      simp only [Command.perform, if_neg hab]
      rw [EStateM.bind_of_error (index_of_neg g hneg)]
      rfl
    · obtain ⟨n, rfl⟩ := Int.eq_ofNat_of_zero_le hnonneg
      rw [perform_addEdge hab]
      split
      next => exact .nothing _
      next hr =>
        have hr : g.removed n = false := by simpa using hr
        split
        next => exact .node _ hr
        next hb =>
          obtain ⟨k, rfl⟩ := Int.eq_ofNat_of_zero_le (Int.not_lt.1 hb)
          rw [Int.toNat_natCast]
          split
          next => exact .node _ hr
          next hrk => exact .edge (fun h => hab (congrArg Int.ofNat h)) hr (by simpa using hrk)

theorem effect_perform (c : Command) (g : Graph) : Effect g c (left (c.perform g)) := by
  cases c with
  | addNode v =>
    rcases bind_index_eq v _ g with hsame | ⟨n, rfl, _⟩
    · exact effect_of_left_eq hsame
    · rw [perform_addNode]
      split
      next => exact .nothing _
      next hr => exact .node _ (by simpa using hr)
  | addEdge a b => exact effect_addEdge a b g
  | remove v =>
    rcases bind_index_eq v _ g with hsame | ⟨n, rfl, _⟩
    · exact effect_of_left_eq hsame
    · rw [perform_remove]
      split
      next hv => exact .without hv
      next => exact .nothing _
  | has v => exact effect_of_left_eq (left_bind_index v fun _ => rfl)
  | hasEdge a b =>
    refine effect_of_left_eq (left_bind_index a fun n => ?_)
    rw [EStateM.get_bind]
    split
    · split <;> rfl
    · rfl
  | degree v => exact effect_of_left_eq (left_bind_index v fun _ => rfl)
  | neighbors v =>
    refine effect_of_left_eq (left_bind_index v fun n => ?_)
    rw [EStateM.get_bind]
    split <;> rfl
  | present => exact .nothing _
  | removed v => exact effect_of_left_eq (left_bind_index v fun _ => rfl)
  | removedNeighbors v =>
    refine effect_of_left_eq (left_bind_index v fun n => ?_)
    rw [EStateM.get_bind]
    cases g.removedNeighbors n <;> rfl
  | maxDegree => exact .nothing _

end Perform

namespace Effect

variable {g g' : Graph} {c : Command}

theorem removed_mono (h : Effect g c g') (hg : g.Valid) {v : Nat} (hv : g.removed v = true) :
    g'.removed v = true := by
  cases h with
  | nothing => exact hv
  | node => rw [removed_withNode, hv]
  | edge => rw [removed_withEdge, hv]
  | without hw => rw [removed_without hg hw, hv, Bool.or_true]

/-- Only its own removal takes a node out. -/
theorem removed_of_new (h : Effect g c g') (hg : g.Valid) {v : Nat} (hv : g'.removed v = true) :
    g.removed v = true ∨ c = .remove v ∧ g.has v = true := by
  cases h with
  | nothing => exact Or.inl hv
  | node =>
    rw [removed_withNode] at hv
    exact Or.inl hv
  | edge =>
    rw [removed_withEdge] at hv
    exact Or.inl hv
  | @without w hw =>
    rw [removed_without hg hw, Bool.or_eq_true, decide_eq_true_eq] at hv
    rcases hv with rfl | hv
    · exact Or.inr ⟨rfl, hw⟩
    · exact Or.inl hv

/-- What a removed node keeps is never written again. -/
theorem history_eq (h : Effect g c g') (hg : g.Valid) {v : Nat} (hv : g.removed v = true) :
    g'.history v = g.history v := by
  cases h with
  | nothing => rfl
  | node => exact history_withNode g _ v
  | edge => rw [withEdge, history_link, history_withNode, history_withNode]
  | @without w hw =>
    have hne : v ≠ w := by
      rintro rfl
      rw [hg.not_removed hw] at hv
      cases hv
    rw [history_without hg hw, if_neg hne]

/-- An edge goes only with one of its ends. -/
theorem adj_of_adj (h : Effect g c g') (hg : g.Valid) {a b : Nat} (hadj : g.Adj a b)
    (ha : g'.removed a = false) (hb : g'.removed b = false) : g'.Adj a b := by
  cases h with
  | nothing => exact hadj
  | node => exact (adj_withNode g _ a b).2 hadj
  | edge hne => exact (adj_withEdge hne a b).2 (Or.inl hadj)
  | @without w hw =>
    simp only [removed_without hg hw, Bool.or_eq_false_iff, decide_eq_false_iff_not] at ha hb
    exact (adj_without hg hw a b).2 ⟨hadj, ha.1, hb.1⟩

end Effect

section Runs

variable {cs ds : List Command} {a b v : Nat}

theorem after_concat (cs : List Command) (c : Command) :
    after (cs ++ [c]) = left (c.perform (after cs)) := by
  rw [after, after, List.foldl_append]
  rfl

theorem effect_after (cs : List Command) (c : Command) :
    Effect (after cs) c (after (cs ++ [c])) := by
  rw [after_concat]
  exact effect_perform c (after cs)

theorem removed_after_append (ds : List Command) (hv : (after cs).removed v = true) :
    (after (cs ++ ds)).removed v = true := by
  induction ds using List.reverseRecOn with
  | nil => rwa [List.append_nil]
  | append_singleton ds c ih =>
    rw [← List.append_assoc]
    exact (effect_after _ c).removed_mono (valid_after _) ih

theorem not_removed_of_append (h : (after (cs ++ ds)).removed v = false) :
    (after cs).removed v = false := by
  by_contra hv
  rw [removed_after_append ds (by simpa using hv)] at h
  cases h

theorem history_after_append (ds : List Command) (hv : (after cs).removed v = true) :
    (after (cs ++ ds)).history v = (after cs).history v := by
  induction ds using List.reverseRecOn with
  | nil => rw [List.append_nil]
  | append_singleton ds c ih =>
    rw [← List.append_assoc, ← ih]
    exact (effect_after _ c).history_eq (valid_after _) (removed_after_append ds hv)

theorem adj_after_append (hadj : (after cs).Adj a b)
    (ha : (after (cs ++ ds)).removed a = false) (hb : (after (cs ++ ds)).removed b = false) :
    (after (cs ++ ds)).Adj a b := by
  induction ds using List.reverseRecOn with
  | nil => rwa [List.append_nil]
  | append_singleton ds c ih =>
    rw [← List.append_assoc] at ha hb ⊢
    exact (effect_after _ c).adj_of_adj (valid_after _)
      (ih (not_removed_of_append ha) (not_removed_of_append hb)) ha hb

/-- A node that is gone was taken out by a command, when it was there. -/
theorem exists_removal (hv : (after cs).removed v = true) :
    ∃ ds es, cs = ds ++ .remove v :: es ∧ (after ds).has v = true := by
  induction cs using List.reverseRecOn with
  | nil => cases hv
  | append_singleton cs c ih =>
    rcases (effect_after cs c).removed_of_new (valid_after cs) hv with hold | ⟨rfl, hhas⟩
    · obtain ⟨ds, es, rfl, hhas⟩ := ih hold
      exact ⟨ds, es ++ [c], by simp, hhas⟩
    · exact ⟨cs, [], rfl, hhas⟩

theorem after_remove (h : (after cs).has v = true) :
    after (cs ++ [.remove v]) = (after cs).without v := by
  rw [after_concat, perform_remove, if_pos h]
  rfl

/-- A node that was taken out keeps the neighbours that it had. -/
theorem removed_history_after_remove (h : (after cs).has v = true) (ds : List Command) :
    (after (cs ++ .remove v :: ds)).removed v = true ∧
      (after (cs ++ .remove v :: ds)).history v = (after cs).neighbors v := by
  have hvalid := valid_after cs
  have hgone : (after (cs ++ [.remove v])).removed v = true := by
    rw [after_remove h, removed_without hvalid h]
    simp
  rw [List.append_cons]
  refine ⟨removed_after_append ds hgone, ?_⟩
  rw [history_after_append ds hgone, after_remove h, history_without hvalid h, if_pos rfl]

end Runs

def Gone (cs : List Command) (v : Int) : Prop := (after cs).reply (.removed v) = .ok (.truth true)

/-- At some point of a run the one node was gone and the other was not. -/
def GoneBefore (cs : List Command) (u v : Int) : Prop := ∃ ds, ds <+: cs ∧ Gone ds u ∧ ¬ Gone ds v

/-- An edge was added in a run, from either end. A command that names a node twice adds none. -/
def Linked (cs : List Command) (u v : Int) : Prop :=
  u ≠ v ∧ ∃ ds es c, cs = ds ++ c :: es ∧ (c = .addEdge u v ∨ c = .addEdge v u) ∧
    (after ds).reply c = .ok .done

/-- A node that is gone has another one among the neighbours that it had. -/
def Lists (cs : List Command) (u v : Int) : Prop :=
  ∃ us, (after cs).reply (.removedNeighbors u) = .ok (.nodes us) ∧ v ∈ us.map Int.ofNat

section Gone

variable {cs ds : List Command} {a b v : Nat}

theorem reply_of_neg {g : Graph} {c : Command} {v : Int} {f : Nat → EStateM Failure Graph Answer}
    (hc : c.perform = index v >>= f) (hv : v < 0) (answer : Answer) : g.reply c ≠ .ok answer := by
  rw [reply, hc, EStateM.bind_of_error (index_of_neg g hv)]
  exact fun h => by cases h

theorem exists_nat_of_reply {g : Graph} {c : Command} {v : Int}
    {f : Nat → EStateM Failure Graph Answer} (hc : c.perform = index v >>= f) {answer : Answer}
    (h : g.reply c = .ok answer) : ∃ n : Nat, v = n := by
  rcases lt_or_ge v 0 with hneg | hnonneg
  · exact absurd h (reply_of_neg hc hneg answer)
  · exact Int.eq_ofNat_of_zero_le hnonneg

theorem gone_natCast : Gone cs v ↔ (after cs).removed v = true := by
  rw [Gone, reply_of_ok (perform_removed _ v)]
  simp

theorem Gone.exists_nat {u : Int} (h : Gone cs u) : ∃ n : Nat, u = n := exists_nat_of_reply rfl h

theorem not_gone_natCast : ¬ Gone cs v ↔ (after cs).removed v = false := by
  rw [gone_natCast, Bool.not_eq_true]

theorem not_gone_of_has (h : (after cs).has v = true) : ¬ Gone cs v :=
  not_gone_natCast.2 ((valid_after cs).not_removed h)

theorem Gone.of_isPrefix {u : Int} (h : Gone ds u) (hfront : ds <+: cs) : Gone cs u := by
  obtain ⟨n, rfl⟩ := h.exists_nat
  obtain ⟨es, rfl⟩ := hfront
  exact gone_natCast.2 (removed_after_append es (gone_natCast.1 h))

theorem gone_concat_remove (h : (after cs).has a = true) :
    Gone (cs ++ [.remove a]) b ↔ b = a ∨ Gone cs b := by
  rw [gone_natCast, gone_natCast, after_remove h, removed_without (valid_after cs) h,
    Bool.or_eq_true, decide_eq_true_eq]

/-- Of two points of a run, one at which a node is gone is not before one at which it is not. -/
theorem isPrefix_of_gone {p q : List Command} {u : Int} (hp : p <+: cs) (hq : q <+: cs)
    (hgone : Gone q u) (hnot : ¬ Gone p u) : p <+: q := by
  rcases List.prefix_or_prefix_of_prefix hp hq with hpq | hqp
  · exact hpq
  · exact absurd (hgone.of_isPrefix hqp) hnot

theorem GoneBefore.asymm {u v : Int} (h : GoneBefore cs u v) : ¬ GoneBefore cs v u := by
  obtain ⟨p, hp, hpu, hpv⟩ := h
  rintro ⟨q, hq, hqv, hqu⟩
  have hpq : p <+: q := isPrefix_of_gone hp hq hqv hpv
  exact hqu (hpu.of_isPrefix hpq)

/-- Two nodes are not taken out at once. -/
theorem goneBefore_or (hab : a ≠ b) (ha : Gone cs a) (hb : Gone cs b) :
    GoneBefore cs a b ∨ GoneBefore cs b a := by
  obtain ⟨ds, es, rfl, hhas⟩ := exists_removal (gone_natCast.1 ha)
  have hnow : ds ++ [.remove a] <+: ds ++ .remove a :: es := ⟨es, by simp⟩
  have hbefore : ds <+: ds ++ .remove a :: es := List.prefix_append _ _
  by_cases hgone : Gone ds b
  · exact Or.inr ⟨ds, hbefore, hgone, not_gone_of_has hhas⟩
  · refine Or.inl ⟨_, hnow, (gone_concat_remove hhas).2 (Or.inl rfl), ?_⟩
    rw [gone_concat_remove hhas]
    rintro (rfl | h)
    · exact hab rfl
    · exact hgone h

theorem lists_natCast (ha : Gone cs a) : Lists cs a b ↔ b ∈ (after cs).history a := by
  rw [Lists, reply_of_ok (perform_removedNeighbors _ (gone_natCast.1 ha))]
  simp

theorem mem_history_iff (hds : ds <+: cs) (hadj : (after ds).Adj a b) (ha : Gone cs a) :
    b ∈ (after cs).history a ↔ GoneBefore cs a b := by
  have hab : b ≠ a := by
    rintro rfl
    exact (valid_after ds).irrefl _ hadj
  obtain ⟨before, es, rfl, hhas⟩ := exists_removal (gone_natCast.1 ha)
  have hnow : before ++ [.remove a] <+: before ++ .remove a :: es := ⟨es, by simp⟩
  have hbefore : before <+: before ++ .remove a :: es := List.prefix_append _ _
  have hgone : Gone (before ++ [.remove a]) a := (gone_concat_remove hhas).2 (Or.inl rfl)
  rw [(removed_history_after_remove hhas es).2, mem_neighbors]
  constructor
  · intro hadj
    refine ⟨_, hnow, hgone, ?_⟩
    rw [gone_concat_remove hhas]
    rintro (rfl | h)
    · exact hab rfl
    · exact not_gone_of_has ((valid_after before).has_of_adj_right hadj) h
  · rintro ⟨p, hp, hpa, hpb⟩
    -- the edge was there before the first removal of an end
    have hlater : before <+: p := isPrefix_of_gone hbefore hp hpa (not_gone_of_has hhas)
    have hnot : ¬ Gone before b := fun h => hpb (h.of_isPrefix hlater)
    have hearly : ds <+: before ++ [.remove a] :=
      isPrefix_of_gone hds hnow hgone (not_gone_of_has ((valid_after ds).has_of_adj hadj))
    rcases List.prefix_concat_iff.1 hearly with rfl | ⟨more, rfl⟩
    · exact absurd hgone (not_gone_of_has ((valid_after _).has_of_adj hadj))
    · exact adj_after_append hadj (not_gone_natCast.1 (not_gone_of_has hhas))
        (not_gone_natCast.1 hnot)

theorem adj_of_addEdge {u v : Int} (huv : u ≠ v)
    (h : (after ds).reply (.addEdge u v) = .ok .done) :
    ∃ a b : Nat, u = a ∧ v = b ∧ (after (ds ++ [.addEdge u v])).Adj a b := by
  have hperform : (Command.addEdge u v).perform = _ := if_neg huv
  obtain ⟨a, rfl⟩ := exists_nat_of_reply hperform h
  have heq := perform_addEdge (g := after ds) huv
  rw [reply, heq] at h
  rw [after_concat, heq]
  by_cases ha : (after ds).removed a = true
  · rw [if_pos ha] at h
    cases h
  · rw [if_neg ha] at h ⊢
    by_cases hneg : v < 0
    · rw [if_pos hneg] at h
      cases h
    · obtain ⟨b, rfl⟩ := Int.eq_ofNat_of_zero_le (Int.not_lt.1 hneg)
      rw [if_neg hneg, Int.toNat_natCast] at h ⊢
      by_cases hb : (after ds).removed b = true
      · rw [if_pos hb] at h
        cases h
      · have hab : a ≠ b := fun hab => huv (congrArg Int.ofNat hab)
        rw [if_neg hb]
        exact ⟨a, b, rfl, rfl, (adj_withEdge hab a b).2 (Or.inr (Or.inl ⟨rfl, rfl⟩))⟩

theorem Linked.exists_adj {u v : Int} (h : Linked cs u v) :
    ∃ a b : Nat, u = a ∧ v = b ∧ ∃ ds, ds <+: cs ∧ (after ds).Adj a b := by
  obtain ⟨huv, ds, es, c, rfl, hc, hdone⟩ := h
  have hfront : ds ++ [c] <+: ds ++ c :: es := ⟨es, by simp⟩
  rcases hc with rfl | rfl
  · obtain ⟨a, b, rfl, rfl, hadj⟩ := adj_of_addEdge huv hdone
    exact ⟨a, b, rfl, rfl, _, hfront, hadj⟩
  · obtain ⟨b, a, rfl, rfl, hadj⟩ := adj_of_addEdge huv.symm hdone
    exact ⟨a, b, rfl, rfl, _, hfront, (valid_after _).symm hadj⟩

theorem reply_remove_iff {g : Graph} {v : Int} :
    g.reply (.remove v) = .ok .done ↔ ∃ n : Nat, v = n ∧ g.has n = true := by
  constructor
  · intro h
    obtain ⟨n, rfl⟩ := exists_nat_of_reply rfl h
    refine ⟨n, rfl, ?_⟩
    by_contra hn
    rw [reply, perform_remove, if_neg hn] at h
    cases h
  · rintro ⟨n, rfl, hn⟩
    rw [reply, perform_remove, if_pos hn]

/-- A node that is gone answers for ever with the neighbours that it had just before it was taken
out, in ascending order. Of the ends of an edge that was ever added and are both gone, exactly the
one that went first lists the other; one that is gone lists one that is not. -/
theorem removals_remembered (cs : List Command) :
    (∀ ds es v, cs = ds ++ .remove v :: es → (after ds).reply (.remove v) = .ok .done →
      ∃ us, (after ds).reply (.neighbors v) = .ok (.nodes us) ∧ us.Pairwise (· < ·) ∧
        (after cs).reply (.removedNeighbors v) = .ok (.nodes us)) ∧
    (∀ v, Gone cs v ↔
      ∃ ds es, cs = ds ++ .remove v :: es ∧ (after ds).reply (.remove v) = .ok .done) ∧
    ∀ u v, Linked cs u v →
      (Gone cs u → ¬ Gone cs v → Lists cs u v) ∧
      (Gone cs u → Gone cs v →
        Xor (GoneBefore cs u v) (GoneBefore cs v u) ∧
          (Lists cs u v ↔ GoneBefore cs u v) ∧ (Lists cs v u ↔ GoneBefore cs v u)) := by
  refine ⟨?_, fun v => ⟨fun hv => ?_, ?_⟩, fun u v hlinked => ?_⟩
  · rintro ds es v rfl hdone
    obtain ⟨n, rfl, hn⟩ := reply_remove_iff.1 hdone
    obtain ⟨hgone, hhistory⟩ := removed_history_after_remove hn es
    refine ⟨(after ds).neighbors n, ?_, BitSet.keys_pairwise _, ?_⟩
    · rw [reply_of_ok (perform_neighbors _ n), if_pos hn]
    · rw [reply_of_ok (perform_removedNeighbors _ hgone), hhistory]
  · obtain ⟨n, rfl⟩ := hv.exists_nat
    obtain ⟨ds, es, rfl, hn⟩ := exists_removal (gone_natCast.1 hv)
    exact ⟨ds, es, rfl, reply_remove_iff.2 ⟨n, rfl, hn⟩⟩
  · rintro ⟨ds, es, rfl, hdone⟩
    obtain ⟨n, rfl, hn⟩ := reply_remove_iff.1 hdone
    exact gone_natCast.2 (removed_history_after_remove hn es).1
  · obtain ⟨a, b, rfl, rfl, ds, hds, hadj⟩ := hlinked.exists_adj
    have hab : a ≠ b := fun hab => hlinked.1 (congrArg Int.ofNat hab)
    have hlists (ha : Gone cs a) : Lists cs a b ↔ GoneBefore cs a b :=
      (lists_natCast ha).trans (mem_history_iff hds hadj ha)
    have hlists' (hb : Gone cs b) : Lists cs b a ↔ GoneBefore cs b a :=
      (lists_natCast hb).trans (mem_history_iff hds ((valid_after ds).symm hadj) hb)
    refine ⟨fun ha hb => (hlists ha).2 ⟨cs, List.prefix_refl cs, ha, hb⟩, fun ha hb => ?_⟩
    refine ⟨?_, hlists ha, hlists' hb⟩
    rcases goneBefore_or hab ha hb with h | h
    · exact Or.inl ⟨h, h.asymm⟩
    · exact Or.inr ⟨h, h.asymm⟩

/-- A triangle of which two nodes go, with commands in between that fail. -/
theorem removals_remembered_triangle :
    let cs : List Command :=
      [.addEdge 0 1, .addEdge 2 0, .addEdge 1 2, .addNode 3, .addEdge 2 2, .remove 1, .addEdge 4 1,
        .remove 9, .addEdge 2 (-1), .remove 0, .addNode 0]
    Linked cs 0 1 ∧ Linked cs 0 2 ∧ Gone cs 0 ∧ Gone cs 1 ∧ ¬ Gone cs 2 ∧
      (after cs).reply (.removedNeighbors 1) = .ok (.nodes [0, 2]) ∧
      Xor (GoneBefore cs 0 1) (GoneBefore cs 1 0) ∧ GoneBefore cs 1 0 ∧ Lists cs 1 0 ∧
      ¬ Lists cs 0 1 ∧ Lists cs 0 2 := by
  intro cs
  obtain ⟨hkept, _, hedges⟩ := removals_remembered cs
  have h01 : Linked cs 0 1 := ⟨by decide, [], _, _, rfl, Or.inl rfl, by decide +kernel⟩
  have h02 : Linked cs 0 2 :=
    ⟨by decide, [.addEdge 0 1], _, _, rfl, Or.inr rfl, by decide +kernel⟩
  have hgone0 : Gone cs 0 := by unfold Gone; decide +kernel
  have hgone1 : Gone cs 1 := by unfold Gone; decide +kernel
  have hgone2 : ¬ Gone cs 2 := by unfold Gone; decide +kernel
  have hfirst : GoneBefore cs 1 0 := by
    refine ⟨cs.take 6, List.take_prefix 6 cs, ?_, ?_⟩ <;> unfold Gone <;> decide +kernel
  obtain ⟨us, hbefore, _, hafter⟩ := hkept (cs.take 5) (cs.drop 6) 1 rfl (by decide +kernel)
  have hneighbors : (after (cs.take 5)).reply (.neighbors 1) = .ok (.nodes [0, 2]) := by
    decide +kernel
  obtain rfl : us = [0, 2] := by simpa using hbefore.symm.trans hneighbors
  obtain ⟨hone, hlists, hlists'⟩ := (hedges 0 1 h01).2 hgone0 hgone1
  exact ⟨h01, h02, hgone0, hgone1, hgone2, hafter, hone, hfirst, hlists'.2 hfirst,
    fun h => hfirst.asymm (hlists.1 h), (hedges 0 2 h02).1 hgone0 hgone2⟩

end Gone

end ExprBackend.Graph
