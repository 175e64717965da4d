import ExprBackend.Proofs.Conflicts
import ExprBackend.Proofs.LiveNames
import ExprBackend.Proofs.Liveness

/-!
# The conflict graphs are exact

What the graphs and the frequencies of a block say, in terms of the runs of the block and not of
the walk that builds them: a node for each variable that is a seed, is live before a statement or
is bound by one, an edge for each two that are live before one statement, and a count of the
operands that read a variable.
-/

namespace ExprBackend

namespace Occurrence

/-- On some run from the statement a variable is read before it is bound, or it is a seed and is
not bound. -/
def LiveBefore (seed : List Nat) (o : Occurrence) (v : Nat) : Prop :=
  ∃ t ∈ o.rest, Event.ReadsFirst v t ∨ (.bind v ∉ t ∧ v ∈ seed)

def Binds (vars : Variables) (o : Occurrence) (v : Nat) : Prop :=
  ∃ name init, o.statement = .bind name init ∧ vars.find? name = some v

end Occurrence

def statements (vars : Variables) (b : Block) : List Occurrence := blockOccurrences vars 0 b [[]]

theorem exists_mem_of_forall₂ {α β : Type} {R : α → β → Prop} {P : α → Prop} {Q : β → Prop}
    {xs : List α} {ys : List β} (hall : List.Forall₂ R xs ys) (hiff : ∀ x y, R x y → (P x ↔ Q y)) :
    (∃ x ∈ xs, P x) ↔ ∃ y ∈ ys, Q y := by
  induction hall with
  | nil => simp
  | cons hxy _ ih => simp [ih, hiff _ _ hxy]

namespace Conflicts

variable {vars : Variables} {b : Block} {seed : List Nat}

/-- The points of the walk are the statements, each with what is live before it. -/
theorem pointsOf_matches (vars : Variables) (b : Block) (seed : List Nat) :
    List.Forall₂ (Liveness.Matches (BitSet.ofList seed)) (pointsOf vars b seed)
      (statements vars b) := by
  have hend : Liveness.Describes (BitSet.ofList seed) [[]] (BitSet.ofList seed) :=
    fun v => by simp
  exact Liveness.blockPoints_matches 0 b (BitSet.ofList seed) [[]] (by simp) hend

variable {p : Point} {o : Occurrence}

theorem liveBefore_iff (h : Liveness.Matches (BitSet.ofList seed) p o) (v : Nat) :
    p.live.contains v = true ↔ o.LiveBefore seed v := by
  simp only [h.2 v, Event.LiveAtStart, BitSet.contains_ofList, decide_eq_true_iff,
    Occurrence.LiveBefore]

theorem binds_iff (h : Liveness.Matches (BitSet.ofList seed) p o) (v : Nat) :
    Binds vars p v ↔ o.Binds vars v := by
  unfold Binds Occurrence.Binds
  rw [h.1]

theorem isNode_iff (v : Nat) :
    IsNode vars b seed v ↔
      v ∈ seed ∨ ∃ o ∈ statements vars b, o.LiveBefore seed v ∨ o.Binds vars v := by
  unfold IsNode
  rw [exists_mem_of_forall₂ (pointsOf_matches vars b seed)]
  intro p o hpo
  rw [liveBefore_iff hpo, binds_iff hpo, or_comm]

theorem liveTogether_iff (u v : Nat) :
    LiveTogether vars b seed u v ↔
      u ≠ v ∧ ∃ o ∈ statements vars b, o.LiveBefore seed u ∧ o.LiveBefore seed v := by
  unfold LiveTogether
  rw [exists_mem_of_forall₂ (pointsOf_matches vars b seed)
    (Q := fun o => u ≠ v ∧ o.LiveBefore seed u ∧ o.LiveBefore seed v)]
  · grind
  · intro p o hpo
    rw [liveBefore_iff hpo, liveBefore_iff hpo]

/-- Seeds do not count as reads. -/
theorem get_freq (v : Nat) :
    (seed.foldl Frequency.note (Liveness.freqBlock vars b {})).get v =
      (blockReads b).countP fun z => vars.find? z = some v := by
  have hzero : Frequency.get {} v = 0 := Std.TreeMap.getD_emptyc
  rw [Frequency.get_notes, Liveness.get_freqBlock, hzero, Int.zero_add, List.count,
    List.countP_filterMap]
  congr 1
  apply List.countP_congr
  intro z _
  cases vars.find? z <;> simp

/-- The graphs of a block and its frequencies are what the runs of the block say. The graph of a
class has the variables of that class that are seeds, live before a statement or bound by one, and
an edge between two that are live before one statement. A variable is counted once for each
operand that names it, and has an entry if it is read, bound or a seed. -/
theorem ofBlock_exact (vars : Variables) (b : Block) (hb : blockNumbered vars b = true)
    (seed : List Nat) :
    ∃ c, ofBlock vars b seed = .ok c ∧
      (∀ float v, (c.graph float).has v = true ↔ vars.isFloat v = float ∧
        (v ∈ seed ∨ ∃ o ∈ statements vars b, o.LiveBefore seed v ∨ o.Binds vars v)) ∧
      (∀ float u v, (c.graph float).hasEdge u v = true ↔
        u ≠ v ∧ vars.isFloat u = float ∧ vars.isFloat v = float ∧
          ∃ o ∈ statements vars b, o.LiveBefore seed u ∧ o.LiveBefore seed v) ∧
      (∀ v, c.freq.get v = (blockReads b).countP fun z => vars.find? z = some v) ∧
      ∀ v, v ∈ c.freq ↔ v ∈ seed ∨
        ∃ z, (z ∈ blockReads b ∨ z ∈ (blockBindings b).map Prod.fst) ∧ vars.find? z = some v := by
  obtain ⟨c, hc, hshows, hfreq⟩ := ofBlock_ok hb seed
  refine ⟨c, hc, ?_, ?_, ?_, ?_⟩
  · intro float v
    rw [hshows.has_iff, isNode_iff, and_comm]
  · intro float u v
    rw [(hshows.valid float).hasEdge_iff, hshows.adj_iff, liveTogether_iff]
    grind
  · intro v
    rw [hfreq, get_freq]
  · intro v
    rw [hfreq, Frequency.mem_notes, Liveness.mem_freqBlock]
    simp only [List.mem_filterMap, List.mem_append, Std.TreeMap.not_mem_emptyc, or_false]

/-- Two floats that only one branch reads together conflict, and what is bound there is counted as
often as it is read. -/
theorem ofBlock_exact_one_branch :
    let vars : Variables :=
      .ofTyping [("c", .bool), ("x", .float), ("y", .float), ("w", .float), ("z", .float)]
    let b : Block :=
      [.bind "z" (.branch (.var "c" .bool)
        [.bind "w" (.binary .plus (.var "x" .float) (.var "y" .float) .float),
          .atom (.var "w" .float)]
        (some [.atom (.var "y" .float)])),
        .atom (.var "z" .float)]
    blockNumbered vars b = true ∧
    ∃ c, ofBlock vars b [0] = .ok c ∧ (c.graph true).hasEdge 1 2 = true ∧
      (c.graph true).has 3 = true ∧ (c.graph false).has 0 = true ∧ c.freq.get 2 = 2 := by
  intro vars b
  have hb : blockNumbered vars b = true := by decide +kernel
  refine ⟨hb, ?_⟩
  obtain ⟨c, hc, hnode, hedge, hfreq, _⟩ := ofBlock_exact vars b hb [0]
  let o : Occurrence :=
    ⟨.bind "w" (.binary .plus (.var "x" .float) (.var "y" .float) .float), 1,
      [[.bind 3, .read 1, .read 2, .read 3, .read 4]]⟩
  have ho : o ∈ statements vars b := List.mem_of_getElem? (i := 2) rfl
  refine ⟨c, hc, ?_, ?_, ?_, ?_⟩
  · refine (hedge true 1 2).2 ⟨by decide, by decide, by decide, o, ho, ?_, ?_⟩
    · exact ⟨_, List.mem_singleton.2 rfl, Or.inl ⟨[.bind 3], _, rfl, by decide⟩⟩
    · exact ⟨_, List.mem_singleton.2 rfl, Or.inl ⟨[.bind 3, .read 1], _, rfl, by decide⟩⟩
  · exact (hnode true 3).2 ⟨by decide, Or.inr ⟨o, ho, Or.inr ⟨_, _, rfl, by decide +kernel⟩⟩⟩
  · exact (hnode false 0).2 ⟨by decide, Or.inl (by decide)⟩
  · rw [hfreq]
    decide +kernel

end Conflicts

end ExprBackend
