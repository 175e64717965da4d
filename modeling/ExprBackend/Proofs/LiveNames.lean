import ExprBackend.Proofs.Scoping
import ExprBackend.Proofs.Walk

/-!
# Live names

What the walk finds, in terms of names. A name that is not bound in a block is live before it
exactly if the block reads it or it is live behind it, and a variable is counted as often as its
name is read.
-/

namespace ExprBackend

namespace Variables

def Live (vars : Variables) (s : BitSet) (z : String) : Prop :=
  ∃ v, vars.find? z = some v ∧ s.contains v = true

def Injective (vars : Variables) : Prop :=
  ∀ y z v, vars.find? y = some v → vars.find? z = some v → y = z

def Named (vars : Variables) (s : BitSet) : Prop :=
  ∀ v, s.contains v = true → ∃ z, vars.find? z = some v

end Variables

theorem Atom.ids_eq (vars : Variables) (x : Atom) : x.ids vars = x.reads.filterMap vars.find? := by
  unfold Atom.ids Atom.reads
  split
  · cases h : vars.find? x.name <;> simp [h]
  · rfl

namespace Frequency

theorem get_addRead (f : Frequency) (u v : Nat) :
    (f.addRead u).get v = f.get v + if u = v then 1 else 0 := by
  rw [addRead, get, get, get, Std.TreeMap.getD_insert]
  by_cases h : u = v
  · subst h
    simp
  · have hcmp : ¬ compare u v = .eq := fun hc => h (Std.LawfulEqCmp.compare_eq_iff_eq.1 hc)
    simp [h, hcmp]

theorem get_note (f : Frequency) (u v : Nat) : (f.note u).get v = f.get v := by
  rw [note, get, get, Std.TreeMap.getD_insertIfNew]
  split
  next h =>
    obtain rfl : u = v := Std.LawfulEqCmp.compare_eq_iff_eq.1 h.1
    rw [Std.TreeMap.getD_eq_fallback h.2]
  next => rfl

theorem get_addReads (vs : List Nat) (f : Frequency) (v : Nat) :
    (vs.foldl addRead f).get v = f.get v + (vs.count v : Int) := by
  induction vs generalizing f with
  | nil => simp
  | cons u us ih =>
    rw [List.foldl_cons, ih, get_addRead, List.count_cons]
    by_cases h : u = v
    · simp [h]
      omega
    · simp [h]

theorem get_notes (vs : List Nat) (f : Frequency) (v : Nat) :
    (vs.foldl note f).get v = f.get v := by
  induction vs generalizing f with
  | nil => rfl
  | cons u us ih => rw [List.foldl_cons, ih, get_note]

theorem mem_addReads (vs : List Nat) (f : Frequency) (v : Nat) :
    v ∈ vs.foldl addRead f ↔ v ∈ vs ∨ v ∈ f := by
  induction vs generalizing f with
  | nil => simp
  | cons u us ih =>
    rw [List.foldl_cons, ih, addRead, Std.TreeMap.mem_insert, Std.LawfulEqCmp.compare_eq_iff_eq,
      List.mem_cons]
    grind

theorem mem_notes (vs : List Nat) (f : Frequency) (v : Nat) :
    v ∈ vs.foldl note f ↔ v ∈ vs ∨ v ∈ f := by
  induction vs generalizing f with
  | nil => simp
  | cons u us ih =>
    rw [List.foldl_cons, ih, note, Std.TreeMap.mem_insertIfNew, Std.LawfulEqCmp.compare_eq_iff_eq,
      List.mem_cons]
    grind

end Frequency

namespace Liveness

variable {vars : Variables} {v : Nat}

mutual

/-- The reads that are counted are those that there are. -/
theorem get_freqExpr : ∀ (x : Expr) (f : Frequency),
    (freqExpr vars x f).get v = f.get v + ((x.reads.filterMap vars.find?).count v : Int)
  | .atom x, f => by rw [freqExpr, Frequency.get_addReads, Atom.ids_eq, Expr.reads]
  | .bind name init, f => by rw [freqExpr, Frequency.get_notes, get_freqExpr init, Expr.reads]
  | .unary op x ty, f => by rw [freqExpr, Frequency.get_addReads, Atom.ids_eq, Expr.reads]
  | .binary op l r ty, f => by
    rw [freqExpr, Frequency.get_addReads, Frequency.get_addReads, Atom.ids_eq, Atom.ids_eq,
      Expr.reads, List.filterMap_append, List.count_append]
    omega
  | .branch cond onTrue none, f => by
    simp only [freqExpr, Frequency.get_addReads, Atom.ids_eq, Expr.reads, get_freqBlock onTrue,
      List.filterMap_append, List.count_append]
    omega
  | .branch cond onTrue (some b), f => by
    simp only [freqExpr, Frequency.get_addReads, Atom.ids_eq, Expr.reads, get_freqBlock onTrue,
      get_freqBlock b, List.filterMap_append, List.count_append]
    omega
  | .missing, f => by simp [freqExpr, Expr.reads]

theorem get_freqBlock : ∀ (xs : List Expr) (f : Frequency),
    (freqBlock vars xs f).get v = f.get v + (((blockReads xs).filterMap vars.find?).count v : Int)
  | [], f => by simp [freqBlock, blockReads]
  | x :: xs, f => by
    rw [freqBlock, get_freqExpr x, get_freqBlock xs, blockReads, List.filterMap_append,
      List.count_append]
    omega

end

mutual

/-- What is read or bound has an entry, and nothing else gets one. -/
theorem mem_freqExpr : ∀ (x : Expr) (f : Frequency),
    v ∈ freqExpr vars x f ↔
      v ∈ (x.reads ++ x.bindings.map Prod.fst).filterMap vars.find? ∨ v ∈ f
  | .atom x, f => by
    simp only [freqExpr, Frequency.mem_addReads, Atom.ids_eq, Expr.reads, Expr.bindings,
      List.map_nil, List.append_nil]
  | .bind name init, f => by
    simp only [freqExpr, Frequency.mem_notes, mem_freqExpr init, Expr.reads, Expr.bindings,
      List.map_append, List.filterMap_append, List.mem_append, List.map_cons, List.map_nil,
      List.filterMap_cons, List.filterMap_nil]
    cases vars.find? name with
    | none => simp
    | some u =>
      simp only [Option.toList_some, List.mem_singleton]
      grind
  | .unary op x ty, f => by
    simp only [freqExpr, Frequency.mem_addReads, Atom.ids_eq, Expr.reads, Expr.bindings,
      List.map_nil, List.append_nil]
  | .binary op l r ty, f => by
    simp only [freqExpr, Frequency.mem_addReads, Atom.ids_eq, Expr.reads, Expr.bindings,
      List.map_nil, List.append_nil, List.filterMap_append, List.mem_append]
    grind
  | .branch cond onTrue none, f => by
    simp only [freqExpr, Frequency.mem_addReads, Atom.ids_eq, Expr.reads, Expr.bindings,
      mem_freqBlock onTrue, List.filterMap_append, List.mem_append]
    grind
  | .branch cond onTrue (some b), f => by
    simp only [freqExpr, Frequency.mem_addReads, Atom.ids_eq, Expr.reads, Expr.bindings,
      mem_freqBlock onTrue, mem_freqBlock b, List.map_append, List.filterMap_append,
      List.mem_append]
    grind
  | .missing, f => by simp [freqExpr, Expr.reads, Expr.bindings]

theorem mem_freqBlock : ∀ (xs : List Expr) (f : Frequency),
    v ∈ freqBlock vars xs f ↔
      v ∈ (blockReads xs ++ (blockBindings xs).map Prod.fst).filterMap vars.find? ∨ v ∈ f
  | [], f => by simp [freqBlock, blockReads, blockBindings]
  | x :: xs, f => by
    simp only [freqBlock, mem_freqExpr x, mem_freqBlock xs, blockReads, blockBindings,
      List.map_append, List.filterMap_append, List.mem_append]
    grind

end

theorem named_insert {s : BitSet} (hs : vars.Named s) (x : Atom) :
    vars.Named ((x.ids vars).foldl BitSet.insert s) := by
  intro v hv
  rw [BitSet.contains_insertAll, Atom.ids_eq, List.mem_filterMap] at hv
  rcases hv with ⟨z, _, hz⟩ | hv
  · exact ⟨z, hz⟩
  · exact hs v hv

theorem named_merge {s t : BitSet} (hs : vars.Named s) (ht : vars.Named t) :
    vars.Named (s.merge t) := by
  intro v hv
  rw [BitSet.contains_merge, Bool.or_eq_true] at hv
  exact hv.elim (hs v) (ht v)

mutual

theorem named_liveExpr : ∀ (x : Expr) {s : BitSet}, vars.Named s →
    vars.Named (liveExpr vars x s)
  | .atom x, s, hs => by
    rw [liveExpr]
    exact named_insert hs x
  | .bind name init, s, hs => by
    intro v hv
    rw [liveExpr, BitSet.contains_eraseAll] at hv
    exact named_liveExpr init hs v hv.2
  | .unary op x ty, s, hs => by
    rw [liveExpr]
    exact named_insert hs x
  | .binary op l r ty, s, hs => by
    rw [liveExpr]
    exact named_insert (named_insert hs l) r
  | .branch cond onTrue none, s, hs => by
    simp only [liveExpr]
    exact named_insert (named_merge hs (named_liveBlock onTrue hs)) cond
  | .branch cond onTrue (some b), s, hs => by
    simp only [liveExpr]
    exact named_insert (named_merge (named_liveBlock b hs) (named_liveBlock onTrue hs)) cond
  | .missing, s, hs => by
    rw [liveExpr]
    exact hs

theorem named_liveBlock : ∀ (xs : List Expr) {s : BitSet}, vars.Named s →
    vars.Named (liveBlock vars xs s)
  | [], s, hs => by
    rw [liveBlock]
    exact hs
  | x :: xs, s, hs => by
    rw [liveBlock]
    exact named_liveExpr x (named_liveBlock xs hs)

end

mutual

theorem named_innerPoints : ∀ (x : Expr) {s : BitSet}, vars.Named s →
    ∀ p ∈ innerPoints vars x s, vars.Named p.live
  | .atom x, s, hs, p, hp => by simp [innerPoints] at hp
  | .bind name init, s, hs, p, hp => by
    rw [innerPoints] at hp
    exact named_innerPoints init hs p hp
  | .unary op x ty, s, hs, p, hp => by simp [innerPoints] at hp
  | .binary op l r ty, s, hs, p, hp => by simp [innerPoints] at hp
  | .branch cond onTrue none, s, hs, p, hp => by
    simp only [innerPoints, List.append_nil] at hp
    exact named_blockPoints onTrue hs p hp
  | .branch cond onTrue (some b), s, hs, p, hp => by
    simp only [innerPoints, List.mem_append] at hp
    rcases hp with hp | hp
    · exact named_blockPoints onTrue hs p hp
    · exact named_blockPoints b hs p hp
  | .missing, s, hs, p, hp => by simp [innerPoints] at hp

theorem named_blockPoints : ∀ (xs : List Expr) {s : BitSet}, vars.Named s →
    ∀ p ∈ blockPoints vars xs s, vars.Named p.live
  | [], s, hs, p, hp => by simp [blockPoints] at hp
  | x :: xs, s, hs, p, hp => by
    simp only [blockPoints, List.mem_append, List.mem_singleton] at hp
    rcases hp with (hp | hp) | rfl
    · exact named_blockPoints xs hs p hp
    · exact named_innerPoints x (named_liveBlock xs hs) p hp
    · exact named_liveExpr x (named_liveBlock xs hs)

end

section Unbound

variable {z : String}

theorem mem_ids (hinj : vars.Injective) (hz : vars.find? z = some v) (x : Atom) :
    v ∈ x.ids vars ↔ z ∈ x.reads := by
  rw [Atom.ids_eq, List.mem_filterMap]
  constructor
  · rintro ⟨y, hy, hv⟩
    rwa [hinj z y v hz hv]
  · intro h
    exact ⟨z, h, hz⟩

mutual

theorem live_liveExpr (hinj : vars.Injective) (hz : vars.find? z = some v) :
    ∀ (x : Expr) (s : BitSet), z ∉ x.bindings.map Prod.fst →
    ((liveExpr vars x s).contains v = true ↔ z ∈ x.reads ∨ s.contains v = true)
  | .atom x, s, _ => by
    rw [liveExpr, BitSet.contains_insertAll, mem_ids hinj hz, Expr.reads]
  | .bind name init, s, hunbound => by
    simp only [Expr.bindings, List.map_append, List.mem_append, List.map_cons, List.map_nil,
      List.mem_singleton, not_or] at hunbound
    have hname : v ∉ (vars.find? name).toList := by
      rw [Option.mem_toList]
      exact fun hv => hunbound.2 (hinj z name v hz hv)
    rw [liveExpr, BitSet.contains_eraseAll, live_liveExpr hinj hz init s hunbound.1, Expr.reads,
      and_iff_right hname]
  | .unary op x ty, s, _ => by
    rw [liveExpr, BitSet.contains_insertAll, mem_ids hinj hz, Expr.reads]
  | .binary op l r ty, s, _ => by
    rw [liveExpr, BitSet.contains_insertAll, BitSet.contains_insertAll, mem_ids hinj hz,
      mem_ids hinj hz, Expr.reads, List.mem_append, or_assoc, or_left_comm]
  | .branch cond onTrue none, s, hunbound => by
    rw [Expr.bindings] at hunbound
    simp only [liveExpr, BitSet.contains_insertAll, BitSet.contains_merge, Bool.or_eq_true,
      live_liveBlock hinj hz onTrue s hunbound, mem_ids hinj hz, Expr.reads, List.mem_append]
    grind
  | .branch cond onTrue (some b), s, hunbound => by
    rw [Expr.bindings, List.map_append, List.mem_append, not_or] at hunbound
    simp only [liveExpr, BitSet.contains_insertAll, BitSet.contains_merge, Bool.or_eq_true,
      live_liveBlock hinj hz onTrue s hunbound.1, live_liveBlock hinj hz b s hunbound.2,
      mem_ids hinj hz, Expr.reads, List.mem_append]
    grind
  | .missing, s, _ => by simp [liveExpr, Expr.reads]

theorem live_liveBlock (hinj : vars.Injective) (hz : vars.find? z = some v) :
    ∀ (xs : List Expr) (s : BitSet), z ∉ (blockBindings xs).map Prod.fst →
    ((liveBlock vars xs s).contains v = true ↔ z ∈ blockReads xs ∨ s.contains v = true)
  | [], s, _ => by simp [liveBlock, blockReads]
  | x :: xs, s, hunbound => by
    rw [blockBindings, List.map_append, List.mem_append, not_or] at hunbound
    rw [liveBlock, live_liveExpr hinj hz x _ hunbound.1, live_liveBlock hinj hz xs s hunbound.2,
      blockReads, List.mem_append, or_assoc]

end

end Unbound

end Liveness

end ExprBackend
