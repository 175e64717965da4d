import ExprBackend.Pipeline
import ExprBackend.Proofs.Results
import Mathlib.Data.List.Nodup

/-!
# Workers

The functions of a program are compiled by workers that take turns in any order. A turn compiles
the next function in the range of a worker and writes the outcome into the slot of the function. The
slots are read when all workers are done, and whatever the order of the turns was, they then hold
what the functions give one by one.
-/

namespace ExprBackend

def rangeNumbers (r : Nat × Nat) : List Nat := List.range' r.1 (r.2 - r.1)

/-- Ranges that lead from one number to another, each from where the one before it ends. -/
def Consecutive : Nat → List (Nat × Nat) → Nat → Prop
  | start, [], stop => start = stop
  | start, r :: rs, stop => r.1 = start ∧ r.1 ≤ r.2 ∧ Consecutive r.2 rs stop

theorem consecutive_workerRanges (n rest t start : Nat) :
    Consecutive start (workerRanges n rest t start) (start + n * t + min rest t) := by
  induction t generalizing rest start with
  | zero => simp [workerRanges, Consecutive]
  | succ t ih =>
    cases rest with
    | zero =>
      have hrest := ih 0 (start + n)
      have hstop : start + n + n * t + min 0 t = start + n * (t + 1) + min 0 (t + 1) := by
        rw [Nat.mul_succ]
        omega
      rw [hstop] at hrest
      exact ⟨rfl, Nat.le_add_right _ _, hrest⟩
    | succ rest =>
      have hrest := ih rest (start + n + 1)
      have hstop : start + n + 1 + n * t + min rest t =
          start + n * (t + 1) + min (rest + 1) (t + 1) := by
        rw [Nat.mul_succ]
        omega
      rw [hstop] at hrest
      exact ⟨rfl, by omega, hrest⟩

theorem consecutive_rangesOf (workers : Int) (size : Nat) :
    Consecutive 0 (rangesOf workers size) size := by
  unfold rangesOf
  dsimp only
  split
  · exact ⟨rfl, Nat.zero_le _, rfl⟩
  next hmany =>
    have h := consecutive_workerRanges (size / min workers.toNat size)
      (size % min workers.toNat size) (min workers.toNat size) 0
    have hrest : size % min workers.toNat size < min workers.toNat size :=
      Nat.mod_lt _ (by omega)
    rwa [Nat.zero_add, Nat.min_eq_left (Nat.le_of_lt hrest), Nat.div_add_mod'] at h

namespace Consecutive

variable {start stop : Nat} {rs : List (Nat × Nat)}

theorem le (h : Consecutive start rs stop) : start ≤ stop := by
  induction rs generalizing start with
  | nil => exact Nat.le_of_eq h
  | cons r rs ih =>
    obtain ⟨rfl, hr, hrest⟩ := h
    exact Nat.le_trans hr (ih hrest)

theorem start_le (h : Consecutive start rs stop) : ∀ r ∈ rs, r.1 ≤ r.2 := by
  induction rs generalizing start with
  | nil => simp
  | cons r rs ih =>
    obtain ⟨_, hr, hrest⟩ := h
    intro r' hr'
    rcases List.mem_cons.1 hr' with rfl | hr'
    · exact hr
    · exact ih hrest r' hr'

theorem stop_le (h : Consecutive start rs stop) : ∀ r ∈ rs, r.2 ≤ stop := by
  induction rs generalizing start with
  | nil => simp
  | cons r rs ih =>
    obtain ⟨_, _, hrest⟩ := h
    intro r' hr'
    rcases List.mem_cons.1 hr' with rfl | hr'
    · exact hrest.le
    · exact ih hrest r' hr'

/-- Every number between the two ends is in one range, and once. -/
theorem flatMap_rangeNumbers (h : Consecutive start rs stop) :
    rs.flatMap rangeNumbers = List.range' start (stop - start) := by
  induction rs generalizing start with
  | nil =>
    obtain rfl : start = stop := h
    simp
  | cons r rs ih =>
    obtain ⟨rfl, hr, hrest⟩ := h
    have hle := hrest.le
    have hnext : r.2 = r.1 + 1 * (r.2 - r.1) := by omega
    have hsize : stop - r.1 = (r.2 - r.1) + (stop - r.2) := by omega
    rw [List.flatMap_cons, ih hrest, rangeNumbers, hsize, ← List.range'_append, ← hnext]

/-- The parts of a list in the ranges make up the part between the two ends. -/
theorem flatMap_slices {α : Type} (h : Consecutive start rs stop) (xs : List α) :
    (rs.flatMap fun r => (xs.take r.2).drop r.1) = (xs.take stop).drop start := by
  induction rs generalizing start with
  | nil =>
    obtain rfl : start = stop := h
    simp
  | cons r rs ih =>
    obtain ⟨rfl, hr, hrest⟩ := h
    have hle := hrest.le
    have hsize : stop - r.1 = (r.2 - r.1) + (stop - r.2) := by omega
    have hnext : r.1 + (r.2 - r.1) = r.2 := by omega
    rw [List.flatMap_cons, ih hrest, List.drop_take, List.drop_take, List.drop_take, hsize,
      List.take_add, List.drop_drop, hnext]

end Consecutive

theorem flatMap_rangesOf (workers : Int) (size : Nat) :
    (rangesOf workers size).flatMap rangeNumbers = List.range size := by
  rw [(consecutive_rangesOf workers size).flatMap_rangeNumbers, Nat.sub_zero,
    List.range_eq_range']

theorem disjoint_rangesOf (workers : Int) (size : Nat) :
    (rangesOf workers size).Pairwise fun r r' => (rangeNumbers r).Disjoint (rangeNumbers r') := by
  have hnodup : ((rangesOf workers size).flatMap rangeNumbers).Nodup := by
    rw [flatMap_rangesOf]
    exact List.nodup_range
  exact (List.nodup_flatMap.1 hnodup).2

section Gather

variable {outcomes : List (Except CompileError CompiledUnit)} {e : CompileError}

theorem gather_of_faultless (h : ∀ f, .error (.fault f) ∉ outcomes) :
    gather outcomes = outcomes.mapM id := by
  unfold gather
  dsimp only
  split
  next e hfind =>
    have hmem := List.mem_of_find?_eq_some hfind
    have hfault := List.find?_some hfind
    cases e with
    | fault f => exact absurd hmem (h f)
    | _ => cases hfault
  next => rfl

theorem exists_find?_error {p : Except CompileError CompiledUnit → Bool} {e : CompileError}
    (he : p (.error e) = true) (hok : ∀ u, p (.ok u) = false) (h : .error e ∈ outcomes) :
    ∃ e', outcomes.find? p = some (.error e') := by
  obtain ⟨o, hfind⟩ := Option.isSome_iff_exists.1 (List.find?_isSome.2 ⟨_, h, he⟩)
  cases o with
  | ok u => cases (hok u).symm.trans (List.find?_some hfind)
  | error e' => exact ⟨e', hfind⟩

theorem gather_of_fault {f : Fault} (h : .error (.fault f) ∈ outcomes) :
    ∃ f', gather outcomes = .error (.fault f') := by
  unfold gather
  dsimp only
  split
  next e hfind =>
    have hfault := List.find?_some hfind
    cases e with
    | fault f' => exact ⟨f', rfl⟩
    | _ => cases hfault
  next hnone =>
    exfalso
    apply not_exists.2 hnone
    exact exists_find?_error rfl (fun _ => rfl) h

/-- One by one there are only units, or units up to the first failure. -/
theorem mapM_cases (outcomes : List (Except CompileError CompiledUnit)) :
    (∃ units : List CompiledUnit, outcomes = units.map .ok ∧ outcomes.mapM id = .ok units) ∨
      ∃ (units : List CompiledUnit) (e : CompileError)
        (rest : List (Except CompileError CompiledUnit)),
        outcomes = units.map .ok ++ .error e :: rest ∧ outcomes.mapM id = .error e := by
  induction outcomes with
  | nil => exact Or.inl ⟨[], rfl, rfl⟩
  | cons o outcomes ih =>
    rw [List.mapM_cons]
    cases o with
    | error e => exact Or.inr ⟨[], e, outcomes, rfl, rfl⟩
    | ok u =>
      rcases ih with ⟨units, rfl, hall⟩ | ⟨units, e, rest, rfl, herror⟩
      · refine Or.inl ⟨u :: units, rfl, ?_⟩
        rw [hall]
        rfl
      · refine Or.inr ⟨u :: units, e, rest, rfl, ?_⟩
        rw [herror]
        rfl

theorem mapM_of_gather {units : List CompiledUnit} (h : gather outcomes = .ok units) :
    outcomes.mapM id = .ok units := by
  unfold gather at h
  dsimp only at h
  split at h
  · cases h
  · exact h

theorem mem_of_gather_error (h : gather outcomes = .error e) : .error e ∈ outcomes := by
  unfold gather at h
  dsimp only at h
  split at h
  next e' hfind =>
    cases h
    exact List.mem_of_find?_eq_some hfind
  next =>
    rcases mapM_cases outcomes with ⟨units, _, hall⟩ | ⟨units, e', rest, rfl, herror⟩
    · cases hall.symm.trans h
    · cases herror.symm.trans h
      exact List.mem_append_right _ List.mem_cons_self

end Gather

/-- The ranges of the workers do not show in what is gathered. -/
theorem Program.compile_eq_gather (p : Program) (opts : Options) :
    p.compile opts = gather (p.funcs.map (Func.compile opts)) := by
  have hslices := (consecutive_rangesOf opts.workers p.funcs.length).flatMap_slices p.funcs
  have hmap : (rangesOf opts.workers p.funcs.length).flatMap (compileRange opts p.funcs) =
      ((rangesOf opts.workers p.funcs.length).flatMap
        fun r => (p.funcs.take r.2).drop r.1).map (Func.compile opts) := by
    rw [List.map_flatMap]
    rfl
  rw [Program.compile, hmap, hslices, List.take_length, List.drop_zero]

namespace Workers

/-- What is known of a function: at first nothing, then its unit or its failure. -/
structure Slot where
  unit : Option CompiledUnit := none
  failure : Option CompileError := none

def Slot.of : Except CompileError CompiledUnit → Slot
  | .ok u => { unit := some u }
  | .error e => { failure := some e }

/-- What each worker has left to do, and the slots of all functions. -/
structure State where
  left : List (Nat × Nat)
  slots : List Slot

namespace State

def start (workers : Int) (size : Nat) : State :=
  ⟨rangesOf workers size, List.replicate size {}⟩

/-- A turn of a worker. One that has nothing left does nothing. A fault ends the whole run. -/
def turn (opts : Options) (funcs : List Func) (s : State) (worker : Nat) : Except Fault State :=
  match s.left[worker]? with
  | none => .ok s
  | some (i, stop) =>
    if i < stop then
      match funcs[i]? with
      | none => .error (.index i funcs.length)
      | some f =>
        match f.compile opts with
        | .error (.fault e) => .error e
        | outcome => .ok ⟨s.left.set worker (i + 1, stop), s.slots.set i (.of outcome)⟩
    else .ok s

def run (opts : Options) (funcs : List Func) (s : State) (turns : List Nat) : Except Fault State :=
  turns.foldlM (turn opts funcs) s

/-- The failure in the first slot that has one, else what is in the slots for units. -/
def result (s : State) : Except CompileError (List (Option CompiledUnit)) :=
  match s.slots.findSome? Slot.failure with
  | some e => .error e
  | none => .ok (s.slots.map Slot.unit)

def Finished (s : State) : Prop := ∀ r ∈ s.left, r.2 ≤ r.1

end State

/-- Every worker has as many turns as there are functions in its range. -/
def Complete (workers : Int) (size : Nat) (turns : List Nat) : Prop :=
  ∀ w r, (rangesOf workers size)[w]? = some r → r.2 - r.1 ≤ turns.count w

variable {opts : Options} {funcs : List Func} {s s' : State} {w : Nat} {turns : List Nat}

/-- What a turn can do. -/
theorem turn_cases (h : s.turn opts funcs w = .ok s') :
    (s' = s ∧ ∀ r, s.left[w]? = some r → r.2 ≤ r.1) ∨
      ∃ i stop f, s.left[w]? = some (i, stop) ∧ i < stop ∧ funcs[i]? = some f ∧
        (∀ e, f.compile opts ≠ .error (.fault e)) ∧
        s' = ⟨s.left.set w (i + 1, stop), s.slots.set i (.of (f.compile opts))⟩ := by
  unfold State.turn at h
  split at h
  next hnone =>
    cases h
    refine Or.inl ⟨rfl, fun r hr => ?_⟩
    rw [hnone] at hr
    cases hr
  next i stop hrange =>
    split at h
    next hlt =>
      split at h
      · cases h
      next f hf =>
        split at h
        · cases h
        next hfault =>
          cases h
          exact Or.inr ⟨i, stop, f, hrange, hlt, hf, hfault, rfl⟩
    next hge =>
      cases h
      refine Or.inl ⟨rfl, fun r hr => ?_⟩
      rw [hrange] at hr
      cases hr
      exact Nat.le_of_not_lt hge

theorem turn_error {e : Fault} (h : s.turn opts funcs w = .error e) :
    ∃ i stop, s.left[w]? = some (i, stop) ∧ i < stop ∧
      (funcs[i]? = none ∨ ∃ f, funcs[i]? = some f ∧ f.compile opts = .error (.fault e)) := by
  unfold State.turn at h
  split at h
  · cases h
  next i stop hrange =>
    split at h
    next hlt =>
      refine ⟨i, stop, hrange, hlt, ?_⟩
      split at h
      next hnone => exact Or.inl hnone
      next f hf =>
        split at h
        next e' hfault =>
          cases h
          exact Or.inr ⟨f, hf, hfault⟩
        · cases h
    · cases h

structure Done (opts : Options) (s : State) (i : Nat) (f : Func) : Prop where
  slot : s.slots[i]? = some (.of (f.compile opts))
  faultless : ∀ e, f.compile opts ≠ .error (.fault e)

/-- Every function is done or some worker will come to it. -/
structure Sound (opts : Options) (funcs : List Func) (s : State) : Prop where
  size : s.slots.length = funcs.length
  within : ∀ r ∈ s.left, r.2 ≤ funcs.length
  covered : ∀ i f, funcs[i]? = some f → Done opts s i f ∨ ∃ r ∈ s.left, r.1 ≤ i ∧ i < r.2

theorem sound_start (opts : Options) (funcs : List Func) :
    Sound opts funcs (.start opts.workers funcs.length) where
  size := List.length_replicate
  within := (consecutive_rangesOf opts.workers funcs.length).stop_le
  covered i f hf := by
    have hi : i ∈ List.range funcs.length := List.mem_range.2 (List.getElem?_eq_some_iff.1 hf).1
    rw [← flatMap_rangesOf opts.workers, List.mem_flatMap] at hi
    obtain ⟨r, hr, hmem⟩ := hi
    rw [rangeNumbers, List.mem_range'_1] at hmem
    exact Or.inr ⟨r, hr, hmem.1, by omega⟩

theorem Sound.turn (h : Sound opts funcs s) (hturn : s.turn opts funcs w = .ok s') :
    Sound opts funcs s' := by
  rcases turn_cases hturn with ⟨rfl, _⟩ | ⟨i, stop, f, hrange, hlt, hf, hfault, rfl⟩
  · exact h
  · have hi : i < s.slots.length := by
      rw [h.size]
      exact (List.getElem?_eq_some_iff.1 hf).1
    refine ⟨by simpa using h.size, ?_, ?_⟩
    · intro r hr
      rcases List.mem_or_eq_of_mem_set hr with hr | rfl
      · exact h.within r hr
      · exact h.within (i, stop) (List.mem_of_getElem? hrange)
    · intro j g hg
      by_cases hj : i = j
      · subst hj
        obtain rfl := Option.some.inj (hf.symm.trans hg)
        exact Or.inl ⟨by simp [hi], hfault⟩
      · rcases h.covered j g hg with hdone | ⟨r, hr, hlower, hupper⟩
        · exact Or.inl ⟨by rw [List.getElem?_set_ne hj]; exact hdone.slot, hdone.faultless⟩
        · obtain ⟨v, hv⟩ := List.getElem?_of_mem hr
          by_cases hvw : w = v
          · -- the worker itself has the function left: it comes after the one that is done
            subst hvw
            obtain rfl := Option.some.inj (hrange.symm.trans hv)
            refine Or.inr ⟨(i + 1, stop), ?_, by grind, hupper⟩
            exact List.mem_set (List.getElem?_eq_some_iff.1 hrange).1 _
          · refine Or.inr ⟨r, List.mem_of_getElem? (i := v) ?_, hlower, hupper⟩
            rw [List.getElem?_set_ne hvw]
            exact hv

theorem Sound.run (h : Sound opts funcs s) (hrun : s.run opts funcs turns = .ok s') :
    Sound opts funcs s' := by
  induction turns generalizing s with
  | nil =>
    cases hrun
    exact h
  | cons w turns ih =>
    rw [State.run, List.foldlM_cons] at hrun
    obtain ⟨s₁, hturn, hrest⟩ := Except.bind_eq_ok.1 hrun
    exact ih (h.turn hturn) hrest

/-- A run only ends with a fault of one of the functions. -/
theorem Sound.run_error (h : Sound opts funcs s) {e : Fault}
    (hrun : s.run opts funcs turns = .error e) :
    ∃ f ∈ funcs, f.compile opts = .error (.fault e) := by
  induction turns generalizing s with
  | nil => cases hrun
  | cons w turns ih =>
    rw [State.run, List.foldlM_cons] at hrun
    cases hturn : s.turn opts funcs w with
    | ok s₁ =>
      rw [hturn] at hrun
      exact ih (h.turn hturn) hrun
    | error e' =>
      rw [hturn] at hrun
      cases hrun
      obtain ⟨i, stop, hrange, hlt, hnone | ⟨f, hf, hfault⟩⟩ := turn_error hturn
      · have hstop := h.within _ (List.mem_of_getElem? hrange)
        rw [List.getElem?_eq_none_iff] at hnone
        omega
      · exact ⟨f, List.mem_of_getElem? hf, hfault⟩

theorem left_turn (hturn : s.turn opts funcs w = .ok s') {v i stop : Nat}
    (hv : s.left[v]? = some (i, stop)) :
    s'.left[v]? = some (if w = v ∧ i < stop then i + 1 else i, stop) := by
  rcases turn_cases hturn with ⟨rfl, hidle⟩ | ⟨j, stop', f, hrange, hlt, _, _, rfl⟩
  · by_cases hvw : w = v
    · subst hvw
      have hge := hidle _ hv
      rw [hv, if_neg (fun hlt => Nat.not_lt_of_le hge hlt.2)]
    · rw [hv, if_neg (fun hlt => hvw hlt.1)]
  · by_cases hvw : w = v
    · subst hvw
      cases hrange.symm.trans hv
      rw [if_pos ⟨rfl, hlt⟩, List.getElem?_set_self (List.getElem?_eq_some_iff.1 hrange).1]
    · rw [if_neg (fun hlt => hvw hlt.1), List.getElem?_set_ne hvw, hv]

/-- A worker is as far as it had turns. -/
theorem left_run (hrun : s.run opts funcs turns = .ok s') {v i stop : Nat} (hle : i ≤ stop)
    (hv : s.left[v]? = some (i, stop)) :
    s'.left[v]? = some (min (i + turns.count v) stop, stop) := by
  induction turns generalizing s i with
  | nil =>
    cases hrun
    rw [hv, List.count_nil, Nat.add_zero, Nat.min_eq_left hle]
  | cons w turns ih =>
    rw [State.run, List.foldlM_cons] at hrun
    obtain ⟨s₁, hturn, hrest⟩ := Except.bind_eq_ok.1 hrun
    have hnext := left_turn hturn hv
    rw [ih hrest (by split <;> omega) hnext]
    by_cases hwv : w = v
    · subst hwv
      rw [List.count_cons_self]
      split <;> congr 2 <;> omega
    · rw [List.count_cons_of_ne hwv, if_neg (fun hlt => hwv hlt.1)]

theorem length_left_run (hrun : s.run opts funcs turns = .ok s') :
    s'.left.length = s.left.length := by
  induction turns generalizing s with
  | nil =>
    cases hrun
    rfl
  | cons w turns ih =>
    rw [State.run, List.foldlM_cons] at hrun
    obtain ⟨s₁, hturn, hrest⟩ := Except.bind_eq_ok.1 hrun
    rw [ih hrest]
    rcases turn_cases hturn with ⟨rfl, _⟩ | ⟨_, _, _, _, _, _, _, rfl⟩
    · rfl
    · exact List.length_set

theorem finished_of_complete (hturns : Complete opts.workers funcs.length turns)
    (hrun : (State.start opts.workers funcs.length).run opts funcs turns = .ok s) :
    s.Finished := by
  intro r hr
  obtain ⟨v, hv⟩ := List.getElem?_of_mem hr
  have hlength := length_left_run hrun
  have hlt : v < (State.start opts.workers funcs.length).left.length := by
    rw [← hlength]
    exact (List.getElem?_eq_some_iff.1 hv).1
  obtain ⟨⟨i, stop⟩, hrange⟩ : ∃ r, (rangesOf opts.workers funcs.length)[v]? = some r :=
    ⟨_, List.getElem?_eq_getElem hlt⟩
  have hle : i ≤ stop :=
    (consecutive_rangesOf opts.workers funcs.length).start_le _ (List.mem_of_getElem? hrange)
  have hend := left_run hrun hle hrange
  obtain rfl := Option.some.inj (hv.symm.trans hend)
  have hcount := hturns v _ hrange
  dsimp only at hcount ⊢
  omega

theorem Sound.done (h : Sound opts funcs s) (hfinished : s.Finished) {i : Nat} {f : Func}
    (hf : funcs[i]? = some f) : Done opts s i f := by
  rcases h.covered i f hf with hdone | ⟨r, hr, hlower, hupper⟩
  · exact hdone
  · have hnothing := hfinished r hr
    omega

/-- Once nobody has anything left, the slots hold the outcomes in the order of the functions. -/
theorem Sound.slots_eq (h : Sound opts funcs s) (hfinished : s.Finished) :
    s.slots = (funcs.map (Func.compile opts)).map Slot.of := by
  apply List.ext_getElem?
  intro i
  rw [List.map_map, List.getElem?_map]
  cases hf : funcs[i]? with
  | some f => exact (h.done hfinished hf).slot
  | none =>
    rw [List.getElem?_eq_none_iff] at hf
    exact List.getElem?_eq_none (h.size ▸ hf)

/-- Reading the slots gives what going through the outcomes one by one gives. -/
theorem result_eq (outcomes : List (Except CompileError CompiledUnit))
    (hslots : s.slots = outcomes.map Slot.of) :
    s.result = (outcomes.mapM id).map (List.map some) := by
  unfold State.result
  rw [hslots]
  rcases mapM_cases outcomes with ⟨units, hunits, hall⟩ | ⟨units, e, rest, rfl, herror⟩
  · have hnone : (outcomes.map Slot.of).findSome? Slot.failure = none := by
      rw [hunits, List.findSome?_eq_none_iff]
      simp [Slot.of]
    have hmap : (outcomes.map Slot.of).map Slot.unit = units.map some := by
      rw [hunits, List.map_map, List.map_map]
      rfl
    rw [hnone, hall, hmap]
    rfl
  · have hfirst : ((units.map Except.ok ++ Except.error e :: rest).map Slot.of).findSome? Slot.failure =
        some e := by
      rw [List.map_append, List.findSome?_append, List.findSome?_eq_none_iff.2 (by simp [Slot.of])]
      rfl
    rw [hfirst, herror]
    rfl

end Workers

def Func.Faults (opts : Options) (f : Func) : Prop :=
  ∃ e, f.compile opts = .error (.fault e)

theorem Func.faults_iff {opts : Options} {f : Func} :
    (match f.compile opts with
      | .ok _ => false
      | .error e => e.isFault) = true ↔ f.Faults opts := by
  unfold Func.Faults
  cases f.compile opts with
  | ok u => simp
  | error e => cases e <;> simp [CompileError.isFault]

instance (opts : Options) (f : Func) : Decidable (f.Faults opts) :=
  decidable_of_iff _ Func.faults_iff

open Workers in
/-- The workers of a program have consecutive ranges without overlap in which every function is
once. Whatever the order of their turns, the slots hold in the end what the program compiles to,
and that is what the functions compile to one by one: all units in their order, or the failure of
the first function that has one. A run only faults if a function does, and then every order of the
turns ends in a fault of some function. -/
theorem Program.compile_eq_one_by_one (p : Program) (opts : Options) (turns : List Nat)
    (hturns : Complete opts.workers p.funcs.length turns) :
    Consecutive 0 (rangesOf opts.workers p.funcs.length) p.funcs.length ∧
    ((rangesOf opts.workers p.funcs.length).Pairwise
      fun r r' => (rangeNumbers r).Disjoint (rangeNumbers r')) ∧
    (rangesOf opts.workers p.funcs.length).flatMap rangeNumbers = List.range p.funcs.length ∧
    ((∀ f ∈ p.funcs, ¬ f.Faults opts) →
      p.compile opts = p.funcs.mapM (Func.compile opts) ∧
      ((∃ units : List CompiledUnit, p.compile opts = .ok units ∧
          p.funcs.map (Func.compile opts) = units.map .ok) ∨
        ∃ (units : List CompiledUnit) (e : CompileError)
          (rest : List (Except CompileError CompiledUnit)), p.compile opts = .error e ∧
          p.funcs.map (Func.compile opts) = units.map .ok ++ .error e :: rest) ∧
      ∃ s, (State.start opts.workers p.funcs.length).run opts p.funcs turns = .ok s ∧
        s.result = (p.compile opts).map (List.map some)) ∧
    ((∃ f ∈ p.funcs, f.Faults opts) →
      (∃ e, p.compile opts = .error (.fault e)) ∧
      ∃ e, (State.start opts.workers p.funcs.length).run opts p.funcs turns = .error e ∧
        ∃ f ∈ p.funcs, f.compile opts = .error (.fault e)) := by
  have hsound := sound_start opts p.funcs
  apply And.intro (consecutive_rangesOf _ _)
  apply And.intro (disjoint_rangesOf _ _)
  apply And.intro (flatMap_rangesOf _ _)
  rw [Program.compile_eq_gather]
  constructor
  · intro hfaultless
    have hgather : gather (p.funcs.map (Func.compile opts)) =
        (p.funcs.map (Func.compile opts)).mapM id := by
      apply gather_of_faultless
      intro e hmem
      obtain ⟨f, hf, hfault⟩ := List.mem_map.1 hmem
      exact hfaultless f hf ⟨e, hfault⟩
    rw [hgather]
    refine ⟨by rw [List.mapM_map]; rfl, ?_, ?_⟩
    · rcases mapM_cases (p.funcs.map (Func.compile opts)) with
        ⟨units, hunits, hall⟩ | ⟨units, e, rest, hunits, herror⟩
      · exact Or.inl ⟨units, hall, hunits⟩
      · exact Or.inr ⟨units, e, rest, herror, hunits⟩
    · cases hrun : (State.start opts.workers p.funcs.length).run opts p.funcs turns with
      | error e =>
        obtain ⟨f, hf, hfault⟩ := hsound.run_error hrun
        exact absurd ⟨e, hfault⟩ (hfaultless f hf)
      | ok s =>
        have hslots := (hsound.run hrun).slots_eq (finished_of_complete hturns hrun)
        exact ⟨s, rfl, result_eq _ hslots⟩
  · rintro ⟨f, hf, e, hfault⟩
    constructor
    · apply gather_of_fault
      exact List.mem_map.2 ⟨f, hf, hfault⟩
    · cases hrun : (State.start opts.workers p.funcs.length).run opts p.funcs turns with
      | error e' => exact ⟨e', rfl, hsound.run_error hrun⟩
      | ok s =>
        -- a finished run has passed the function that faults
        obtain ⟨i, hi⟩ := List.getElem?_of_mem hf
        have hdone := (hsound.run hrun).done (finished_of_complete hturns hrun) hi
        exact absurd hfault (hdone.faultless e)

/-- Five functions, two of which fail: the third because floats have no remainder, the last because
it has no name. -/
def fiveFunctions : Program :=
  let two : Atom := .float 0x4000000000000000
  ⟨[⟨"one", [], [.atom (.int 1)]⟩,
    ⟨"same", [⟨"x", .float⟩], [.atom (.var "x" .float)]⟩,
    ⟨"rest", [⟨"x", .float⟩], [.binary .mod (.var "x" .float) (.var "x" .float) .float]⟩,
    ⟨"two", [], [.atom two]⟩,
    ⟨"", [], [.atom two]⟩]⟩

/-- The last worker has its turn first, so that the failure without a name is found before the
other one, which is the one returned. -/
theorem Program.compile_eq_one_by_one_five :
    Workers.Complete 3 5 [2, 0, 1, 0, 1] ∧
    fiveFunctions.compile { workers := 3 } =
      .error (.violation "rest" (.unsupportedBinary .mod .float)) ∧
    ∃ s, (Workers.State.start 3 5).run { workers := 3 } fiveFunctions.funcs [2, 0, 1, 0, 1] = .ok s ∧
      s.result = (fiveFunctions.compile { workers := 3 }).map (List.map some) := by
  have hturns : Workers.Complete 3 5 [2, 0, 1, 0, 1] := by
    intro w r hr
    match w with
    | 0 | 1 | 2 =>
      cases hr
      decide
    | w + 3 => cases hr
  have hfaultless : ∀ f ∈ fiveFunctions.funcs, ¬ f.Faults { workers := 3 } := by
    decide +kernel
  have hone := (fiveFunctions.compile_eq_one_by_one { workers := 3 } _ hturns).2.2.2.1 hfaultless
  have herror : (match fiveFunctions.compile { workers := 3 } with
      | .ok _ => false
      | .error e => decide (e = .violation "rest" (.unsupportedBinary .mod .float))) = true := by
    decide +kernel
  refine ⟨hturns, ?_, hone.2.2⟩
  split at herror
  · cases herror
  next e hcompile => rw [hcompile, of_decide_eq_true herror]

end ExprBackend
