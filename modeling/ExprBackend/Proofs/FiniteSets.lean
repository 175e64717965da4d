import ExprBackend.BitSet.Command
import ExprBackend.Proofs.BitSet
import Mathlib.Data.Finset.Max

/-!
# Sets as finite sets

A set stands for the finite set of its keys, whatever the number of its words. Commands on named
sets do to these finite sets what their names say, and all that can be asked of a set depends on its
finite set alone.
-/

namespace ExprBackend.BitSet

def toFinset (s : BitSet) : Finset Nat :=
  {k ∈ Finset.range (64 * s.words.length) | (s.word (k / 64)).getLsbD (k % 64) = true}

theorem mem_toFinset {s : BitSet} {k : Nat} : k ∈ s.toFinset ↔ s.contains k = true := by
  rw [toFinset, Finset.mem_filter, Finset.mem_range]
  refine ⟨And.right, fun h => ⟨?_, h⟩⟩
  have hword := word_lt_of_contains h
  omega

section Operations

variable (s t : BitSet) (k : Nat)

theorem toFinset_insert : (s.insert k).toFinset = Insert.insert k s.toFinset := by
  ext j
  simp [mem_toFinset]

theorem toFinset_erase : (s.erase k).toFinset = s.toFinset.erase k := by
  ext j
  simp [mem_toFinset]

theorem toFinset_ofList (ks : List Nat) : (ofList ks).toFinset = ks.toFinset := by
  ext j
  simp [mem_toFinset, contains_ofList]

theorem toFinset_merge : (s.merge t).toFinset = s.toFinset ∪ t.toFinset := by
  ext j
  simp [mem_toFinset]

theorem toFinset_subtract : (s.subtract t).toFinset = s.toFinset \ t.toFinset := by
  ext j
  simp [mem_toFinset]

theorem toFinset_reset : s.reset.toFinset = ∅ := by
  ext j
  simp [mem_toFinset]

end Operations

/-- The least element of a finite set, or `-1`. -/
def least (keys : Finset Nat) : Int :=
  if h : keys.Nonempty then (keys.min' h : Nat) else -1

/-- The keys of a list that are visited: those from the first one on, up to and including the first
one at which the visitor stops. -/
structure Visits (continues : List Nat → Bool) (keys visited : List Nat) : Prop where
  front : visited <+: keys
  goesOn : ∀ seen, seen <+: visited → seen ≠ [] → seen ≠ visited → continues seen = true
  stops : visited = keys ∨ visited ≠ [] ∧ continues visited = false

/-- A set shows the elements of a finite set. -/
structure Shows (s : BitSet) (keys : Finset Nat) : Prop where
  contains_eq : ∀ k, s.contains k = decide (k ∈ keys)
  size_eq : s.size = keys.card
  ascending : s.keys.Pairwise (· < ·)
  mem_keys : ∀ k, k ∈ s.keys ↔ k ∈ keys
  first_eq : s.first = least keys
  visits : ∀ continues, Visits continues s.keys (s.visit continues)

theorem mem_keys_iff (s : BitSet) (k : Nat) : k ∈ s.keys ↔ k ∈ s.toFinset := by
  rw [mem_keys, mem_toFinset]

theorem size_eq_card (s : BitSet) : s.size = s.toFinset.card := by
  have hkeys : s.toFinset = s.keys.toFinset := by
    ext k
    rw [List.mem_toFinset, mem_keys_iff]
  rw [size_eq_length_keys, hkeys, List.toFinset_card_of_nodup s.keys_nodup]

theorem first_eq_least (s : BitSet) : s.first = least s.toFinset := by
  cases hkeys : s.keys with
  | nil =>
    have hnone : ¬ s.toFinset.Nonempty := by
      rintro ⟨k, hk⟩
      rw [← mem_keys_iff, hkeys] at hk
      cases hk
    rw [least, dif_neg hnone, first_eq, hkeys]
    rfl
  | cons k ks =>
    have hk : k ∈ s.toFinset := by rw [← mem_keys_iff, hkeys]; exact List.mem_cons_self
    have hfirst : ∀ j ∈ s.toFinset, k ≤ j := by
      intro j hj
      have hascending := s.keys_pairwise
      rw [← mem_keys_iff, hkeys] at hj
      rw [hkeys] at hascending
      rcases List.mem_cons.1 hj with rfl | hj
      · exact Nat.le_refl j
      · exact Nat.le_of_lt (List.rel_of_pairwise_cons hascending hj)
    have hmin : s.toFinset.min' ⟨k, hk⟩ = k :=
      Nat.le_antisymm (Finset.min'_le _ k hk) (Finset.le_min' _ _ k hfirst)
    rw [least, dif_pos ⟨k, hk⟩, hmin, first_eq, hkeys]
    rfl

/-- What a visit adds to the keys already seen. -/
theorem visitList_eq (continues : List Nat → Bool) (seen ks : List Nat) :
    ∃ new, (visitList continues seen ks).1 = seen ++ new ∧
      Visits (fun more => continues (seen ++ more)) ks new := by
  induction ks generalizing seen with
  | nil =>
    refine ⟨[], (List.append_nil seen).symm, List.prefix_refl [], ?_, Or.inl rfl⟩
    intro more hmore hne
    exact absurd (List.prefix_nil.1 hmore) hne
  | cons k ks ih =>
    rw [visitList]
    split
    next hon =>
      obtain ⟨new, heq, hfront, hgoes, hstops⟩ := ih (seen ++ [k])
      refine ⟨k :: new, ?_, (List.prefix_cons_inj k).2 hfront, ?_, ?_⟩
      · rw [heq, List.append_assoc, List.singleton_append]
      · intro more hmore hne hnot
        obtain ⟨j, rest, rfl⟩ := List.exists_cons_of_ne_nil hne
        obtain ⟨rfl, hrest⟩ := List.cons_prefix_cons.1 hmore
        by_cases hend : rest = []
        · rw [hend]
          exact hon
        · rw [List.append_cons]
          exact hgoes rest hrest hend fun h => hnot (h ▸ rfl)
      · rcases hstops with hall | ⟨hne, hstop⟩
        · exact Or.inl (hall ▸ rfl)
        · refine Or.inr ⟨List.cons_ne_nil k new, ?_⟩
          rw [List.append_cons]
          exact hstop
    next hoff =>
      refine ⟨[k], rfl, ⟨ks, rfl⟩, ?_, Or.inr ⟨List.cons_ne_nil k [], by simpa using hoff⟩⟩
      intro more hmore hne hnot
      rcases List.prefix_cons_iff.1 hmore with rfl | ⟨rest, rfl, hrest⟩
      · exact absurd rfl hne
      · exact absurd (by rw [List.prefix_nil.1 hrest]) hnot

theorem shows_toFinset (s : BitSet) : Shows s s.toFinset where
  contains_eq k := by simp [mem_toFinset]
  size_eq := s.size_eq_card
  ascending := s.keys_pairwise
  mem_keys := s.mem_keys_iff
  first_eq := s.first_eq_least
  visits continues := by
    obtain ⟨new, heq, hvisits⟩ := visitList_eq continues [] s.keys
    rw [visit_eq, heq]
    exact hvisits

/-- Words beyond the last one are zero, so the longer set has no more keys if they agree. -/
theorem sameKeys_iff (s t : BitSet) : s.sameKeys t = true ↔ s.toFinset = t.toFinset := by
  simp only [sameKeys, List.all_eq_true, List.mem_range, beq_iff_eq]
  constructor
  · intro h
    ext k
    rw [mem_toFinset, mem_toFinset, contains, contains]
    rcases Nat.lt_or_ge (k / 64) (max s.words.length t.words.length) with hk | hk
    · rw [h _ hk]
    · rw [word_of_length_le (Nat.le_trans (Nat.le_max_left _ _) hk),
        word_of_length_le (Nat.le_trans (Nat.le_max_right _ _) hk)]
  · intro h i _
    apply BitVec.eq_of_getLsbD_eq
    intro j hj
    have hsame : s.contains (64 * i + j) = t.contains (64 * i + j) := by
      rw [Bool.eq_iff_iff, ← mem_toFinset, ← mem_toFinset, h]
    have hdiv : (64 * i + j) / 64 = i := by omega
    have hmod : (64 * i + j) % 64 = j := by omega
    rwa [contains, contains, hdiv, hmod] at hsame

abbrev Sets := String → Finset Nat

namespace Command

def keys : Command → List Int
  | .make _ ks => ks
  | .insert _ k | .erase _ k | .contains _ k => [k]
  | _ => []

def onSets (sets : Sets) : Command → Sets
  | .make name ks => Function.update sets name (ks.map Int.toNat).toFinset
  | .copy name source => Function.update sets name (sets source)
  | .insert name k => Function.update sets name (Insert.insert k.toNat (sets name))
  | .erase name k => Function.update sets name ((sets name).erase k.toNat)
  | .merge name source => Function.update sets name (sets name ∪ sets source)
  | .subtract name source => Function.update sets name (sets name \ sets source)
  | .reset name => Function.update sets name ∅
  | _ => sets

end Command

/-- The finite sets after a list of commands. One with a negative key changes nothing. -/
def Sets.run (sets : Sets) (cs : List Command) : Sets :=
  cs.foldl (fun sets c => if ∀ k ∈ c.keys, 0 ≤ k then c.onSets sets else sets) sets

namespace Store

/-- The store after a command, the same one if the command fails. -/
def after (st : Store) (c : Command) : Store :=
  match c.perform st with
  | .ok (_, st') => st'
  | .error _ => st

def run (st : Store) (cs : List Command) : Store := cs.foldl after st

def toSets (st : Store) : Sets := fun name => (st name).toFinset

theorem toSets_put (st : Store) (name : String) (s : BitSet) :
    (st.put name s).toSets = Function.update st.toSets name s.toFinset := by
  funext other
  rw [Function.update_apply, toSets, put]
  split <;> rfl

theorem put_of_ne (st : Store) {name other : String} (h : other ≠ name) (s : BitSet) :
    st.put name s other = st other := if_neg h

end Store

theorem key_of_nonneg {k : Int} (h : 0 ≤ k) : key k = .ok k.toNat := if_neg (Int.not_lt.2 h)

theorem key_of_neg {k : Int} (h : k < 0) : key k = .error (.negativeKey k) := if_pos h

theorem mapM_key_of_nonneg {ks : List Int} (h : ∀ k ∈ ks, 0 ≤ k) :
    ks.mapM key = .ok (ks.map Int.toNat) := by
  induction ks with
  | nil => rfl
  | cons k ks ih =>
    rw [List.mapM_cons, key_of_nonneg (h k List.mem_cons_self),
      ih fun j hj => h j (List.mem_cons_of_mem k hj)]
    rfl

/-- The first negative key is the one that is reported. -/
theorem mapM_key_of_neg {ks : List Int} {k : Int} (h : ks.find? (· < 0) = some k) :
    ks.mapM key = .error (.negativeKey k) := by
  induction ks with
  | nil => cases h
  | cons j ks ih =>
    rw [List.mapM_cons]
    by_cases hj : j < 0
    · obtain rfl : j = k := by simpa [List.find?_cons, hj] using h
      rw [key_of_neg hj]
      rfl
    · rw [List.find?_cons_of_neg (by simpa using hj)] at h
      rw [key_of_nonneg (Int.not_lt.1 hj), ih h]
      rfl

namespace Command

variable {st : Store} {c : Command}

/-- A command that puts a set in the place of its own. -/
theorem perform_put {s : BitSet} (hperform : c.perform st = .ok (.done, st.put c.target s))
    (hsets : Function.update st.toSets c.target s.toFinset = c.onSets st.toSets) :
    ∃ answer st', c.perform st = .ok (answer, st') ∧ st'.toSets = c.onSets st.toSets ∧
      ∀ other, other ≠ c.target → st' other = st other :=
  ⟨.done, _, hperform, (Store.toSets_put ..).trans hsets, fun _ h => st.put_of_ne h _⟩

/-- A command that only asks. -/
theorem perform_ask {answer : Answer} (hperform : c.perform st = .ok (answer, st))
    (hsets : c.onSets st.toSets = st.toSets) :
    ∃ answer st', c.perform st = .ok (answer, st') ∧ st'.toSets = c.onSets st.toSets ∧
      ∀ other, other ≠ c.target → st' other = st other :=
  ⟨answer, st, hperform, hsets.symm, fun _ _ => rfl⟩

/-- A command without negative keys succeeds, changes no set but its own and does to the finite
sets what it says. -/
theorem perform_of_nonneg (h : ∀ k ∈ c.keys, 0 ≤ k) :
    ∃ answer st', c.perform st = .ok (answer, st') ∧ st'.toSets = c.onSets st.toSets ∧
      ∀ other, other ≠ c.target → st' other = st other := by
  have hkey : ∀ k, c.keys = [k] → key k = .ok k.toNat := fun k hk =>
    key_of_nonneg (h k (hk ▸ List.mem_singleton_self k))
  cases c with
  | make name ks =>
    refine perform_put (s := ofList (ks.map Int.toNat)) ?_ (by rw [toFinset_ofList]; rfl)
    rw [perform, @mapM_key_of_nonneg ks h]
    rfl
  | copy name source => exact perform_put rfl rfl
  | insert name k =>
    refine perform_put (s := (st name).insert k.toNat) ?_ (by rw [toFinset_insert]; rfl)
    rw [perform, hkey k rfl]
    rfl
  | erase name k =>
    refine perform_put (s := (st name).erase k.toNat) ?_ (by rw [toFinset_erase]; rfl)
    rw [perform, hkey k rfl]
    rfl
  | contains name k =>
    refine @perform_ask st _ (.truth ((st name).contains k.toNat)) ?_ rfl
    rw [perform, hkey k rfl]
    rfl
  | merge name source => exact perform_put rfl (by rw [toFinset_merge]; rfl)
  | subtract name source => exact perform_put rfl (by rw [toFinset_subtract]; rfl)
  | reset name => exact perform_put rfl (by rw [toFinset_reset]; rfl)
  | sameKeys name other => exact perform_ask rfl rfl
  | size name => exact perform_ask rfl rfl
  | first name => exact perform_ask rfl rfl
  | visit name limit => exact perform_ask rfl rfl
  | wire name => exact perform_ask rfl rfl

theorem perform_of_neg {k : Int} (h : c.keys.find? (· < 0) = some k) :
    c.perform st = .error (.negativeKey k) := by
  -- One key is a list of keys, of which there is no other.
  have hone : ∀ j : Int, [j].find? (· < 0) = some k → key j = .error (.negativeKey k) := by
    intro j hj
    obtain rfl := List.mem_singleton.1 (List.mem_of_find?_eq_some hj)
    exact key_of_neg (by simpa using List.find?_some hj)
  cases c with
  | make name ks =>
    rw [perform, @mapM_key_of_neg ks k h]
    rfl
  | insert name j =>
    rw [perform, hone j h]
    rfl
  | erase name j =>
    rw [perform, hone j h]
    rfl
  | contains name j =>
    rw [perform, hone j h]
    rfl
  | _ => cases h

end Command

namespace Store

theorem after_of_neg {st : Store} {c : Command} {k : Int} (h : c.keys.find? (· < 0) = some k) :
    st.after c = st := by
  rw [after, Command.perform_of_neg h]

/-- One command does the same to a store and to its finite sets. -/
theorem toSets_after (st : Store) (c : Command) :
    (st.after c).toSets = if ∀ k ∈ c.keys, 0 ≤ k then c.onSets st.toSets else st.toSets := by
  split
  next h =>
    obtain ⟨answer, st', hperform, hsets, _⟩ := @Command.perform_of_nonneg st c h
    rw [after, hperform]
    exact hsets
  next h =>
    obtain ⟨k, hk⟩ : ∃ k, c.keys.find? (· < 0) = some k := by
      rw [← Option.isSome_iff_exists, List.find?_isSome]
      simpa using h
    rw [after_of_neg hk]

theorem toSets_run (st : Store) (cs : List Command) : (st.run cs).toSets = st.toSets.run cs := by
  induction cs generalizing st with
  | nil => rfl
  | cons c cs ih =>
    rw [run, List.foldl_cons, ← run, ih, toSets_after]
    rfl

/-- After any commands the sets of a store are the finite sets that the same commands make, and show
their elements. The next command fails if it has a negative key, and otherwise changes no set but
the one that it is about. -/
theorem run_refines (cs : List Command) :
    let st := Store.empty.run cs
    let sets := Sets.run (fun _ => ∅) cs
    (∀ name, (st name).toFinset = sets name ∧ Shows (st name) (sets name)) ∧
      (∀ name other, (st name).sameKeys (st other) = true ↔ sets name = sets other) ∧
      ∀ c : Command,
        (∀ k, c.keys.find? (· < 0) = some k →
          c.perform st = .error (.negativeKey k) ∧ st.after c = st) ∧
        ((∀ k ∈ c.keys, 0 ≤ k) → ∃ answer st', c.perform st = .ok (answer, st') ∧
          st'.toSets = c.onSets sets ∧ ∀ other, other ≠ c.target → st' other = st other) := by
  intro st sets
  have hsets : st.toSets = sets := toSets_run Store.empty cs
  have hset : ∀ name, (st name).toFinset = sets name := fun name => congrFun hsets name
  refine ⟨fun name => ⟨hset name, hset name ▸ shows_toFinset (st name)⟩, ?_, ?_⟩
  · intro name other
    rw [sameKeys_iff, hset, hset]
  · intro c
    refine ⟨fun k hk => ⟨Command.perform_of_neg hk, after_of_neg hk⟩, fun h => ?_⟩
    rw [← hsets]
    exact Command.perform_of_nonneg h

/-- Sets of four and of two words with the same keys, the words of the longer one left over from a
key that was taken away. -/
theorem run_refines_left_over :
    let cs : List Command :=
      [.make "a" [64, 3, 63], .make "b" [200, 64], .make "d" [3, 63, 64], .merge "a" "b",
        .erase "a" 200, .insert "a" (-1)]
    let st := Store.empty.run cs
    (st "a").words.length = 4 ∧ (st "d").words.length = 2 ∧ (st "a").sameKeys (st "d") = true ∧
      (st "a").toFinset = {3, 63, 64} ∧ (st "a").size = 3 ∧ (st "a").first = 3 ∧
      Command.perform st (.erase "a" (-1)) = .error (.negativeKey (-1)) ∧
      ∃ answer next, Command.perform st (.merge "d" "b") = .ok (answer, next) ∧
        (next "d").toFinset = {3, 63, 64, 200} ∧ next "b" = st "b" := by
  intro cs st
  obtain ⟨hset, hsame, hnext⟩ := run_refines cs
  obtain ⟨hkeys, hshows⟩ := hset "a"
  obtain ⟨answer, next, hmerge, hsets, hothers⟩ := (hnext (.merge "d" "b")).2 (by decide)
  refine ⟨by decide, by decide, (hsame "a" "d").2 (by decide), hkeys.trans (by decide),
    hshows.size_eq.trans (by decide), hshows.first_eq.trans (by decide),
    ((hnext (.erase "a" (-1))).1 (-1) rfl).1, answer, next, hmerge, ?_, hothers "b" (by decide)⟩
  exact (congrFun hsets "d").trans (by decide)

end Store

end ExprBackend.BitSet
