import ExprBackend.BitSet.Basic
import Mathlib.Data.List.Range
import Mathlib.Data.List.Sort
import Mathlib.Tactic.Common

/-!
# Keys of a set

Membership after every operation on a set, whatever the number of its words. The list of keys is
strictly ascending and holds exactly the members, so its length is the size of the set.
-/

namespace ExprBackend.BitSet

theorem ext_bits {k j : Nat} : k / 64 = j / 64 ∧ k % 64 = j % 64 ↔ k = j := by
  constructor
  · rintro ⟨hdiv, hmod⟩
    rw [← Nat.div_add_mod k 64, ← Nat.div_add_mod j 64, hdiv, hmod]
  · rintro rfl
    exact ⟨rfl, rfl⟩

@[simp] theorem word_grow (s : BitSet) (n i : Nat) : (s.grow n).word i = s.word i := by
  simp only [word, grow]
  rcases Nat.lt_or_ge i s.words.length with hi | hi
  · rw [List.getElem?_append_left hi]
  · rw [List.getElem?_append_right hi, List.getElem?_eq_none hi, List.getElem?_replicate]
    split <;> rfl

theorem length_grow (s : BitSet) (n : Nat) : (s.grow n).words.length = max s.words.length n := by
  simp only [grow, List.length_append, List.length_replicate]
  omega

theorem word_modify (words : List (BitVec 64)) (i j : Nat) (f : BitVec 64 → BitVec 64) :
    word ⟨words.modify i f⟩ j =
      if i = j ∧ j < words.length then f (word ⟨words⟩ j) else word ⟨words⟩ j := by
  simp only [word, List.getElem?_modify]
  rcases Nat.lt_or_ge j words.length with hj | hj
  · by_cases hij : i = j <;> simp [hij, hj]
  · have hnot : ¬ (i = j ∧ j < words.length) := fun h => absurd h.2 (Nat.not_lt.2 hj)
    rw [if_neg hnot, List.getElem?_eq_none hj]
    simp

theorem word_of_length_le {s : BitSet} {i : Nat} (h : s.words.length ≤ i) : s.word i = 0 := by
  simp [word, List.getElem?_eq_none h]

theorem word_lt_of_contains {s : BitSet} {k : Nat} (h : s.contains k = true) :
    k / 64 < s.words.length := by
  by_contra hge
  rw [contains, word_of_length_le (Nat.not_lt.1 hge)] at h
  simp at h

@[simp] theorem contains_empty (k : Nat) : empty.contains k = false := by
  simp [contains, empty, word]

@[simp] theorem contains_default (k : Nat) : contains {} k = false := contains_empty k

theorem getLsbD_keyBit (k j : Nat) :
    (BitVec.twoPow 64 (k % 64)).getLsbD (j % 64) = decide (j % 64 = k % 64) := by
  have hlt : j % 64 < 64 := Nat.mod_lt _ (by decide)
  rw [BitVec.getLsbD_twoPow]
  by_cases h : k % 64 = j % 64
  · simp [h, hlt]
  · simp [h, Ne.symm h]

/-- Keys of one word are told apart by their bits. -/
theorem decide_mod_eq {k j : Nat} (h : k / 64 = j / 64) :
    decide (j % 64 = k % 64) = decide (j = k) := by
  rw [decide_eq_decide, ← ext_bits (k := j)]
  exact ⟨fun hmod => ⟨h.symm, hmod⟩, And.right⟩

@[simp] theorem contains_insert (s : BitSet) (k j : Nat) :
    (s.insert k).contains j = (decide (j = k) || s.contains j) := by
  have hgrow : word ⟨(s.grow (k / 64 + 1)).words⟩ (j / 64) = s.word (j / 64) := word_grow s _ _
  simp only [contains, insert, word_modify, hgrow]
  by_cases hdiv : k / 64 = j / 64
  · have hlen : j / 64 < (s.grow (k / 64 + 1)).words.length := by
      rw [length_grow]
      omega
    rw [if_pos ⟨hdiv, hlen⟩, BitVec.getLsbD_or, getLsbD_keyBit, decide_mod_eq hdiv, Bool.or_comm]
  · have hne : j ≠ k := fun h => hdiv (h ▸ rfl)
    rw [if_neg fun h => hdiv h.1, decide_eq_false hne, Bool.false_or]

@[simp] theorem contains_erase (s : BitSet) (k j : Nat) :
    (s.erase k).contains j = (!decide (j = k) && s.contains j) := by
  have hmod : j % 64 < 64 := Nat.mod_lt _ (by decide)
  simp only [contains, erase, word_modify]
  by_cases hdiv : k / 64 = j / 64
  · split
    · rw [BitVec.getLsbD_and, BitVec.getLsbD_not, getLsbD_keyBit, decide_mod_eq hdiv,
        Bool.and_comm]
      simp [hmod]
    · next h =>
      have hout : s.word (j / 64) = 0 := word_of_length_le (by omega)
      rw [hout]
      simp
  · have hne : j ≠ k := fun h => hdiv (h ▸ rfl)
    rw [if_neg fun h => hdiv h.1]
    simp [hne]

@[simp] theorem contains_merge (s t : BitSet) (k : Nat) :
    (s.merge t).contains k = (s.contains k || t.contains k) := by
  have hword : (s.merge t).word (k / 64) = s.word (k / 64) ||| t.word (k / 64) := by
    rcases Nat.lt_or_ge (k / 64) (max s.words.length t.words.length) with h | h
    · simp [word, merge, List.getElem?_range h]
    · have hs : s.words.length ≤ k / 64 := by omega
      have ht : t.words.length ≤ k / 64 := by omega
      have hm : (s.merge t).words.length ≤ k / 64 := by simpa [merge] using h
      rw [word_of_length_le hs, word_of_length_le ht, word_of_length_le hm]
      rfl
  simp only [contains, hword, BitVec.getLsbD_or]

@[simp] theorem contains_subtract (s t : BitSet) (k : Nat) :
    (s.subtract t).contains k = (s.contains k && !t.contains k) := by
  have hmod : k % 64 < 64 := Nat.mod_lt _ (by decide)
  have hword : (s.subtract t).word (k / 64) = s.word (k / 64) &&& ~~~ t.word (k / 64) := by
    simp only [word, subtract, List.getElem?_mapIdx]
    cases s.words[k / 64]? <;> simp
  simp [contains, hword, hmod]

@[simp] theorem contains_reset (s : BitSet) (k : Nat) : s.reset.contains k = false := by
  simp only [contains, word, reset, List.getElem?_map]
  cases s.words[k / 64]? <;> simp

theorem contains_insertAll (ks : List Nat) (s : BitSet) {k : Nat} :
    (ks.foldl insert s).contains k = true ↔ k ∈ ks ∨ s.contains k = true := by
  induction ks generalizing s with
  | nil => simp
  | cons j js ih => simp [ih, or_assoc, or_left_comm]

theorem contains_eraseAll (ks : List Nat) (s : BitSet) {k : Nat} :
    (ks.foldl erase s).contains k = true ↔ k ∉ ks ∧ s.contains k = true := by
  induction ks generalizing s with
  | nil => simp
  | cons j js ih => simp [ih, and_assoc, and_left_comm]

theorem contains_ofList (ks : List Nat) (k : Nat) :
    (ofList ks).contains k = decide (k ∈ ks) := by
  rw [Bool.eq_iff_iff, ofList, contains_insertAll]
  simp

/-- The keys of the word at index `i`, by the positions of its bits. -/
def wordKeys (i : Nat) (w : BitVec 64) : List Nat :=
  ((List.range 64).filter w.getLsbD).map (64 * i + ·)

theorem mem_wordKeys {i k : Nat} {w : BitVec 64} :
    k ∈ wordKeys i w ↔ k / 64 = i ∧ w.getLsbD (k % 64) = true := by
  simp only [wordKeys, List.mem_map, List.mem_filter, List.mem_range]
  constructor
  · rintro ⟨j, ⟨hj, hw⟩, rfl⟩
    have hmod : (64 * i + j) % 64 = j := by omega
    exact ⟨by omega, by rwa [hmod]⟩
  · rintro ⟨rfl, hw⟩
    exact ⟨k % 64, ⟨Nat.mod_lt _ (by decide), hw⟩, Nat.div_add_mod k 64⟩

theorem wordKeys_pairwise (i : Nat) (w : BitVec 64) : (wordKeys i w).Pairwise (· < ·) := by
  rw [wordKeys, List.pairwise_map]
  exact (List.pairwise_lt_range.filter _).imp fun h => by omega

theorem length_wordKeys (i : Nat) (w : BitVec 64) : (wordKeys i w).length = bitCount w := by
  rw [wordKeys, List.length_map, bitCount, List.countP_eq_length_filter]

theorem wordKeys_zero (i : Nat) : wordKeys i 0 = [] := by simp [wordKeys]

theorem trailingZeros_lt {w : BitVec 64} (h : w ≠ 0) : trailingZeros w < 64 := by
  have hbit : ∃ j ∈ List.range 64, w.getLsbD j = true := by
    by_contra hclear
    apply h
    apply BitVec.eq_of_getLsbD_eq
    intro j hj
    simpa using fun hset => hclear ⟨j, List.mem_range.2 hj, hset⟩
  simpa [trailingZeros] using List.findIdx_lt_length.2 hbit

theorem getLsbD_trailingZeros {w : BitVec 64} (h : w ≠ 0) :
    w.getLsbD (trailingZeros w) = true := by
  have hlt : (List.range 64).findIdx w.getLsbD < (List.range 64).length := by
    simpa [trailingZeros] using trailingZeros_lt h
  simpa [trailingZeros] using List.findIdx_getElem (w := hlt)

theorem getLsbD_of_lt_trailingZeros {w : BitVec 64} {j : Nat} (h : j < trailingZeros w) :
    w.getLsbD j = false := by
  simpa using List.not_of_lt_findIdx h

/-- The lowest bit is the least key of a word, and the others are those of the word without it. -/
theorem wordKeys_of_ne_zero (i : Nat) {w : BitVec 64} (h : w ≠ 0) :
    wordKeys i w = (64 * i + trailingZeros w) ::
      wordKeys i (w &&& ~~~ BitVec.twoPow 64 (trailingZeros w)) := by
  have hlt := trailingZeros_lt h
  have hmem (k : Nat) : k ∈ wordKeys i (w &&& ~~~ BitVec.twoPow 64 (trailingZeros w)) ↔
      k / 64 = i ∧ w.getLsbD (k % 64) = true ∧ k % 64 ≠ trailingZeros w := by
    have hmod : k % 64 < 64 := Nat.mod_lt _ (by decide)
    rw [mem_wordKeys, BitVec.getLsbD_and, BitVec.getLsbD_not, BitVec.getLsbD_twoPow]
    simp [hmod, hlt, ne_comm (a := k % 64)]
  refine (wordKeys_pairwise i w).eq_of_mem_iff ?_ fun k => ?_
  · refine List.pairwise_cons.2 ⟨fun k hk => ?_, wordKeys_pairwise i _⟩
    obtain ⟨hdiv, hset, hne⟩ := (hmem k).1 hk
    have hle : trailingZeros w ≤ k % 64 := by
      by_contra hbelow
      rw [getLsbD_of_lt_trailingZeros (Nat.not_le.1 hbelow)] at hset
      cases hset
    omega
  · rw [List.mem_cons, hmem, mem_wordKeys]
    constructor
    · rintro ⟨hdiv, hset⟩
      by_cases hlow : k % 64 = trailingZeros w
      · exact Or.inl (by omega)
      · exact Or.inr ⟨hdiv, hset, hlow⟩
    · rintro (rfl | ⟨hdiv, hset, _⟩)
      · have hmod : (64 * i + trailingZeros w) % 64 = trailingZeros w := by omega
        exact ⟨by omega, by rw [hmod]; exact getLsbD_trailingZeros h⟩
      · exact ⟨hdiv, hset⟩

/-- Visits the keys of a list as those of a word are visited. -/
def visitList (continues : List Nat → Bool) (seen : List Nat) : List Nat → List Nat × Bool
  | [] => (seen, true)
  | k :: ks =>
    if continues (seen ++ [k]) then visitList continues (seen ++ [k]) ks
    else (seen ++ [k], false)

section Visits

variable {continues : List Nat → Bool}

theorem visitList_append (seen ks js : List Nat) :
    visitList continues seen (ks ++ js) =
      if (visitList continues seen ks).2 = true then
        visitList continues (visitList continues seen ks).1 js
      else visitList continues seen ks := by
  induction ks generalizing seen with
  | nil => rfl
  | cons k ks ih =>
    rw [List.cons_append, visitList, visitList]
    split
    · exact ih _
    · rfl

theorem visitList_all (seen ks : List Nat) :
    visitList (fun _ => true) seen ks = (seen ++ ks, true) := by
  induction ks generalizing seen with
  | nil => rw [visitList, List.append_nil]
  | cons k ks ih => rw [visitList, if_pos rfl, ih, List.append_assoc, List.singleton_append]

/-- There are rounds enough for all bits of a word. -/
theorem visitWord_eq {i rounds : Nat} {w : BitVec 64} (seen : List Nat)
    (h : (wordKeys i w).length ≤ rounds) :
    visitWord continues i rounds w seen = visitList continues seen (wordKeys i w) := by
  induction rounds generalizing w seen with
  | zero =>
    rw [List.eq_nil_of_length_eq_zero (Nat.le_zero.1 h)]
    rfl
  | succ rounds ih =>
    rw [visitWord]
    by_cases hzero : w = 0
    · rw [if_pos hzero, hzero, wordKeys_zero]
      rfl
    · rw [wordKeys_of_ne_zero i hzero, List.length_cons] at h
      rw [if_neg hzero, wordKeys_of_ne_zero i hzero, visitList]
      dsimp only
      split
      · exact ih _ (Nat.le_of_succ_le_succ h)
      · rfl

def wordsKeys : Nat → List (BitVec 64) → List Nat
  | _, [] => []
  | i, w :: ws => wordKeys i w ++ wordsKeys (i + 1) ws

theorem visitWords_eq (i : Nat) (ws : List (BitVec 64)) (seen : List Nat) :
    visitWords continues i ws seen = (visitList continues seen (wordsKeys i ws)).1 := by
  induction ws generalizing i seen with
  | nil => rfl
  | cons w ws ih =>
    have hrounds : (wordKeys i w).length ≤ 64 := by
      rw [wordKeys, List.length_map]
      exact List.length_filter_le _ _
    rw [visitWords, visitWord_eq seen hrounds, wordsKeys, visitList_append]
    rcases visitList continues seen (wordKeys i w) with ⟨seen', _ | _⟩
    · rfl
    · exact ih (i + 1) seen'

end Visits

theorem keys_eq (s : BitSet) : s.keys = wordsKeys 0 s.words := by
  rw [keys, visit, visitWords_eq, visitList_all]
  rfl

theorem visit_eq (s : BitSet) (continues : List Nat → Bool) :
    s.visit continues = (visitList continues [] s.keys).1 := by
  rw [visit, visitWords_eq, keys_eq]

theorem mem_wordsKeys {i k : Nat} {ws : List (BitVec 64)} :
    k ∈ wordsKeys i ws ↔ i ≤ k / 64 ∧ (ws[k / 64 - i]?.getD 0).getLsbD (k % 64) = true := by
  induction ws generalizing i with
  | nil => simp [wordsKeys]
  | cons w ws ih =>
    rw [wordsKeys, List.mem_append, mem_wordKeys, ih]
    rcases Nat.lt_trichotomy (k / 64) i with hlt | rfl | hlt
    · exact iff_of_false (by omega) (by omega)
    · simp
    · obtain ⟨j, hj⟩ : ∃ j, k / 64 - i = j + 1 := ⟨k / 64 - i - 1, by omega⟩
      have hrest : k / 64 - (i + 1) = j := by omega
      rw [hj, hrest, List.getElem?_cons_succ]
      constructor
      · rintro (⟨heq, _⟩ | ⟨_, hset⟩)
        · omega
        · exact ⟨by omega, hset⟩
      · rintro ⟨_, hset⟩
        exact Or.inr ⟨hlt, hset⟩

theorem wordsKeys_pairwise (i : Nat) (ws : List (BitVec 64)) :
    (wordsKeys i ws).Pairwise (· < ·) := by
  induction ws generalizing i with
  | nil => exact List.Pairwise.nil
  | cons w ws ih =>
    rw [wordsKeys, List.pairwise_append]
    refine ⟨wordKeys_pairwise i w, ih (i + 1), fun k hk j hj => ?_⟩
    have hfirst := (mem_wordKeys.1 hk).1
    have hrest := (mem_wordsKeys.1 hj).1
    omega

theorem mem_keys {s : BitSet} {k : Nat} : k ∈ s.keys ↔ s.contains k = true := by
  rw [keys_eq, mem_wordsKeys, contains, word, Nat.sub_zero]
  exact and_iff_right (Nat.zero_le _)

theorem keys_pairwise (s : BitSet) : s.keys.Pairwise (· < ·) := by
  rw [keys_eq]
  exact wordsKeys_pairwise 0 s.words

theorem keys_nodup (s : BitSet) : s.keys.Nodup :=
  s.keys_pairwise.imp fun h => Nat.ne_of_lt h

theorem size_eq_length_keys (s : BitSet) : s.size = s.keys.length := by
  have hwords (i : Nat) (ws : List (BitVec 64)) :
      ws.foldr (fun w n => bitCount w + n) 0 = (wordsKeys i ws).length := by
    induction ws generalizing i with
    | nil => rfl
    | cons w ws ih =>
      rw [List.foldr_cons, ih (i + 1), wordsKeys, List.length_append, length_wordKeys]
  rw [size, hwords 0, keys_eq]

theorem firstFrom_eq (i : Nat) (ws : List (BitVec 64)) :
    firstFrom i ws = ((wordsKeys i ws).head?.map Int.ofNat).getD (-1) := by
  induction ws generalizing i with
  | nil => rfl
  | cons w ws ih =>
    rw [firstFrom, wordsKeys]
    by_cases hzero : w = 0
    · rw [if_pos hzero, ih, hzero, wordKeys_zero, List.nil_append]
    · rw [if_neg hzero, wordKeys_of_ne_zero i hzero]
      rfl

theorem first_eq (s : BitSet) : s.first = (s.keys.head?.map Int.ofNat).getD (-1) := by
  rw [first, firstFrom_eq, keys_eq]

end ExprBackend.BitSet
