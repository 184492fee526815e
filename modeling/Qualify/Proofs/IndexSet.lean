import Qualify.IndexSet
import Qualify.Proofs.Lists

namespace Qualify.IndexSet

theorem toNat_bit (i : Nat) : (bit i).toNat = 2 ^ (i % 64) := by
  have hlt : i % 64 < 64 := Nat.mod_lt _ (by decide)
  have hshift : (i % wordBits).toUInt64.toNat % 64 = i % 64 := by
    rw [Nat.toUInt64_eq, UInt64.toNat_ofNat', wordBits]
    omega
  rw [bit, UInt64.toNat_shiftLeft, hshift, UInt64.toNat_one, Nat.one_shiftLeft]
  exact Nat.mod_eq_of_lt (Nat.pow_lt_pow_right (by decide) hlt)

theorem and_bit (w : UInt64) (i : Nat) : (w &&& bit i != 0) = w.toNat.testBit (i % 64) := by
  have hand : (w &&& bit i).toNat = (w.toNat.testBit (i % 64)).toNat * 2 ^ (i % 64) := by
    rw [UInt64.toNat_and, toNat_bit]
    apply Nat.eq_of_testBit_eq
    intro j
    cases hw : w.toNat.testBit (i % 64) <;> by_cases hj : i % 64 = j <;>
      simp_all [Nat.testBit_and]
  have hzero : w &&& bit i = 0 ↔ w.toNat.testBit (i % 64) = false := by
    rw [← UInt64.toNat_inj, hand]
    cases w.toNat.testBit (i % 64) <;> simp
  cases hw : w.toNat.testBit (i % 64)
  · simpa using hzero.mpr hw
  · simpa [hw] using hzero

theorem contains_eq (s : IndexSet) (i : Nat) :
    s.contains i = (s.wordAt (i / 64)).toNat.testBit (i % 64) := and_bit _ i

theorem wordAt_of_le {s : IndexSet} {k : Nat} (h : s.words.size ≤ k) : s.wordAt k = 0 := by
  simp [wordAt, h]

@[simp] theorem wordAt_grow (s : IndexSet) (n k : Nat) : (s.grow n).wordAt k = s.wordAt k := by
  simp only [wordAt, grow, Array.getD_eq_getD_getElem?, Array.getElem?_append,
    Array.getElem?_replicate]
  split
  case isTrue => rfl
  case isFalse h =>
    rw [Array.getElem?_eq_none (Nat.not_lt.mp h)]
    split <;> rfl

theorem wordAt_insert (s : IndexSet) (j k : Nat) :
    (s.insert j).wordAt k = if k = j / 64 then s.wordAt k ||| bit j else s.wordAt k := by
  have hsize : j / 64 < (s.grow (j / 64 + 1)).words.size := by
    simp only [grow, Array.size_append, Array.size_replicate]
    omega
  rw [insert, wordAt, Array.getD_setIfInBounds, wordAt_grow]
  by_cases hk : k = j / 64
  · rw [if_pos ⟨hk.symm, hk ▸ hsize⟩, if_pos hk, hk, wordBits]
  · rw [if_neg fun h => hk h.1.symm, if_neg hk]
    exact wordAt_grow s (j / 64 + 1) k

theorem contains_insert (s : IndexSet) (i j : Nat) :
    (s.insert j).contains i = (decide (i = j) || s.contains i) := by
  have hij : i = j ↔ i / 64 = j / 64 ∧ j % 64 = i % 64 := by omega
  rw [contains_eq, contains_eq, wordAt_insert]
  by_cases hword : i / 64 = j / 64
  · rw [if_pos hword, UInt64.toNat_or, Nat.testBit_or, toNat_bit, Nat.testBit_two_pow, Bool.or_comm]
    simp [hij, hword]
  · rw [if_neg hword]
    simp [hij, hword]

theorem wordAt_union (s t : IndexSet) (k : Nat) :
    (s.union t).wordAt k = s.wordAt k ||| t.wordAt k := by
  have hget := wordAt_grow s t.words.size k
  simp only [union, wordAt, Array.getD_eq_getD_getElem?, Array.getElem?_mapIdx] at hget ⊢
  rcases hk : (s.grow t.words.size).words[k]? with _ | w
  · rw [hk] at hget
    have hle : t.words.size ≤ k := by
      have := Array.getElem?_eq_none_iff.mp hk
      simp only [grow, Array.size_append, Array.size_replicate] at this
      omega
    simp [← hget, hle]
  · rw [hk] at hget
    simp [← hget]

theorem contains_union (s t : IndexSet) (i : Nat) :
    (s.union t).contains i = (s.contains i || t.contains i) := by
  rw [contains_eq, wordAt_union, UInt64.toNat_or, Nat.testBit_or, ← contains_eq, ← contains_eq]

@[simp] theorem contains_empty (i : Nat) : contains {} i = false := by simp [contains_eq, wordAt]

theorem contains_insertMany (s : IndexSet) (is : List Nat) (i : Nat) :
    (s.insertMany is).contains i = (decide (i ∈ is) || s.contains i) := by
  induction is generalizing s with
  | nil => simp [insertMany]
  | cons j is ih =>
    show ((s.insert j).insertMany is).contains i = _
    rw [ih, contains_insert, Bool.eq_iff_iff]
    simp [or_left_comm, or_assoc]

@[simp] theorem contains_ofList (is : List Nat) (i : Nat) :
    (ofList is).contains i = decide (i ∈ is) := by
  rw [ofList, contains_insertMany, contains_empty, Bool.or_false]

theorem mem_bitsBelow {w : UInt64} {b : Nat} :
    b ∈ bitsBelow w 64 ↔ b < 64 ∧ w.toNat.testBit b = true := by
  rw [bitsBelow, List.mem_filter, List.mem_range, and_bit]
  exact and_congr_right fun hb => by rw [Nat.mod_eq_of_lt hb]

theorem pairwise_bitsBelow (w : UInt64) (n : Nat) : (bitsBelow w n).Pairwise (· < ·) :=
  List.pairwise_lt_range.filter _

theorem word_ext_iff {v w : UInt64} : v = w ↔ ∀ b < 64, v.toNat.testBit b = w.toNat.testBit b := by
  rw [← UInt64.toBitVec_inj, BitVec.eq_of_getLsbD_eq_iff]
  rfl

/-- A word other than zero has a lowest bit. -/
theorem trailingZeros_spec {w : UInt64} (hw : w ≠ 0) : trailingZeros w < 64 ∧
    w.toNat.testBit (trailingZeros w) = true ∧ ∀ b < trailingZeros w,
      w.toNat.testBit b = false := by
  rcases hfind : (List.range wordBits).find? fun i => w &&& bit i != 0 with _ | t
  · refine absurd (word_ext_iff.mpr fun b hb => ?_) hw
    have hnone := List.find?_range_eq_none.mp hfind b hb
    rw [and_bit, Nat.mod_eq_of_lt hb] at hnone
    simpa using hnone
  · rw [trailingZeros, hfind, Option.getD_some]
    obtain ⟨hset, hmem, hclear⟩ := List.find?_range_eq_some.mp hfind
    have ht : t < 64 := List.mem_range.mp hmem
    rw [and_bit, Nat.mod_eq_of_lt ht] at hset
    refine ⟨ht, hset, fun b hb => ?_⟩
    have hb' := hclear b hb
    rw [and_bit, Nat.mod_eq_of_lt (hb.trans ht)] at hb'
    simpa using hb'

/-- A word is its lowest bit and a multiple of the next power. -/
theorem toNat_eq_add_trailingZeros {w : UInt64} (hw : w ≠ 0) :
    w.toNat = 2 ^ (trailingZeros w + 1) * (w.toNat / 2 ^ (trailingZeros w + 1)) +
      2 ^ trailingZeros w := by
  obtain ⟨-, hset, hclear⟩ := trailingZeros_spec hw
  have hmod : w.toNat % 2 ^ (trailingZeros w + 1) = 2 ^ trailingZeros w := by
    apply Nat.eq_of_testBit_eq
    intro b
    rw [Nat.testBit_mod_two_pow, Nat.testBit_two_pow]
    rcases Nat.lt_trichotomy b (trailingZeros w) with hb | rfl | hb
    · simp [hclear b hb, hb.ne']
    · simp [hset]
    · simp [hb.ne, Nat.not_lt.mpr hb]
  have hdiv := Nat.div_add_mod w.toNat (2 ^ (trailingZeros w + 1))
  rw [hmod] at hdiv
  exact hdiv.symm

/-- Subtracting one turns the lowest bit into those below it, where the word has none: only that bit
is cleared. -/
theorem testBit_clearLowest {w : UInt64} (hw : w ≠ 0) (b : Nat) :
    (w &&& (w - 1)).toNat.testBit b = (w.toNat.testBit b && decide (b ≠ trailingZeros w)) := by
  have hlow := toNat_eq_add_trailingZeros hw
  generalize w.toNat / 2 ^ (trailingZeros w + 1) = m at hlow
  have hpos : 0 < 2 ^ trailingZeros w := Nat.two_pow_pos _
  have hlt : 2 ^ trailingZeros w < 2 ^ (trailingZeros w + 1) :=
    Nat.pow_lt_pow_right (by decide) (Nat.lt_succ_self _)
  have hone : (1 : UInt64) ≤ w := by
    rw [UInt64.le_iff_toNat_le, UInt64.toNat_one]
    omega
  have hpred : (w - 1).toNat = 2 ^ (trailingZeros w + 1) * m + (2 ^ trailingZeros w - 1) := by
    rw [UInt64.toNat_sub_of_le _ _ hone, UInt64.toNat_one]
    omega
  rw [UInt64.toNat_and, Nat.testBit_and, hpred, hlow, Nat.testBit_two_pow_mul_add _ hlt,
    Nat.testBit_two_pow_mul_add _ (by omega)]
  split
  case isTrue hb =>
    rw [Nat.testBit_two_pow, Nat.testBit_two_pow_sub_one]
    by_cases h : trailingZeros w = b
    · simp [h]
    · simp [h]
  case isFalse hb =>
    have hne : b ≠ trailingZeros w := by omega
    simp [hne]

theorem bitsBelow_eq_cons {w : UInt64} (hw : w ≠ 0) :
    bitsBelow w 64 = trailingZeros w :: bitsBelow (w &&& (w - 1)) 64 := by
  obtain ⟨hlt, hset, hclear⟩ := trailingZeros_spec hw
  refine (pairwise_bitsBelow w 64).eq_of_mem_iff
    (List.pairwise_cons.mpr ⟨?_, pairwise_bitsBelow _ 64⟩) ?_
  · intro b hb
    rw [mem_bitsBelow, testBit_clearLowest hw, Bool.and_eq_true, decide_eq_true_iff] at hb
    obtain ⟨-, hb, hne⟩ := hb
    refine Nat.lt_of_le_of_ne (Nat.not_lt.mp fun hlow => ?_) hne.symm
    exact Bool.noConfusion (hb.symm.trans (hclear b hlow))
  · intro b
    simp only [List.mem_cons, mem_bitsBelow, testBit_clearLowest hw, Bool.and_eq_true,
      decide_eq_true_iff]
    by_cases hb : b = trailingZeros w
    · simp [hb, hset, hlt]
    · simp [hb]

@[simp] theorem bitsBelow_zero (n : Nat) : bitsBelow 0 n = [] := by simp [bitsBelow]

def Cursor.rest (c : Cursor) : List Nat :=
  ((c.left :: c.later).zipIdx c.word).flatMap fun x => (bitsBelow x.1 64).map (x.2 * 64 + ·)

/-- One step of the walk gives the first of the members to come, and leaves the others. -/
theorem Cursor.rest_eq (c : Cursor) :
    c.rest = match c.next? with
      | none => []
      | some (i, c') => i :: c'.rest := by
  obtain ⟨k, w, later⟩ := c
  rw [next?]
  -- An empty word has nothing to come, so the search goes on where the members do.
  induction later generalizing k w with
  | nil =>
    by_cases hw : w = 0
    · simp [hw, next?.seek, rest]
    · simp [hw, next?.seek, rest, bitsBelow_eq_cons hw, wordBits]
  | cons v vs ih =>
    by_cases hw : w = 0
    · simpa [hw, next?.seek, rest] using ih (k + 1) v
    · simp [hw, next?.seek, rest, bitsBelow_eq_cons hw, wordBits]

theorem Cursor.take_eq (n : Nat) (c : Cursor) : c.take n = c.rest.take n := by
  induction n generalizing c with
  | zero => simp [take]
  | succ n ih =>
    rw [take, rest_eq]
    cases c.next? with
    | none => rfl
    | some x => exact (congrArg (x.1 :: ·) (ih x.2)).trans List.take_succ_cons.symm

theorem zipIdx_words (s : IndexSet) :
    s.words.toList.zipIdx = (List.range s.words.size).map fun k => (s.wordAt k, k) := by
  apply List.ext_getElem
  · simp
  · intro k hk hk'
    simp only [List.length_zipIdx, Array.length_toList] at hk
    simp [wordAt, hk]

/-- The members word after word. -/
theorem rest_cursor (s : IndexSet) :
    s.cursor.rest = (List.range s.words.size).flatMap fun k => (bitsBelow (s.wordAt k) 64).map
      (k * 64 + ·) := by
  have hmap := congrArg (List.flatMap fun x => (bitsBelow x.1 64).map (x.2 * 64 + ·)) s.zipIdx_words
  rw [List.flatMap_map] at hmap
  rw [← hmap, cursor]
  -- A set without words starts at an empty one.
  cases s.words.toList with
  | nil => simp [Cursor.rest]
  | cons w ws => rfl

theorem toList_eq (s : IndexSet) :
    s.toList = (List.range s.words.size).flatMap fun k => (bitsBelow (s.wordAt k) 64).map
      (k * 64 + ·) := by
  rw [toList, Cursor.take_eq, rest_cursor, List.take_of_length_le]
  have hword (w : UInt64) : (bitsBelow w 64).length ≤ 64 :=
    (List.length_filter_le _ _).trans_eq List.length_range
  rw [List.length_flatMap]
  calc _ ≤ ((List.range s.words.size).map fun k => 64).sum :=
        List.sum_le_sum fun k _ => by simpa using hword _
    _ = s.words.size * wordBits := by simp [wordBits]

theorem mem_toList {s : IndexSet} {i : Nat} : i ∈ s.toList ↔ s.contains i = true := by
  simp only [toList_eq, List.mem_flatMap, List.mem_range, List.mem_map, mem_bitsBelow]
  constructor
  · rintro ⟨k, -, b, ⟨hb, hbit⟩, rfl⟩
    rwa [contains_eq, show (k * 64 + b) / 64 = k by omega, show (k * 64 + b) % 64 = b by omega]
  · intro h
    rw [contains_eq] at h
    refine ⟨i / 64, ?_, i % 64, ⟨Nat.mod_lt _ (by decide), h⟩, by omega⟩
    by_contra hle
    simp [wordAt_of_le (Nat.not_lt.mp hle)] at h

theorem pairwise_toList (s : IndexSet) : s.toList.Pairwise (· < ·) := by
  rw [toList_eq]
  refine List.pairwise_flatMap.mpr ⟨fun k _ => ?_, ?_⟩
  · rw [List.pairwise_map]
    exact (pairwise_bitsBelow _ _).imp fun h => Nat.add_lt_add_left h _
  · refine List.pairwise_lt_range.imp fun {j k} hjk i hi i' hi' => ?_
    obtain ⟨b, hb, rfl⟩ := List.mem_map.mp hi
    obtain ⟨b', hb', rfl⟩ := List.mem_map.mp hi'
    have hb := (mem_bitsBelow.mp hb).1
    omega

theorem nodup_toList (s : IndexSet) : s.toList.Nodup := s.pairwise_toList.imp Nat.ne_of_lt

theorem length_toList (s : IndexSet) : s.toList.length = s.size := by
  have hwords : s.words.toList = (List.range s.words.size).map s.wordAt := by
    simpa [Function.comp_def] using congrArg (List.map Prod.fst) s.zipIdx_words
  rw [toList_eq, size, hwords, List.length_flatMap, List.length_flatMap, List.map_map]
  simp [Function.comp_def, wordBits]

/-- A set of `n` indices below `n` has them all. -/
theorem contains_of_size {s : IndexSet} {n : Nat} (hsize : s.size = n)
    (hlt : ∀ i, s.contains i = true → i < n) {i : Nat} (hi : i < n) : s.contains i = true := by
  have hsub : s.toList ⊆ List.range n := fun j hj => List.mem_range.mpr (hlt j (mem_toList.mp hj))
  have hperm := (s.nodup_toList.subperm hsub).perm_of_length_le
    (by rw [length_toList, hsize, List.length_range])
  exact mem_toList.mp (hperm.mem_iff.mpr (List.mem_range.mpr hi))

theorem wordAt_inter (s t : IndexSet) (k : Nat) :
    (s.inter t).wordAt k = s.wordAt k &&& t.wordAt k := by
  simp only [inter, wordAt, Array.getD_eq_getD_getElem?, Array.getElem?_zipWith]
  cases s.words[k]? <;> cases t.words[k]? <;> simp

theorem contains_inter (s t : IndexSet) (i : Nat) :
    (s.inter t).contains i = (s.contains i && t.contains i) := by
  rw [contains_eq, wordAt_inter, UInt64.toNat_and, Nat.testBit_and, ← contains_eq, ← contains_eq]

theorem testBit_and_not (v w : UInt64) {b : Nat} (hb : b < 64) :
    (v &&& ~~~w).toNat.testBit b = (v.toNat.testBit b && !w.toNat.testBit b) := by
  show (v.toBitVec &&& ~~~w.toBitVec).getLsbD b = (v.toBitVec.getLsbD b && !w.toBitVec.getLsbD b)
  rw [BitVec.getLsbD_and, BitVec.getLsbD_not]
  simp [hb]

theorem and_not_eq_zero (v w : UInt64) :
    (v &&& ~~~w == 0) = true ↔ ∀ b < 64, v.toNat.testBit b = true → w.toNat.testBit b = true := by
  rw [beq_iff_eq, word_ext_iff]
  refine forall₂_congr fun b hb => ?_
  rw [testBit_and_not v w hb, UInt64.toNat_zero, Nat.zero_testBit]
  simp

theorem isSubset_iff {s t : IndexSet} :
    s.isSubset t = true ↔ ∀ i, s.contains i = true → t.contains i = true := by
  simp only [isSubset, List.all_eq_true, List.mem_range, and_not_eq_zero, contains_eq]
  constructor
  · intro h i hi
    by_cases hk : i / 64 < s.words.size
    · exact h _ hk _ (Nat.mod_lt _ (by decide)) hi
    · simp [wordAt_of_le (Nat.not_lt.mp hk)] at hi
  · intro h k _ b hb hbit
    have hkb := h (k * 64 + b)
    rw [show (k * 64 + b) / 64 = k by omega, show (k * 64 + b) % 64 = b by omega] at hkb
    exact hkb hbit

theorem size_eq_of_contains {s : IndexSet} {n : Nat} (h : ∀ i, s.contains i = true ↔ i < n) :
    s.size = n := by
  have hperm : s.toList.Perm (List.range n) := by
    rw [List.perm_ext_iff_of_nodup s.nodup_toList List.nodup_range]
    intro i
    rw [mem_toList, h, List.mem_range]
  rw [← length_toList, hperm.length_eq, List.length_range]

end Qualify.IndexSet
