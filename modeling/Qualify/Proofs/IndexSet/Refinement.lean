import Qualify.Proofs.IndexSet

namespace Qualify.IndexSet

@[simp] theorem contains_withCapacity (n i : Nat) : (withCapacity n).contains i = false := by
  rw [contains_eq, wordAt, withCapacity, Array.getD_eq_getD_getElem?, Array.getElem?_replicate]
  split <;> simp

theorem wordAt_erase (s : IndexSet) (j k : Nat) :
    (s.erase j).wordAt k = if k = j / 64 then s.wordAt k &&& ~~~bit j else s.wordAt k := by
  rw [erase, wordAt, Array.getD_setIfInBounds]
  by_cases hk : k = j / 64
  · rw [if_pos hk, hk]
    by_cases hlt : j / 64 < s.words.size
    · exact if_pos ⟨rfl, hlt⟩
    · rw [wordAt_of_le (Nat.not_lt.mp hlt), UInt64.zero_and, if_neg fun h => hlt h.2]
      exact wordAt_of_le (Nat.not_lt.mp hlt)
  · rw [if_neg fun h => hk h.1.symm, if_neg hk]
    rfl

theorem contains_erase (s : IndexSet) (i j : Nat) :
    (s.erase j).contains i = (decide (i ≠ j) && s.contains i) := by
  have hij : i = j ↔ i / 64 = j / 64 ∧ j % 64 = i % 64 := by omega
  rw [contains_eq, contains_eq, wordAt_erase]
  by_cases hword : i / 64 = j / 64
  · rw [if_pos hword, testBit_and_not _ _ (Nat.mod_lt _ (by decide)), toNat_bit,
      Nat.testBit_two_pow, Bool.and_comm]
    simp [hij, hword]
  · rw [if_neg hword]
    simp [hij, hword]

/-- Words are told apart by the indices they hold. -/
theorem wordAt_eq_iff {s t : IndexSet} {k : Nat} :
    s.wordAt k = t.wordAt k ↔ ∀ b < 64, s.contains (k * 64 + b) = t.contains (k * 64 + b) := by
  rw [word_ext_iff]
  apply forall₂_congr
  intro b hb
  rw [contains_eq, contains_eq, show (k * 64 + b) / 64 = k by omega,
    show (k * 64 + b) % 64 = b by omega]

theorem words_eq_iff {s t : IndexSet} (hsize : s.words.size = t.words.size) :
    s.words = t.words ↔ ∀ i, s.contains i = t.contains i := by
  constructor
  · intro h i
    rw [contains_eq, contains_eq, wordAt, wordAt, h]
  · intro h
    apply Array.ext hsize
    intro k hk hk'
    have hword : s.wordAt k = t.wordAt k := wordAt_eq_iff.mpr fun b _ => h _
    simpa [wordAt, hk, hk'] using hword

theorem isEmpty_iff {s : IndexSet} : s.isEmpty = true ↔ ∀ i, s.contains i = false := by
  have hcount : (s.words.size * wordBits + wordBits - 1) / wordBits = s.words.size := by
    simp only [wordBits]
    omega
  -- An empty set is one that has only been given room.
  calc s.isEmpty = true ↔ s.words = (withCapacity (s.words.size * wordBits)).words := by
        rw [withCapacity, hcount, Array.eq_replicate_iff, isEmpty, Array.all_eq_true_iff_forall_mem]
        simp
    _ ↔ ∀ i, s.contains i = (withCapacity (s.words.size * wordBits)).contains i := by
        apply words_eq_iff
        rw [withCapacity, hcount, Array.size_replicate]
    _ ↔ ∀ i, s.contains i = false := by simp

/-- The words change exactly if a new index comes in. -/
theorem merge_fst_iff {s t : IndexSet} :
    (s.merge t).1 = true ↔ ∃ i, t.contains i = true ∧ s.contains i = false := by
  have hsize : (s.union t).words.size = (s.grow t.words.size).words.size := by simp [union]
  have hgrow (i : Nat) : (s.grow t.words.size).contains i = s.contains i := by
    rw [contains_eq, contains_eq, wordAt_grow]
  rw [merge, bne_iff_ne, ne_eq, words_eq_iff hsize, not_forall]
  apply exists_congr
  intro i
  rw [contains_union, hgrow]
  cases s.contains i <;> cases t.contains i <;> decide

/-- The set has the members of `S` and no others. -/
def Denotes (s : IndexSet) (S : Finset Nat) : Prop := ∀ i, s.contains i = true ↔ i ∈ S

section Denotes

variable {s t : IndexSet} {S T : Finset Nat}

theorem denotes_withCapacity (n : Nat) : (withCapacity n).Denotes ∅ := by
  intro i
  simp

theorem Denotes.insert (h : s.Denotes S) (j : Nat) : (s.insert j).Denotes ({j} ∪ S) := by
  intro i
  rw [contains_insert, Bool.or_eq_true, decide_eq_true_iff, h i, Finset.mem_union,
    Finset.mem_singleton]

theorem Denotes.erase (h : s.Denotes S) (j : Nat) : (s.erase j).Denotes (S.erase j) := by
  intro i
  rw [contains_erase, Bool.and_eq_true, decide_eq_true_iff, h i, Finset.mem_erase]

theorem Denotes.insertMany (h : s.Denotes S) (is : List Nat) :
    (s.insertMany is).Denotes (S ∪ is.toFinset) := by
  intro i
  rw [contains_insertMany, Bool.or_eq_true, decide_eq_true_iff, h i, Finset.mem_union,
    List.mem_toFinset, or_comm]

theorem denotes_ofList (is : List Nat) : (ofList is).Denotes is.toFinset := by
  intro i
  rw [contains_ofList, decide_eq_true_iff, List.mem_toFinset]

theorem Denotes.union (hs : s.Denotes S) (ht : t.Denotes T) : (s.union t).Denotes (S ∪ T) := by
  intro i
  rw [contains_union, Bool.or_eq_true, hs i, ht i, Finset.mem_union]

theorem Denotes.inter (hs : s.Denotes S) (ht : t.Denotes T) : (s.inter t).Denotes (S ∩ T) := by
  intro i
  rw [contains_inter, Bool.and_eq_true, hs i, ht i, Finset.mem_inter]

theorem Denotes.contains_eq (h : s.Denotes S) (i : Nat) : s.contains i = decide (i ∈ S) := by
  rw [Bool.eq_iff_iff, decide_eq_true_iff]
  exact h i

theorem Denotes.add_fst (h : s.Denotes S) (j : Nat) : (s.add j).1 = decide ({j} ∪ S ≠ S) := by
  rw [add, h.contains_eq]
  simp

theorem Denotes.remove_fst (h : s.Denotes S) (j : Nat) :
    (s.remove j).1 = decide (S.erase j ≠ S) := by
  rw [remove, h.contains_eq]
  simp [Finset.erase_eq_self]

theorem Denotes.merge_fst (hs : s.Denotes S) (ht : t.Denotes T) :
    (s.merge t).1 = decide (S ∪ T ≠ S) := by
  rw [Bool.eq_iff_iff, merge_fst_iff, decide_eq_true_iff, ne_eq, Finset.union_eq_left,
    Finset.not_subset]
  apply exists_congr
  intro i
  rw [ht i, hs.contains_eq, decide_eq_false_iff_not]

/-- Both lists are strictly increasing, so they are equal if they have the same members. -/
theorem Denotes.toList_eq_sort (h : s.Denotes S) : s.toList = S.sort := by
  apply s.pairwise_toList.eq_of_mem_iff S.sortedLT_sort.pairwise
  intro i
  rw [mem_toList, h i, Finset.mem_sort]

theorem Denotes.isEmpty_eq (h : s.Denotes S) : s.isEmpty = decide (S = ∅) := by
  rw [Bool.eq_iff_iff, isEmpty_iff, decide_eq_true_iff, Finset.eq_empty_iff_forall_notMem]
  apply forall_congr'
  intro i
  rw [h.contains_eq, decide_eq_false_iff_not]

theorem Denotes.isSubset_eq (hs : s.Denotes S) (ht : t.Denotes T) :
    s.isSubset t = decide (S ⊆ T) := by
  rw [Bool.eq_iff_iff, isSubset_iff, decide_eq_true_iff, Finset.subset_iff]
  apply forall_congr'
  intro i
  rw [hs i, ht i]

end Denotes

/-- A change of one of the sets named in `ν`. -/
inductive Operation (ν : Type) where
  | insert (set : ν) (i : Nat)
  | remove (set : ν) (i : Nat)
  | extend (set : ν) (is : List Nat)
  | collect (set : ν) (is : List Nat)
  | union (set other : ν)
  | inter (set other into : ν)

namespace Operation

variable {ν : Type}

def target : Operation ν → ν
  | insert set _ | remove set _ | extend set _ | collect set _ | union set _ => set
  | inter _ _ into => into

def run (sets : ν → IndexSet) : Operation ν → Option Bool × IndexSet
  | insert set i => ((sets set).add i).map some id
  | remove set i => ((sets set).remove i).map some id
  | extend set is => (none, (sets set).insertMany is)
  | collect _ is => (none, ofList is)
  | union set other => ((sets set).merge (sets other)).map some id
  | inter set other _ => (none, (sets set).inter (sets other))

def answers : Operation ν → Bool
  | insert .. | remove .. | union .. => true
  | extend .. | collect .. | inter .. => false

def value (sets : ν → Finset Nat) : Operation ν → Finset Nat
  | insert set i => {i} ∪ sets set
  | remove set i => (sets set).erase i
  | extend set is => sets set ∪ is.toFinset
  | collect _ is => is.toFinset
  | union set other => sets set ∪ sets other
  | inter set other _ => sets set ∩ sets other

/-- An answer tells whether the target is another set than before. -/
def runFinite (sets : ν → Finset Nat) (op : Operation ν) : Option Bool × Finset Nat :=
  (if op.answers then some (decide (op.value sets ≠ sets op.target)) else none, op.value sets)

theorem run_denotes {sets : ν → IndexSet} {finite : ν → Finset Nat}
    (h : ∀ r, (sets r).Denotes (finite r)) (op : Operation ν) :
    (op.run sets).1 = (op.runFinite finite).1 ∧
      (op.run sets).2.Denotes (op.runFinite finite).2 := by
  cases op with
  | insert set i => exact ⟨congrArg some ((h set).add_fst i), (h set).insert i⟩
  | remove set i => exact ⟨congrArg some ((h set).remove_fst i), (h set).erase i⟩
  | extend set is => exact ⟨rfl, (h set).insertMany is⟩
  | collect set is => exact ⟨rfl, denotes_ofList is⟩
  | union set other => exact ⟨congrArg some ((h set).merge_fst (h other)), (h set).union (h other)⟩
  | inter set other into => exact ⟨rfl, (h set).inter (h other)⟩

end Operation

section History

variable {ν : Type} [DecidableEq ν]

/-- The answers one after another, and the sets in the end. Each operation leaves all sets but its
target alone. -/
def play {σ : Type} (run : (ν → σ) → Operation ν → Option Bool × σ) :
    (ν → σ) → List (Operation ν) → List (Option Bool) × (ν → σ)
  | sets, [] => ([], sets)
  | sets, op :: ops =>
    let (answer, result) := run sets op
    let (answers, last) := play run (Function.update sets op.target result) ops
    (answer :: answers, last)

theorem play_denotes {sets : ν → IndexSet} {finite : ν → Finset Nat}
    (h : ∀ r, (sets r).Denotes (finite r)) (ops : List (Operation ν)) :
    (play Operation.run sets ops).1 = (play Operation.runFinite finite ops).1 ∧
      ∀ r, ((play Operation.run sets ops).2 r).Denotes
        ((play Operation.runFinite finite ops).2 r) := by
  induction ops generalizing sets finite with
  | nil => exact ⟨rfl, h⟩
  | cons op ops ih =>
    have hstep := Operation.run_denotes h op
    have hnext (r : ν) : (Function.update sets op.target (op.run sets).2 r).Denotes
        (Function.update finite op.target (op.runFinite finite).2 r) := by
      by_cases hr : r = op.target
      · rw [hr, Function.update_self, Function.update_self]
        exact hstep.2
      · rw [Function.update_of_ne hr, Function.update_of_ne hr]
        exact h r
    exact ⟨congrArg₂ List.cons hstep.1 (ih hnext).1, (ih hnext).2⟩

/-- All that the set shows is what `S` has. -/
structure Shows (s : IndexSet) (S : Finset Nat) : Prop where
  contains_eq : ∀ i, s.contains i = decide (i ∈ S)
  size_eq : s.size = S.card
  isEmpty_eq : s.isEmpty = decide (S = ∅)
  increasing : s.toList.Pairwise (· < ·)
  toList_eq : s.toList = S.sort
  /-- A walk of any length meets the members in order. After the last one it has ended. -/
  take_eq : ∀ n, s.cursor.take n = S.sort.take n

theorem Denotes.shows {s : IndexSet} {S : Finset Nat} (h : s.Denotes S) : s.Shows S where
  contains_eq := h.contains_eq
  size_eq := by rw [← length_toList, h.toList_eq_sort, Finset.length_sort]
  isEmpty_eq := h.isEmpty_eq
  increasing := s.pairwise_toList
  toList_eq := h.toList_eq_sort
  take_eq n := by rw [Cursor.take_eq, rest_cursor, ← IndexSet.toList_eq, h.toList_eq_sort]

/-- From sets of any capacities, after any operations: the answers tell whether the set changed, and
every set shows what the finite set of its members has. -/
theorem play_shows (capacity : ν → Nat) (ops : List (Operation ν)) :
    let words := play Operation.run (fun r => withCapacity (capacity r)) ops
    let finite := play Operation.runFinite (fun _ => ∅) ops
    words.1 = finite.1 ∧ (∀ r, (words.2 r).Shows (finite.2 r)) ∧
      ∀ r t, (words.2 r).isSubset (words.2 t) = decide (finite.2 r ⊆ finite.2 t) := by
  intro words finite
  have hdenotes := play_denotes (fun r => denotes_withCapacity (capacity r)) ops
  exact ⟨hdenotes.1, fun r => (hdenotes.2 r).shows,
    fun r t => (hdenotes.2 r).isSubset_eq (hdenotes.2 t)⟩

/-- Sets of one word and of three: what they share has one word, and their union has three. -/
example :
    let words := play Operation.run (fun _ : Fin 3 => withCapacity 10)
      [.insert 0 3, .insert 0 3, .extend 1 [130, 2, 3], .inter 1 0 2, .union 0 1, .union 0 1,
        .remove 2 700]
    words.1 = [some true, some false, none, none, some true, some false, some false] ∧
      (words.2 0).toList = [2, 3, 130] ∧ (words.2 2).toList = [3] := by
  decide +kernel

end History

end Qualify.IndexSet
