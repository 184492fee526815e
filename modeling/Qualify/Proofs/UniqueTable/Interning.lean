import Qualify.Proofs.UniqueTable

namespace Qualify.UniqueTable

variable {α : Type}

inductive Insertion (α : Type) where
  | put (a : α)
  | loose (a : α)

namespace Insertion

def value : Insertion α → α
  | put a | loose a => a

def isPut : Insertion α → Bool
  | put _ => true
  | loose _ => false

theorem eq_iff {x y : Insertion α} : x = y ↔ x.value = y.value ∧ x.isPut = y.isPut := by
  cases x <;> cases y <;> simp [value, isPut]

end Insertion

section Chains

/-- The links from index `i` lead through these indices and then to the end of the bucket. -/
inductive Chain (t : UniqueTable α) : Nat → List Nat → Prop
  | nil : t.Chain 0 []
  | cons {i j : Nat} {is : List Nat} : t.link? i = some (some j) → t.Chain j is →
    t.Chain i (i :: is)

variable {t : UniqueTable α}

theorem chain_zero {is : List Nat} (h : t.Chain 0 is) : is = [] := by
  cases h with
  | nil => rfl
  | cons hlink _ => simp [link?] at hlink

/-- As many steps as the chain has indices are enough for a search, and more make no difference. -/
theorem Chain.search_eq [DecidableEq α] (a : α) {i : Nat} {is : List Nat} (h : t.Chain i is)
    {fuel : Nat} (hfuel : is.length ≤ fuel) :
    t.search a fuel i = is.find? fun k => t.value? k = some a := by
  induction h generalizing fuel with
  | nil => cases fuel <;> simp [search, value?, link?]
  | @cons i j is hlink hrest ih =>
    obtain ⟨fuel, rfl⟩ : ∃ n, fuel = n + 1 :=
      ⟨fuel - 1, by simp only [List.length_cons] at hfuel; omega⟩
    have ih := ih (Nat.le_of_succ_le_succ hfuel)
    by_cases hv : t.value? i = some a
    · simp [search, hv]
    · rcases Nat.eq_zero_or_pos j with rfl | hj
      · simp [search, hv, hlink, chain_zero hrest]
      · simp [search, hv, hlink, Nat.ne_of_gt hj, ih]

variable [WordHash α]

def members (t : UniqueTable α) (b : Nat) : Nat → List Nat
  | 0 => []
  | n + 1 =>
    if linked t.links n && (t.values[n]?).any (bucketOf · t.buckets.size == b) then
      (n + 1) :: t.members b n
    else t.members b n

theorem mem_members {b n i : Nat} : i ∈ t.members b n ↔
    ∃ m < n, i = m + 1 ∧ linked t.links m = true ∧ ∃ a, t.values[m]? = some a ∧
      bucketOf a t.buckets.size = b := by
  induction n with
  | zero => simp [members]
  | succ n ih =>
    have hstep : i ∈ t.members b (n + 1) ↔
        (i = n + 1 ∧ linked t.links n = true ∧ ∃ a, t.values[n]? = some a ∧
          bucketOf a t.buckets.size = b) ∨
          i ∈ t.members b n := by
      rw [members]
      split_ifs with h <;> simp_all [Option.any_eq_true]
    simp only [hstep, ih, Nat.lt_succ_iff_lt_or_eq]
    grind

theorem pairwise_members (b n : Nat) : (t.members b n).Pairwise (· > ·) := by
  induction n with
  | zero => exact .nil
  | succ n ih =>
    rw [members]
    split_ifs
    · refine List.pairwise_cons.mpr ⟨fun i hi => ?_, ih⟩
      obtain ⟨m, hm, rfl, -⟩ := mem_members.mp hi
      omega
    · exact ih

theorem length_members_le (b n : Nat) : (t.members b n).length ≤ t.newestIn b n := by
  induction n with
  | zero => exact Nat.le_refl 0
  | succ n ih =>
    rw [members, newestIn_succ]
    split_ifs
    · exact Nat.succ_le_succ (ih.trans (newest_le _ _ _ _ n))
    · exact ih

theorem Coherent.chain_members (ht : t.Coherent) (b : Nat) {n : Nat} (hn : n ≤ t.size) :
    t.Chain (t.newestIn b n) (t.members b n) := by
  induction n with
  | zero => exact .nil
  | succ n ih =>
    rw [members, newestIn_succ]
    split_ifs with h
    · simp only [Bool.and_eq_true, Option.any_eq_true, beq_iff_eq] at h
      obtain ⟨hl, a, ha, rfl⟩ := h
      obtain ⟨j, hj⟩ := linked_iff.mp hl
      refine .cons (j := j) (by simpa [link?] using hj) ?_
      rw [ht.link n a j ha hj]
      exact ih (Nat.le_of_succ_le hn)
    · exact ih (Nat.le_of_succ_le hn)

theorem Coherent.bucket_getD (ht : t.Coherent) {b : Nat} (hb : b < t.buckets.size) :
    t.buckets.getD b 0 = t.newestIn b t.size := by
  simp [Array.getD_eq_getD_getElem?, ht.bucket b hb]

end Chains

section Runs

variable {t : UniqueTable α}

theorem value?_succ (t : UniqueTable α) (n : Nat) : t.value? (n + 1) = t.values[n]? := rfl

variable [DecidableEq α]

def putValues (xs : List (Insertion α)) : Finset α := ((xs.filter (·.isPut)).map (·.value)).toFinset

theorem mem_putValues {xs : List (Insertion α)} {a : α} : a ∈ putValues xs ↔ .put a ∈ xs := by
  simp only [putValues, List.mem_toFinset, List.mem_map, List.mem_filter]
  constructor
  · rintro ⟨x, ⟨hx, hput⟩, rfl⟩
    cases x with
    | put a => exact hx
    | loose a => cases hput
  · exact fun h => ⟨_, ⟨h, rfl⟩, rfl⟩

def valueCount (xs : List (Insertion α)) : Nat := (putValues xs).card + xs.countP (!·.isPut)

theorem valueCount_concat_of_mem {xs : List (Insertion α)} {a : α} (h : .put a ∈ xs) :
    valueCount (xs ++ [.put a]) = valueCount xs := by
  have hset : putValues (xs ++ [.put a]) = putValues xs := by
    ext b
    rw [mem_putValues, mem_putValues, List.mem_append, List.mem_singleton, or_iff_left_of_imp]
    exact fun hb => hb ▸ h
  rw [valueCount, hset, List.countP_append]
  rfl

theorem valueCount_concat {xs : List (Insertion α)} {x : Insertion α}
    (h : x.isPut = true → x ∉ xs) :
    valueCount (xs ++ [x]) = valueCount xs + 1 := by
  rw [valueCount, List.countP_append]
  cases x with
  | put a =>
    have hset : putValues (xs ++ [.put a]) = Insert.insert a (putValues xs) := by
      ext b
      simp [mem_putValues, or_comm]
    have hnew : a ∉ putValues xs := mt mem_putValues.mp (h rfl)
    rw [hset, Finset.card_insert_of_notMem hnew]
    exact Nat.add_right_comm _ 1 _
  | loose a =>
    have hset : putValues (xs ++ [.loose a]) = putValues xs := by
      ext b
      simp [mem_putValues]
    rw [hset]
    rfl

variable [WordHash α]

def insert (t : UniqueTable α) : Insertion α → Nat × UniqueTable α
  | .put a => t.put a
  | .loose a => t.addLoose a

def after (t : UniqueTable α) (xs : List (Insertion α)) : UniqueTable α :=
  xs.foldl (fun t x => (t.insert x).2) t

/-- The insertions in their order, each with the index that it was answered by. -/
def log (t : UniqueTable α) : List (Insertion α) → List (Insertion α × Nat)
  | [] => []
  | x :: xs => (x, (t.insert x).1) :: log (t.insert x).2 xs

theorem map_fst_log (t : UniqueTable α) (xs : List (Insertion α)) : (t.log xs).map (·.1) = xs := by
  induction xs generalizing t with
  | nil => rfl
  | cons x xs ih => rw [log, List.map_cons, ih]

/-- The value was put before, and the table stays as it is, or it is appended. -/
theorem insert_cases (ht : t.Coherent) (x : Insertion α) :
    (∃ m a, x = .put a ∧ t.insert x = (m + 1, t) ∧ linked t.links m = true ∧
      t.values[m]? = some a) ∨
    ((x.isPut = true → ∀ k, linked t.links k = true → t.values[k]? ≠ some x.value) ∧
      (t.insert x).1 = t.size + 1 ∧
      (t.insert x).2.Coherent ∧ (t.insert x).2.values = t.values.push x.value ∧
      ∀ n, linked (t.insert x).2.links n = if n = t.size then x.isPut else linked t.links n) := by
  have hout : linked t.links t.size = false :=
    Bool.eq_false_iff.mpr fun h => Nat.lt_irrefl _ ((linked_lt_size h).trans_eq ht.links_size)
  cases x with
  | put a =>
    rcases put_cases ht a with ⟨m, -, hput, hl, hv⟩ | ⟨hnew, hindex, hcoh, hvalues, hl⟩
    · exact .inl ⟨m, a, rfl, hput, hl, hv⟩
    · refine .inr ⟨fun _ => hnew, hindex, hcoh, hvalues, fun n => (hl n).trans ?_⟩
      rw [Bool.eq_iff_iff, linked_pushed ht a]
      split_ifs with hn <;> simp [hn, Insertion.isPut]
  | loose a =>
    refine .inr ⟨fun h => absurd h Bool.false_ne_true, rfl, ht.addLoose a, rfl, fun n => ?_⟩
    split_ifs with hn
    · exact (linked_push_none _ _).trans (hn ▸ hout)
    · exact linked_push_none _ _

theorem value?_insert (ht : t.Coherent) (x : Insertion α) {i : Nat} {a : α}
    (h : t.value? i = some a) :
    (t.insert x).2.value? i = some a := by
  rcases insert_cases ht x with ⟨m, a, -, hx, -⟩ | ⟨-, -, -, hvalues, -⟩
  · rwa [hx]
  · rcases i with _ | n
    · simp [value?] at h
    · rw [value?_succ] at h ⊢
      have hn : n < t.values.size := (Array.getElem?_eq_some_iff.mp h).1
      rw [hvalues, Array.getElem?_push_lt hn, ← h, Array.getElem?_eq_getElem hn]

theorem Coherent.insert (ht : t.Coherent) (x : Insertion α) : (t.insert x).2.Coherent := by
  rcases insert_cases ht x with ⟨m, a, -, hx, -⟩ | ⟨-, -, hcoh, -⟩
  · rwa [hx]
  · exact hcoh

/-- An index stands for its value from then on. -/
theorem value?_after (ht : t.Coherent) (xs : List (Insertion α)) {i : Nat} {a : α}
    (h : t.value? i = some a) :
    (t.after xs).value? i = some a := by
  induction xs generalizing t with
  | nil => exact h
  | cons x xs ih => exact ih (ht.insert x) (value?_insert ht x h)

/-- What a table is after the insertions of the log: they are its values, and it has no others. -/
structure Records (t : UniqueTable α) (log : List (Insertion α × Nat)) : Prop where
  coherent : t.Coherent
  mem_iff : ∀ x i, (x, i) ∈ log ↔ ∃ n, i = n + 1 ∧ t.values[n]? = some x.value ∧
    linked t.links n = x.isPut
  size_eq : t.size = valueCount (log.map (·.1))

theorem records_empty (bits : Fin 32) : (empty bits : UniqueTable α).Records [] where
  coherent := coherent_empty bits
  mem_iff x i := by simp [empty]
  size_eq := rfl

variable {before : List (Insertion α × Nat)}

theorem Records.put_mem_iff (h : t.Records before) {a : α} :
    .put a ∈ before.map (·.1) ↔ ∃ n, t.values[n]? = some a ∧ linked t.links n = true := by
  constructor
  · intro ha
    obtain ⟨⟨x, i⟩, hx, rfl⟩ := List.mem_map.mp ha
    obtain ⟨n, -, hn⟩ := (h.mem_iff _ i).mp hx
    exact ⟨n, hn⟩
  · rintro ⟨n, hn⟩
    exact List.mem_map.mpr ⟨(.put a, n + 1), (h.mem_iff _ _).mpr ⟨n, rfl, hn⟩, rfl⟩

/-- The table may be asked for a value that it has. -/
theorem Records.found (h : t.Records before) {a : α} {m : Nat} (hv : t.values[m]? = some a)
    (hl : linked t.links m = true) : t.Records (before ++ [(.put a, m + 1)]) := by
  refine ⟨h.coherent, fun y i => ?_, ?_⟩
  · rw [List.mem_append, List.mem_singleton, Prod.mk.injEq, or_iff_left_of_imp, h.mem_iff]
    rintro ⟨rfl, rfl⟩
    exact (h.mem_iff _ _).mpr ⟨m, rfl, hv, hl⟩
  · rw [List.map_append, h.size_eq]
    exact (valueCount_concat_of_mem (h.put_mem_iff.mpr ⟨m, hv, hl⟩)).symm

theorem Records.appended (h : t.Records before) {t' : UniqueTable α} {x : Insertion α}
    (ht' : t'.Coherent)
    (hnew : x.isPut = true → ∀ k, linked t.links k = true → t.values[k]? ≠ some x.value)
    (hvalues : t'.values = t.values.push x.value)
    (hlinked : ∀ n, linked t'.links n = if n = t.size then x.isPut else linked t.links n) :
    t'.Records (before ++ [(x, t.size + 1)]) := by
  have hval : ∀ n, t'.values[n]? = if n = t.size then some x.value else t.values[n]? := by
    intro n
    rw [hvalues, Array.getElem?_push]
    rfl
  refine ⟨ht', fun y i => ?_, ?_⟩
  · rw [List.mem_append, List.mem_singleton, Prod.mk.injEq, h.mem_iff]
    constructor
    · rintro (⟨n, rfl, hv, hl⟩ | ⟨rfl, rfl⟩)
      · have hn : n ≠ t.size := Nat.ne_of_lt (Array.getElem?_eq_some_iff.mp hv).1
        exact ⟨n, rfl, by rw [hval, if_neg hn, hv], by rw [hlinked, if_neg hn, hl]⟩
      · exact ⟨t.size, rfl, by rw [hval, if_pos rfl], by rw [hlinked, if_pos rfl]⟩
    · rintro ⟨n, rfl, hv, hl⟩
      rw [hval] at hv
      rw [hlinked] at hl
      split_ifs at hv hl with hn
      · exact .inr ⟨Insertion.eq_iff.mpr ⟨(Option.some.inj hv).symm, hl.symm⟩, by rw [hn]⟩
      · exact .inl ⟨n, rfl, hv, hl⟩
  · have hsize : t'.size = t.size + 1 := by rw [size, hvalues, Array.size_push]; rfl
    rw [hsize, h.size_eq, List.map_append]
    refine (valueCount_concat fun hput hx => ?_).symm
    cases x with
    | put a =>
      obtain ⟨n, hv, hl⟩ := h.put_mem_iff.mp hx
      exact hnew rfl n hl hv
    | loose a => cases hput

theorem Records.insert (h : t.Records before) (x : Insertion α) :
    (t.insert x).2.Records (before ++ [(x, (t.insert x).1)]) := by
  rcases insert_cases h.coherent x with
    ⟨m, a, rfl, hx, hl, hv⟩ | ⟨hnew, hindex, hcoh, hvalues, hlinked⟩
  · rw [hx]
    exact h.found hv hl
  · rw [hindex]
    exact h.appended hcoh hnew hvalues hlinked

theorem Records.run (h : t.Records before) (xs : List (Insertion α)) :
    (t.after xs).Records (before ++ t.log xs) := by
  induction xs generalizing t before with
  | nil => simpa [log, after] using h
  | cons x xs ih => simpa [log, after] using ih (h.insert x)

/-- The mark in a word of 32 bits of a value outside of the buckets. -/
def looseMark : Nat := 2 ^ 32 - 1

/-- A table that stores every value of the log and finds those that were put. -/
structure Interns (t : UniqueTable α) (log : List (Insertion α × Nat)) : Prop where
  value : ∀ x i, (x, i) ∈ log → t.value? i = some x.value
  same_iff : ∀ a b i j, (.put a, i) ∈ log → (.put b, j) ∈ log → (i = j ↔ a = b)
  apart : ∀ a b i j, (.put a, i) ∈ log → (.loose b, j) ∈ log → i ≠ j
  size_eq : t.size = (putValues (log.map (·.1))).card + (log.map (·.1)).countP (!·.isPut)
  /-- A bucket is walked in finitely many steps, to smaller and smaller indices, through what was
  put into it and nothing else. A search is that walk up to the value. -/
  chain : ∀ b < t.buckets.size, ∃ is, t.Chain (t.buckets.getD b 0) is ∧ is.Pairwise (· > ·) ∧
    (∀ i, i ∈ is ↔ ∃ a, (.put a, i) ∈ log ∧ bucketOf a t.buckets.size = b) ∧
    ∀ a, bucketOf a t.buckets.size = b → t.find? a = is.find? fun i => t.value? i = some a
  /-- As long as the indices are less than the mark, links can be kept in words. -/
  marked_iff : t.size < looseMark → ∀ i l, t.link? i = some l →
    (l.getD looseMark = looseMark ↔ ∃ a, (.loose a, i) ∈ log)

theorem Records.value (h : t.Records before) {x : Insertion α} {i : Nat} (hx : (x, i) ∈ before) :
    t.value? i = some x.value := by
  obtain ⟨n, rfl, hv, -⟩ := (h.mem_iff x i).mp hx
  exact hv

theorem Records.same_iff (h : t.Records before) {a b : α} {i j : Nat} (hi : (.put a, i) ∈ before)
    (hj : (.put b, j) ∈ before) : i = j ↔ a = b := by
  constructor
  · rintro rfl
    exact Option.some.inj ((h.value hi).symm.trans (h.value hj))
  · rintro rfl
    obtain ⟨m, rfl, hvm, hm⟩ := (h.mem_iff _ i).mp hi
    obtain ⟨n, rfl, hvn, hn⟩ := (h.mem_iff _ j).mp hj
    rw [h.coherent.distinct m n a hm hn hvm hvn]

theorem Records.apart (h : t.Records before) {a b : α} {i j : Nat} (hi : (.put a, i) ∈ before)
    (hj : (.loose b, j) ∈ before) : i ≠ j := by
  obtain ⟨m, rfl, -, hm⟩ := (h.mem_iff _ i).mp hi
  obtain ⟨n, rfl, -, hn⟩ := (h.mem_iff _ j).mp hj
  intro heq
  obtain rfl : m = n := Nat.succ.inj heq
  exact Bool.noConfusion (hm.symm.trans hn)

theorem Records.mem_members_iff (h : t.Records before) {b i : Nat} :
    i ∈ t.members b t.size ↔ ∃ a, (.put a, i) ∈ before ∧ bucketOf a t.buckets.size = b := by
  simp only [mem_members, h.mem_iff]
  constructor
  · rintro ⟨m, -, rfl, hl, a, ha, hb⟩
    exact ⟨a, ⟨m, rfl, ha, hl⟩, hb⟩
  · rintro ⟨a, ⟨m, rfl, ha, hl⟩, hb⟩
    exact ⟨m, (Array.getElem?_eq_some_iff.mp ha).1, rfl, hl, a, ha, hb⟩

theorem Records.marked_iff (h : t.Records before) (hsize : t.size < looseMark) {i : Nat}
    {l : Option Nat} (hl : t.link? i = some l) :
    l.getD looseMark = looseMark ↔ ∃ a, (.loose a, i) ∈ before := by
  rcases i with _ | n
  · simp [link?] at hl
  have hl : t.links[n]? = some l := hl
  have hn : n < t.values.size := (Array.getElem?_eq_some_iff.mp hl).1.trans_eq h.coherent.links_size
  have hv : t.values[n]? = some t.values[n] := Array.getElem?_eq_getElem hn
  cases l with
  | none =>
    refine iff_of_true rfl ⟨t.values[n], (h.mem_iff _ _).mpr ⟨n, rfl, hv, ?_⟩⟩
    simp [linked, hl, Insertion.isPut]
  | some j =>
    have hj : j < looseMark := by
      rw [h.coherent.link n _ j hv hl]
      exact (newest_le _ _ _ _ n).trans_lt (hn.trans hsize)
    refine iff_of_false (Nat.ne_of_lt hj) ?_
    rintro ⟨a, ha⟩
    obtain ⟨m, hm, -, hout⟩ := (h.mem_iff _ _).mp ha
    obtain rfl : n = m := Nat.succ.inj hm
    simp [linked, hl, Insertion.isPut] at hout

theorem Records.interns (h : t.Records before) : t.Interns before where
  value _ _ hx := h.value hx
  same_iff _ _ _ _ hi hj := h.same_iff hi hj
  apart _ _ _ _ hi hj := h.apart hi hj
  size_eq := h.size_eq
  chain b hb := by
    have hchain : t.Chain (t.buckets.getD b 0) (t.members b t.size) :=
      h.coherent.bucket_getD hb ▸ h.coherent.chain_members b (Nat.le_refl _)
    refine ⟨_, hchain, pairwise_members b _, fun i => h.mem_members_iff, ?_⟩
    rintro a rfl
    refine hchain.search_eq a ?_
    rw [h.coherent.bucket_getD hb]
    exact length_members_le _ _
  marked_iff hsize _ _ hl := h.marked_iff hsize hl

/-- Whatever is put and appended, starting from any number of buckets: the table stores it all and
finds what was put, and nothing that comes later changes the value of an index. -/
theorem log_interned (bits : Fin 32) (xs : List (Insertion α)) :
    let t := (empty bits).after xs
    t.Interns ((empty bits).log xs) ∧ ((empty bits).log xs).map (·.1) = xs ∧
      ∀ ys i a, t.value? i = some a → (t.after ys).value? i = some a := by
  have h := (records_empty bits).run xs
  rw [List.nil_append] at h
  exact ⟨h.interns, map_fst_log _ xs, fun ys i a hi => value?_after h.coherent ys hi⟩

/-- The third value makes the one bucket two. The value that was appended first is not the one that
is found. -/
example :
    let xs : List (Insertion (UInt64 × UInt64)) :=
      [.loose (0, 1), .put (0, 1), .put (2, 0), .put (0, 1), .put (0, 0)]
    ((empty 0).log xs).map (·.2) = [1, 2, 3, 2, 4] ∧ ((empty 0).after xs).buckets = #[4, 2] := by
  decide

end Runs

end Qualify.UniqueTable
