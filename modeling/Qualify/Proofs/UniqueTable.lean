import Mathlib
import Qualify.Diagram.UniqueTable

namespace Qualify.UniqueTable

variable {α : Type}

/-- The value at this place, counted from zero, stands in a bucket. -/
def linked (links : Array (Option Nat)) (n : Nat) : Bool := (links[n]?).join.isSome

@[simp] theorem linked_push_lt (links : Array (Option Nat)) (x : Option Nat) {n : Nat}
    (hn : n < links.size) :
    linked (links.push x) n = linked links n := by
  simp [linked, Array.getElem?_push, Nat.ne_of_lt hn]

theorem linked_push_size (links : Array (Option Nat)) (x : Option Nat) :
    linked (links.push x) links.size = x.isSome := by
  simp [linked]

@[simp] theorem linked_push_none (links : Array (Option Nat)) (n : Nat) :
    linked (links.push none) n = linked links n := by
  by_cases hn : n = links.size <;> simp [linked, Array.getElem?_push, hn]

theorem linked_lt_size {links : Array (Option Nat)} {n : Nat} (h : linked links n = true) :
    n < links.size := by
  by_contra hn
  simp [linked, Array.getElem?_eq_none (Nat.le_of_not_lt hn)] at h

theorem linked_iff {links : Array (Option Nat)} {n : Nat} :
    linked links n = true ↔ ∃ j, links[n]? = some (some j) := by
  rcases h : links[n]? with _ | _ | j <;> simp [linked, h]

variable [WordHash α]

theorem bucketOf_lt (a : α) {count : Nat} (h : 0 < count) : bucketOf a count < count := by
  unfold bucketOf
  have hc : count.toUInt64.toNat = count % 2 ^ 64 := by simp
  rw [UInt64.toNat_mod, hc]
  -- a count that is zero as a word is larger than every hash
  rcases Nat.eq_zero_or_pos (count % 2 ^ 64) with h0 | h0
  · have hw := (wordHash a).toNat_lt
    have hle : 2 ^ 64 ≤ count := Nat.le_of_dvd h (Nat.dvd_of_mod_eq_zero h0)
    rw [h0, Nat.mod_zero]
    omega
  · exact (Nat.mod_lt _ h0).trans_le (Nat.mod_le _ _)

/-- The newest index among the first `n` values that stand in bucket `b`, zero if there is none. -/
def newest (values : Array α) (keep : Nat → Bool) (count b : Nat) : Nat → Nat
  | 0 => 0
  | n + 1 =>
    if keep n && (values[n]?).any (bucketOf · count == b) then n + 1
    else newest values keep count b n

theorem newest_le (values : Array α) (keep : Nat → Bool) (count b n : Nat) :
    newest values keep count b n ≤ n := by
  induction n with
  | zero => exact Nat.le_refl 0
  | succ n ih =>
    unfold newest
    split_ifs
    · exact Nat.le_refl _
    · exact ih.trans (Nat.le_succ n)

theorem newest_congr {values values' : Array α} {keep keep' : Nat → Bool} {n : Nat}
    (hv : ∀ k < n, values[k]? = values'[k]?) (hk : ∀ k < n, keep k = keep' k) (count b : Nat) :
    newest values keep count b n = newest values' keep' count b n := by
  induction n with
  | zero => rfl
  | succ n ih =>
    unfold newest
    rw [hv n (Nat.lt_succ_self n), hk n (Nat.lt_succ_self n),
      ih (fun k h => hv k (h.trans (Nat.lt_succ_self n)))
        (fun k h => hk k (h.trans (Nat.lt_succ_self n)))]

/-- What is appended changes nothing before it. -/
theorem newest_push {values : Array α} {links : Array (Option Nat)} (h : links.size = values.size)
    (a : α) (x : Option Nat) (count b : Nat) {n : Nat} (hn : n ≤ values.size) :
    newest (values.push a) (linked (links.push x)) count b n =
      newest values (linked links) count b n := by
  refine newest_congr (fun k hk => ?_) (fun k hk => linked_push_lt _ _ (by omega)) count b
  simp [Array.getElem?_push, show k ≠ values.size by omega]

abbrev newestIn (t : UniqueTable α) (b n : Nat) : Nat :=
  newest t.values (linked t.links) t.buckets.size b n

theorem newestIn_succ (t : UniqueTable α) (b n : Nat) :
    t.newestIn b (n + 1) =
      if linked t.links n && (t.values[n]?).any (bucketOf · t.buckets.size == b) then n + 1
      else t.newestIn b n := rfl

/-- A bucket is cut by its newest value into this one and what stands before it. -/
theorem newestIn_split {t : UniqueTable α} {k n : Nat} {a : α}
    (hk : linked t.links k = true) (ha : t.values[k]? = some a) (hn : k < n) :
    ∃ m, t.newestIn (bucketOf a t.buckets.size) n = m + 1 ∧ m < n ∧ (k = m ∨ k < m) := by
  induction n with
  | zero => omega
  | succ n ih =>
    rw [newestIn_succ]
    split_ifs with hnew
    · exact ⟨n, rfl, Nat.lt_succ_self n, by omega⟩
    · have hne : k ≠ n := by
        rintro rfl
        simp [hk, ha] at hnew
      obtain ⟨m, hm, hlt, hor⟩ := ih (by omega)
      exact ⟨m, hm, by omega, hor⟩

theorem newestIn_eq_succ {t : UniqueTable α} {b m n : Nat} (h : t.newestIn b n = m + 1) :
    m < n ∧ linked t.links m = true ∧ ∃ a, t.values[m]? = some a ∧
      bucketOf a t.buckets.size = b := by
  induction n with
  | zero => exact absurd h.symm (Nat.succ_ne_zero m)
  | succ n ih =>
    rw [newestIn_succ] at h
    split_ifs at h with hnew
    · obtain rfl : n = m := by omega
      simp only [Bool.and_eq_true, Option.any_eq_true, beq_iff_eq] at hnew
      exact ⟨Nat.lt_succ_self n, hnew.1, hnew.2⟩
    · obtain ⟨hlt, hrest⟩ := ih h
      exact ⟨hlt.trans (Nat.lt_succ_self n), hrest⟩

/-- Every bucket is the chain of its values from the newest to the oldest, and no value occurs
twice. -/
structure Coherent (t : UniqueTable α) : Prop where
  links_size : t.links.size = t.values.size
  buckets_pos : 0 < t.buckets.size
  bucket : ∀ b < t.buckets.size, t.buckets[b]? = some (t.newestIn b t.size)
  link : ∀ n a j, t.values[n]? = some a → t.links[n]? = some (some j) →
    j = t.newestIn (bucketOf a t.buckets.size) n
  distinct : ∀ m n a, linked t.links m = true → linked t.links n = true →
    t.values[m]? = some a → t.values[n]? = some a → m = n

theorem coherent_empty (bits : Fin 32) : (empty bits : UniqueTable α).Coherent where
  links_size := rfl
  buckets_pos := by simp [empty]
  bucket b hb := by
    have hb : b < 1 <<< bits.val := by simpa [empty] using hb
    simp [empty, size, newest, hb]
  link n a j ha := by simp [empty] at ha
  distinct m n a hm := by simp [empty, linked] at hm

/-- A value outside of the buckets is the newest of none. -/
theorem Coherent.addLoose {t : UniqueTable α} (ht : t.Coherent) (a : α) :
    (t.addLoose a).2.Coherent := by
  have hl : linked (t.addLoose a).2.links = linked t.links := funext (linked_push_none _)
  have hval : ∀ n, n ≠ t.size → (t.addLoose a).2.values[n]? = t.values[n]? := by
    intro n hn
    simp only [size] at hn
    simp [UniqueTable.addLoose, Array.getElem?_push, hn]
  have hnew : ∀ b, ∀ n ≤ t.size, (t.addLoose a).2.newestIn b n = t.newestIn b n :=
    fun b n hn => newest_push ht.links_size a none _ b hn
  have hne : ∀ n, linked t.links n = true → n ≠ t.size := by
    rintro n hn rfl
    exact Nat.lt_irrefl _ ((linked_lt_size hn).trans_eq ht.links_size)
  refine ⟨by simp [UniqueTable.addLoose, ht.links_size], ht.buckets_pos, fun b hb => ?_,
    fun n v j hv hj => ?_, ?_⟩
  · have hs : (t.addLoose a).2.size = t.size + 1 := by simp [UniqueTable.addLoose, size]
    have hout : linked t.links t.size = false := Bool.eq_false_iff.mpr fun h => hne _ h rfl
    rw [hs, newestIn_succ, hl, hout, hnew b _ (Nat.le_refl _)]
    exact ht.bucket b hb
  · have hlink : linked t.links n = true := hl ▸ linked_iff.mpr ⟨j, hj⟩
    rw [hval n (hne n hlink)] at hv
    have hn : n < t.links.size := linked_lt_size hlink
    have hns : n < t.size := hn.trans_eq ht.links_size
    rw [hnew _ n (Nat.le_of_lt hns)]
    refine ht.link n v j hv ?_
    simpa [UniqueTable.addLoose, Array.getElem?_push, Nat.ne_of_lt hn] using hj
  · rw [hl]
    intro m n v hm hn hvm hvn
    exact ht.distinct m n v hm hn (hval m (hne m hm) ▸ hvm) (hval n (hne n hn) ▸ hvn)

section Search

variable [DecidableEq α] {t : UniqueTable α} (ht : t.Coherent) (a : α)

include ht

/-- From a value other than `a`, the search goes on at the newest one before it. -/
theorem search_of_ne {m : Nat} {v : α} (hv : t.values[m]? = some v) (hm : linked t.links m = true)
    (hva : v ≠ a) (fuel : Nat) :
    t.search a (fuel + 1) (m + 1) = t.search a fuel (t.newestIn (bucketOf v t.buckets.size) m) := by
  obtain ⟨j, hj⟩ := linked_iff.mp hm
  rw [← ht.link m v j hv hj]
  rcases Nat.eq_zero_or_pos j with rfl | hj0
  · cases fuel <;> simp [search, value?, link?, hv, hj, hva]
  · simp [search, value?, link?, hv, hj, hva, Nat.ne_of_gt hj0]

/-- The search from the newest value of a bucket finds a value among the first `n` exactly if it is
there. -/
theorem search_newest {n : Nat} (hn : n ≤ t.size) :
    ∀ fuel, t.newestIn (bucketOf a t.buckets.size) n ≤ fuel →
      (∀ i, t.search a fuel (t.newestIn (bucketOf a t.buckets.size) n) = some i →
        ∃ m < n, i = m + 1 ∧ linked t.links m = true ∧ t.values[m]? = some a) ∧
      (t.search a fuel (t.newestIn (bucketOf a t.buckets.size) n) = none →
        ∀ k < n, linked t.links k = true → t.values[k]? ≠ some a) := by
  intro fuel
  induction fuel generalizing n with
  | zero =>
    intro h0
    have h0 := Nat.le_zero.mp h0
    rw [h0]
    refine ⟨fun i hi => by simp [search] at hi, fun _ k hk hl ha => ?_⟩
    obtain ⟨m, hm, -⟩ := newestIn_split hl ha hk
    omega
  | succ fuel ih =>
    intro hle
    rcases hi : t.newestIn (bucketOf a t.buckets.size) n with _ | m
    · refine ⟨fun i hs => by simp [search, value?, link?] at hs, fun _ k hk hl ha => ?_⟩
      obtain ⟨m, hm, -⟩ := newestIn_split hl ha hk
      omega
    · obtain ⟨hmn, hml, v, hv, hbv⟩ := newestIn_eq_succ hi
      by_cases hva : v = a
      · subst hva
        have hs : t.search v (fuel + 1) (m + 1) = some (m + 1) := by simp [search, value?, hv]
        rw [hs]
        exact ⟨fun i hi => ⟨m, hmn, (Option.some.inj hi).symm, hml, hv⟩, fun h => by simp at h⟩
      · have hle' : t.newestIn (bucketOf a t.buckets.size) m ≤ fuel :=
          (newest_le _ _ _ _ m).trans (by omega)
        obtain ⟨ihs, ihn⟩ := ih (n := m) (by omega) hle'
        rw [search_of_ne ht a hv hml hva, hbv]
        refine ⟨fun i hi => ?_, fun hnone k hk hl ha => ?_⟩
        · obtain ⟨k, hk, hrest⟩ := ihs i hi
          exact ⟨k, hk.trans hmn, hrest⟩
        · obtain ⟨m', hm', -, hor⟩ := newestIn_split hl ha hk
          obtain rfl : m = m' := by omega
          rcases hor with rfl | hlt
          · exact hva (Option.some.inj (hv.symm.trans ha))
          · exact ihn hnone k hlt hl ha

theorem find?_eq_some {i : Nat} (h : t.find? a = some i) :
    ∃ m < t.size, i = m + 1 ∧ linked t.links m = true ∧ t.values[m]? = some a := by
  have hb := ht.bucket _ (bucketOf_lt a ht.buckets_pos)
  simp only [find?, Array.getD_eq_getD_getElem?, hb, Option.getD_some] at h
  exact (search_newest ht a (Nat.le_refl _) _ (Nat.le_refl _)).1 i h

theorem find?_eq_none (h : t.find? a = none) :
    ∀ k, linked t.links k = true → t.values[k]? ≠ some a := by
  have hb := ht.bucket _ (bucketOf_lt a ht.buckets_pos)
  simp only [find?, Array.getD_eq_getD_getElem?, hb, Option.getD_some] at h
  intro k hk
  have hks := linked_lt_size hk
  rw [ht.links_size] at hks
  exact (search_newest ht a (Nat.le_refl _) _ (Nat.le_refl _)).2 h k hks hk

end Search

section Growth

/-- State of a rebuild after `k` values: their links and all buckets are right for the new number of
buckets. -/
structure Relinked (values : Array α) (links : Array (Option Nat)) (count k : Nat)
    (s : Array (Option Nat) × Array Nat) : Prop where
  links_size : s.1.size = links.size
  buckets_size : s.2.size = count
  linked_eq : ∀ n, linked s.1 n = linked links n
  link : ∀ n < k, ∀ a j, values[n]? = some a → s.1[n]? = some (some j) →
    j = newest values (linked links) count (bucketOf a count) n
  bucket : ∀ b < count, s.2[b]? = some (newest values (linked links) count b k)

variable {values : Array α} {links : Array (Option Nat)} {count k : Nat}
  {s : Array (Option Nat) × Array Nat}

theorem Relinked.start (values : Array α) (links : Array (Option Nat)) (count : Nat) :
    Relinked values links count 0 (links, Array.replicate count 0) where
  links_size := rfl
  buckets_size := Array.size_replicate
  linked_eq _ := rfl
  link n hn := absurd hn (Nat.not_lt_zero n)
  bucket b hb := by simp [newest, hb]

theorem Relinked.step (h : Relinked values links count k s) (hc : 0 < count)
    (hk : k < values.size) :
    Relinked values links count (k + 1) (relink values s (k + 1)) := by
  have hv : values[k]? = some values[k] := Array.getElem?_eq_getElem hk
  rcases hl : s.1[k]? with _ | _ | j
  -- A value outside of the buckets changes nothing, and neither does it count as newest.
  iterate 2
    have hlk : linked links k = false := by rw [← h.linked_eq]; simp [linked, hl]
    have hs : relink values s (k + 1) = s := by simp [relink, hv, hl]
    rw [hs]
    refine ⟨h.links_size, h.buckets_size, h.linked_eq, fun n hn a j ha hj => ?_, fun b hb => ?_⟩
    · rcases Nat.lt_succ_iff_lt_or_eq.mp hn with hn | rfl
      · exact h.link n hn a j ha hj
      · simp [hl] at hj
    · simpa [newest, hlk] using h.bucket b hb
  have hks : k < s.1.size := (Array.getElem?_eq_some_iff.mp hl).1
  have hlk : linked links k = true := by rw [← h.linked_eq]; simp [linked, hl]
  have hb := bucketOf_lt values[k] hc
  have hs : relink values s (k + 1) =
      (s.1.setIfInBounds k (some (newest values (linked links) count (bucketOf values[k] count) k)),
        s.2.setIfInBounds (bucketOf values[k] count) (k + 1)) := by
    simp [relink, hv, hl, h.buckets_size, h.bucket _ hb]
  rw [hs]
  refine ⟨by simp [h.links_size], by simp [h.buckets_size], fun n => ?_, fun n hn a j ha hj => ?_,
    fun b hb' => ?_⟩
  · by_cases hnk : k = n
    · subst hnk
      rw [hlk]
      simp [linked, hks]
    · simp only [linked, Array.getElem?_setIfInBounds_ne hnk]
      exact h.linked_eq n
  · by_cases hnk : k = n
    · subst hnk
      obtain rfl : values[k] = a := Option.some.inj (hv.symm.trans ha)
      simpa [hks, eq_comm] using hj
    · rw [Array.getElem?_setIfInBounds_ne hnk] at hj
      exact h.link n (by omega) a j ha hj
  · by_cases hbb : bucketOf values[k] count = b
    · subst hbb
      simp [newest, hlk, hv, h.buckets_size, hb]
    · rw [Array.getElem?_setIfInBounds_ne hbb, h.bucket b hb']
      simp [newest, hv, hbb]

theorem Relinked.run (hc : 0 < count) :
    ∀ k ≤ values.size,
      Relinked values links count k
        ((List.range' 1 k).foldl (relink values) (links, Array.replicate count 0)) := by
  intro k
  induction k with
  | zero => exact fun _ => Relinked.start values links count
  | succ k ih =>
    intro hk
    rw [List.range'_1_concat, List.foldl_append, Nat.add_comm 1 k]
    exact (ih (by omega)).step hc (by omega)

variable {t : UniqueTable α}

theorem Coherent.grow (ht : t.Coherent) :
    t.grow.Coherent ∧ ∀ n, linked t.grow.links n = linked t.links n := by
  have hr : Relinked t.values t.links (2 * t.buckets.size) t.size (t.grow.links, t.grow.buckets) :=
    Relinked.run (by have := ht.buckets_pos; omega) t.size (Nat.le_refl _)
  have hl : linked t.grow.links = linked t.links := funext hr.linked_eq
  have hc : t.grow.buckets.size = 2 * t.buckets.size := hr.buckets_size
  refine ⟨⟨hr.links_size.trans ht.links_size, ?_, fun b hb => ?_, fun n a j ha hj => ?_, ?_⟩,
    hr.linked_eq⟩
  · have := ht.buckets_pos
    omega
  · rw [newestIn, hl, hc]
    exact hr.bucket b (hc ▸ hb)
  · rw [newestIn, hl, hc]
    have hn : n < t.size := (Array.getElem?_eq_some_iff.mp ha).1
    exact hr.link n hn a j ha hj
  · rw [hl]
    exact ht.distinct

end Growth

section Put

variable {t : UniqueTable α}

/-- The table with `a` in front of its bucket, before it may grow. -/
def pushed (t : UniqueTable α) (a : α) : UniqueTable α :=
  { values := t.values.push a
    links := t.links.push (some (t.buckets.getD (bucketOf a t.buckets.size) 0))
    buckets := t.buckets.setIfInBounds (bucketOf a t.buckets.size) (t.size + 1) }

theorem newestIn_pushed (ht : t.Coherent) (a : α) (b : Nat) {n : Nat} (hn : n ≤ t.size) :
    (t.pushed a).newestIn b n = t.newestIn b n := by
  have hc : (t.pushed a).buckets.size = t.buckets.size := Array.size_setIfInBounds
  rw [newestIn, hc]
  exact newest_push ht.links_size a _ _ b hn

theorem linked_pushed (ht : t.Coherent) (a : α) {n : Nat} :
    linked (t.pushed a).links n = true ↔ linked t.links n = true ∨ n = t.size := by
  have hs : t.links.size = t.size := ht.links_size
  rcases Nat.lt_trichotomy n t.size with hlt | rfl | hgt
  · rw [pushed, linked_push_lt _ _ (hs ▸ hlt), or_iff_left (Nat.ne_of_lt hlt)]
  · rw [pushed, ← hs, linked_push_size]
    simp
  · constructor
    · intro h
      have := linked_lt_size h
      simp only [pushed, Array.size_push] at this
      omega
    · rintro (h | rfl)
      · have := linked_lt_size h
        omega
      · omega

theorem Coherent.pushed (ht : t.Coherent) (a : α)
    (hnew : ∀ k, linked t.links k = true → t.values[k]? ≠ some a) : (t.pushed a).Coherent := by
  have hb := bucketOf_lt a ht.buckets_pos
  have hc : (t.pushed a).buckets.size = t.buckets.size := Array.size_setIfInBounds
  have hlink : ∀ n, n ≠ t.size → linked (t.pushed a).links n = true → linked t.links n = true :=
    fun n hn hl => ((linked_pushed ht a).mp hl).resolve_right hn
  have hval : ∀ n, n ≠ t.size → (t.pushed a).values[n]? = t.values[n]? := by
    intro n hn
    simp only [size] at hn
    simp [UniqueTable.pushed, Array.getElem?_push, hn]
  have hlast : (t.pushed a).values[t.size]? = some a := by simp [UniqueTable.pushed, size]
  refine ⟨by simp [UniqueTable.pushed, ht.links_size], by omega, fun b hb' => ?_,
    fun n v j hv hj => ?_, ?_⟩
  · rw [hc] at hb'
    have hs : (t.pushed a).size = t.size + 1 := by simp [UniqueTable.pushed, size]
    rw [hs, newestIn_succ, newestIn_pushed ht a b (Nat.le_refl _),
      (linked_pushed ht a).mpr (.inr rfl), hlast, hc]
    by_cases hbb : bucketOf a t.buckets.size = b
    · subst hbb
      simp [UniqueTable.pushed, hb]
    · simp only [UniqueTable.pushed, Array.getElem?_setIfInBounds_ne hbb, ht.bucket b hb']
      simp [hbb]
  · rw [hc]
    by_cases hn : n = t.size
    · subst hn
      obtain rfl : a = v := Option.some.inj (hlast.symm.trans hv)
      rw [newestIn_pushed ht a _ (Nat.le_refl _)]
      simpa [UniqueTable.pushed, ← ht.links_size, size, Array.getD_eq_getD_getElem?, ht.bucket _ hb,
        eq_comm] using hj
    · rw [hval n hn] at hv
      have hns : n < t.size := (Array.getElem?_eq_some_iff.mp hv).1
      have hj' : t.links[n]? = some (some j) := by
        have hne : n ≠ t.links.size := by rw [ht.links_size]; exact hn
        simpa [UniqueTable.pushed, Array.getElem?_push, hne] using hj
      rw [newestIn_pushed ht a _ (Nat.le_of_lt hns)]
      exact ht.link n v j hv hj'
  · -- the new value stands nowhere else
    intro m n v hm hn hvm hvn
    by_cases hms : m = t.size <;> by_cases hns : n = t.size
    · exact hms.trans hns.symm
    · subst hms
      obtain rfl : a = v := Option.some.inj (hlast.symm.trans hvm)
      exact absurd ((hval n hns).symm.trans hvn) (hnew n (hlink n hns hn))
    · subst hns
      obtain rfl : a = v := Option.some.inj (hlast.symm.trans hvn)
      exact absurd ((hval m hms).symm.trans hvm) (hnew m (hlink m hms hm))
    · exact ht.distinct m n v (hlink m hms hm) (hlink n hns hn) ((hval m hms).symm.trans hvm)
        ((hval n hns).symm.trans hvn)

variable [DecidableEq α]

theorem size_put_le (t : UniqueTable α) (a : α) : (t.put a).2.size ≤ t.size + 1 := by
  unfold put
  split
  · exact Nat.le_succ _
  · dsimp only
    split_ifs <;> simp [size, grow]

/-- Either the value was there, and the table stays as it is, or it is appended. -/
theorem put_cases (ht : t.Coherent) (a : α) :
    (∃ m < t.size, t.put a = (m + 1, t) ∧ linked t.links m = true ∧ t.values[m]? = some a) ∨
    ((∀ k, linked t.links k = true → t.values[k]? ≠ some a) ∧ (t.put a).1 = t.size + 1 ∧
      (t.put a).2.Coherent ∧
      (t.put a).2.values = t.values.push a ∧
        ∀ n, linked (t.put a).2.links n = linked (t.pushed a).links n) := by
  rcases hf : t.find? a with _ | i
  · right
    have hnew := find?_eq_none ht a hf
    have hp := ht.pushed a hnew
    have he : t.put a = (t.size + 1, if (t.pushed a).size > 2 * (t.pushed a).buckets.size
        then (t.pushed a).grow else t.pushed a) := by
      simp only [put, hf]
      rfl
    rw [he]
    refine ⟨hnew, rfl, ?_⟩
    dsimp only
    split_ifs
    · exact ⟨hp.grow.1, rfl, hp.grow.2⟩
    · exact ⟨hp, rfl, fun _ => rfl⟩
  · left
    obtain ⟨m, hm, rfl, hl, hv⟩ := find?_eq_some ht a hf
    exact ⟨m, hm, by simp [put, hf], hl, hv⟩

end Put

end Qualify.UniqueTable
