import Mathlib

namespace List

variable {α : Type}

/-- A computation that may fail, for each element in turn. -/
theorem mapM_eq_ok {β ε : Type} {f : α → Except ε β} {xs : List α} {ys : List β} :
    xs.mapM f = .ok ys ↔ Forall₂ (fun x y => f x = .ok y) xs ys := by
  induction xs generalizing ys with
  | nil => cases ys <;> simp [pure, Except.pure]
  | cons x xs ih =>
    rw [mapM_cons]
    rcases hx : f x with e | y
    · simp only [bind, Except.bind]
      constructor
      · rintro ⟨⟩
      · rintro (_ | ⟨h, -⟩)
        rw [hx] at h
        cases h
    · rcases hxs : xs.mapM f with e | ys'
      · simp only [bind, Except.bind]
        constructor
        · rintro ⟨⟩
        · rintro (_ | ⟨-, h⟩)
          rw [← ih, hxs] at h
          cases h
      · simp only [bind, Except.bind, pure, Except.pure, Except.ok.injEq]
        constructor
        · rintro rfl
          exact .cons hx (ih.mp hxs)
        · rintro (_ | ⟨h, hs⟩)
          rw [hx] at h
          rw [← ih, hxs] at hs
          cases h
          cases hs
          rfl

/-- It fails nowhere if it fails at no element. -/
theorem exists_mapM_eq_ok {β ε : Type} {f : α → Except ε β} {xs : List α}
    (h : ∀ x ∈ xs, ∃ y, f x = .ok y) :
    ∃ ys, xs.mapM f = .ok ys := by
  induction xs with
  | nil => exact ⟨[], rfl⟩
  | cons x xs ih =>
    obtain ⟨⟨y, hy⟩, hxs⟩ := forall_mem_cons.mp h
    obtain ⟨ys, hys⟩ := ih hxs
    exact ⟨y :: ys, mapM_eq_ok.mpr (.cons hy (mapM_eq_ok.mp hys))⟩

theorem eraseRepsBy_loop_append (r : α → α → Bool) (a : α) (as acc : List α) :
    eraseRepsBy.loop r a as acc = acc.reverse ++ eraseRepsBy.loop r a as [] := by
  induction as generalizing a acc with
  | nil => simp [eraseRepsBy.loop]
  | cons b as ih =>
    unfold eraseRepsBy.loop
    split
    · exact ih a acc
    · rw [ih b (a :: acc), ih b [a]]
      simp

@[simp] theorem eraseReps_nil [BEq α] : ([] : List α).eraseReps = [] := rfl

@[simp] theorem eraseReps_singleton [BEq α] (a : α) : [a].eraseReps = [a] := rfl

theorem eraseReps_cons_cons [BEq α] (a b : α) (as : List α) :
    (a :: b :: as).eraseReps = if a == b then (a :: as).eraseReps
      else a :: (b :: as).eraseReps := by
  simp only [eraseReps, eraseRepsBy]
  rw [eraseRepsBy.loop]
  cases a == b with
  | true => rfl
  | false => exact eraseRepsBy_loop_append _ b as [a]

/-- The first value stays in front. -/
theorem eraseReps_cons [BEq α] (a : α) (as : List α) : ∃ bs, (a :: as).eraseReps = a :: bs := by
  induction as generalizing a with
  | nil => exact ⟨[], rfl⟩
  | cons b as ih =>
    rw [eraseReps_cons_cons]
    split_ifs
    · exact ih a
    · exact ⟨(b :: as).eraseReps, rfl⟩

variable [BEq α] [LawfulBEq α]

@[simp] theorem mem_eraseReps {x : α} {as : List α} : x ∈ as.eraseReps ↔ x ∈ as := by
  induction as using List.twoStepInduction with
  | nil => simp
  | singleton a => simp
  | cons_cons a b as _ ih =>
    rw [eraseReps_cons_cons]
    split_ifs with h
    · obtain rfl := eq_of_beq h
      rw [ih a]
      simp
    · rw [mem_cons, ih b, mem_cons (l := b :: as)]

theorem eraseReps_sublist (as : List α) : as.eraseReps.Sublist as := by
  induction as using List.twoStepInduction with
  | nil => simp
  | singleton a => simp
  | cons_cons a b as _ ih =>
    rw [eraseReps_cons_cons]
    split_ifs with h
    · obtain rfl := eq_of_beq h
      exact (ih a).trans (sublist_cons_self _ _)
    · exact (ih b).cons_cons a

/-- No two neighbours are left equal. -/
theorem isChain_eraseReps (as : List α) : as.eraseReps.IsChain (· ≠ ·) := by
  induction as using List.twoStepInduction with
  | nil => simp
  | singleton a => simp
  | cons_cons a b as _ ih =>
    rw [eraseReps_cons_cons]
    split_ifs with h
    · exact ih a
    · obtain ⟨bs, hbs⟩ := eraseReps_cons b as
      have hc := ih b
      rw [hbs] at hc ⊢
      exact isChain_cons_cons.mpr ⟨fun hab => h (by simp [hab]), hc⟩

/-- Of an ordered list, no two members are left equal. -/
theorem Pairwise.eraseReps {r : α → α → Prop} (htrans : ∀ {a b c}, r a b → r b c → r a c)
    (hanti : ∀ {a b}, r a b → r b a → a = b) {as : List α} (h : as.Pairwise r) :
    as.eraseReps.Pairwise fun a b => r a b ∧ a ≠ b := by
  have htrans' : Trans (fun a b => r a b ∧ a ≠ b) (fun a b => r a b ∧ a ≠ b) fun a b => r a b ∧
      a ≠ b := by
    refine ⟨fun {a b c} hab hbc => ⟨htrans hab.1 hbc.1, ?_⟩⟩
    rintro rfl
    exact hab.2 (hanti hab.1 hbc.1)
  rw [← isChain_iff_pairwise]
  have hr := isChain_iff_getElem.mp (h.sublist (eraseReps_sublist as)).isChain
  have hne := isChain_iff_getElem.mp (isChain_eraseReps as)
  exact isChain_iff_getElem.mpr fun i hi => ⟨hr i hi, hne i hi⟩

/-- A list in order and without repetition is determined by its members. -/
theorem eraseReps_mergeSort_congr {le : α → α → Bool}
    (htrans : ∀ a b c, le a b = true → le b c = true → le a c = true)
    (htotal : ∀ a b, (le a b || le b a) = true)
    (hanti : ∀ {a b}, le a b = true → le b a = true → a = b) {as bs : List α}
    (h : ∀ a, a ∈ as ↔ a ∈ bs) : (as.mergeSort le).eraseReps = (bs.mergeSort le).eraseReps := by
  have hstrict (cs : List α) :
      (cs.mergeSort le).eraseReps.Pairwise fun a b => le a b = true ∧ a ≠ b :=
    Pairwise.eraseReps (r := fun a b => le a b = true) (htrans _ _ _) hanti
      (pairwise_mergeSort htrans htotal cs)
  have hperm : (as.mergeSort le).eraseReps.Perm (bs.mergeSort le).eraseReps :=
    (perm_ext_iff_of_nodup ((hstrict as).imp And.right) ((hstrict bs).imp And.right)).mpr
        fun a => by
      rw [mem_eraseReps, mem_mergeSort, mem_eraseReps, mem_mergeSort, h]
  exact hperm.eq_of_pairwise (fun _ _ _ _ hab hba => hanti hab.1 hba.1) (hstrict as) (hstrict bs)

end List

namespace Array

variable {α : Type}

theorem getD_replicate_self (n i : Nat) (a : α) : (replicate n a).getD i a = a := by
  rw [getD_eq_getD_getElem?, getElem?_replicate]
  split_ifs <;> rfl

theorem getD_setIfInBounds (as : Array α) (i j : Nat) (a b : α) :
    (as.setIfInBounds i a).getD j b = if i = j ∧ j < as.size then a else as.getD j b := by
  simp only [getD_eq_getD_getElem?, getElem?_setIfInBounds]
  by_cases hij : i = j
  · by_cases hj : j < as.size <;> simp [hij, hj]
  · simp [hij]

theorem mem_modify {f : α → α} {as : Array α} {i : Nat} {b : α} :
    b ∈ as.modify i f ↔ ∃ j a, as[j]? = some a ∧ b = if i = j then f a else a := by
  rw [mem_iff_getElem?]
  refine exists_congr fun j => ?_
  rw [getElem?_modify]
  split_ifs <;> simp [eq_comm]

/-- Where no two elements have the same key, the search for a key finds its own element. -/
theorem findIdx?_key_eq_some {β : Type} [BEq β] [LawfulBEq β] {key : α → β} {as : Array α}
    (h : (as.toList.map key).Nodup) {b : β} {i : Nat} :
    as.findIdx? (fun a => key a == b) = some i ↔ ∃ a, as[i]? = some a ∧ key a = b := by
  constructor
  · intro hi
    obtain ⟨hlt, hkey, -⟩ := findIdx?_eq_some_iff_getElem.mp hi
    exact ⟨as[i], getElem?_eq_getElem hlt, eq_of_beq hkey⟩
  · rintro ⟨a, ha, rfl⟩
    have hsome : (as.findIdx? fun x => key x == key a).isSome = true := by
      rw [findIdx?_isSome, any_eq_true']
      exact ⟨a, mem_of_getElem? ha, beq_self_eq_true _⟩
    obtain ⟨j, hj⟩ := Option.isSome_iff_exists.mp hsome
    obtain ⟨hlt, hkey, -⟩ := findIdx?_eq_some_iff_getElem.mp hj
    have hkeys : (as.toList.map key)[i]? = (as.toList.map key)[j]? := by
      rw [List.getElem?_map, List.getElem?_map, getElem?_toList, getElem?_toList, ha,
        getElem?_eq_getElem hlt, Option.map_some, Option.map_some, eq_of_beq hkey]
    have hi : i < (as.toList.map key).length := by simpa using (getElem?_eq_some_iff.mp ha).1
    rw [hj, (List.getElem?_inj hi h).mp hkeys]

/-- A property that the change of an element keeps. -/
theorem forall_mem_modify {P : α → Prop} {f : α → α} {as : Array α} (hf : ∀ a, P a → P (f a))
    (h : ∀ a ∈ as, P a) (i : Nat) : ∀ a ∈ as.modify i f, P a := by
  intro a ha
  obtain ⟨j, b, hb, rfl⟩ := mem_modify.mp ha
  split_ifs
  · exact hf b (h b (mem_of_getElem? hb))
  · exact h b (mem_of_getElem? hb)

end Array

namespace List

variable {α β : Type}

/-- A table built by appending, where each entry comes from the ones before it. -/
theorem foldl_push_spec (f : Array β → α → β) (xs : List α) (init : Array β) :
    (xs.foldl (fun r x => r.push (f r x)) init).size = init.size + xs.length ∧
      (∀ k < init.size, (xs.foldl (fun r x => r.push (f r x)) init)[k]? = init[k]?) ∧
      ∀ k x, xs[k]? = some x → ∃ older : Array β, older.size = init.size + k ∧
        (∀ j < older.size, older[j]? = (xs.foldl (fun r x => r.push (f r x)) init)[j]?) ∧
        (xs.foldl (fun r x => r.push (f r x)) init)[init.size + k]? = some (f older x) := by
  induction xs generalizing init with
  | nil => simp
  | cons x xs ih =>
    obtain ⟨hsize, hold, hnew⟩ := ih (init.push (f init x))
    rw [Array.size_push] at hsize hold hnew
    have hinit : ∀ k < init.size,
        (xs.foldl (fun r x => r.push (f r x)) (init.push (f init x)))[k]? = init[k]? := by
      intro k hk
      rw [hold k (by omega), Array.getElem?_push_lt hk, Array.getElem?_eq_getElem hk]
    refine ⟨by rw [foldl_cons, hsize, length_cons]; omega, hinit, fun k y hk => ?_⟩
    cases k with
    | zero =>
      obtain rfl : x = y := by simpa using hk
      refine ⟨init, rfl, fun j hj => (hinit j hj).symm, ?_⟩
      rw [foldl_cons, Nat.add_zero, hold _ (Nat.lt_succ_self _), Array.getElem?_push_size]
    | succ k =>
      obtain ⟨older, holder, hprev, hk⟩ := hnew k y (by simpa using hk)
      rw [show init.size + (k + 1) = init.size + 1 + k by omega]
      exact ⟨older, holder, hprev, hk⟩

/-- Writes at places that decide the value written. -/
theorem foldl_setIfInBounds {ι : Type} (place : ι → Nat) (value : ι → β) (f : Nat → β) (xs : List ι)
    (hf : ∀ x ∈ xs, value x = f (place x)) (as : Array β) :
    (xs.foldl (fun as x => as.setIfInBounds (place x) (value x)) as).size = as.size ∧
      ∀ i b, (xs.foldl (fun as x => as.setIfInBounds (place x) (value x)) as).getD i b =
        if (∃ x ∈ xs, place x = i) ∧ i < as.size then f i else as.getD i b := by
  induction xs generalizing as with
  | nil => simp
  | cons x xs ih =>
    obtain ⟨hsize, hget⟩ := ih (fun y hy => hf y (mem_cons_of_mem _ hy))
      (as.setIfInBounds (place x) (value x))
    rw [Array.size_setIfInBounds] at hsize hget
    refine ⟨hsize, fun i b => ?_⟩
    rw [foldl_cons, hget i b, Array.getD_setIfInBounds]
    simp only [exists_mem_cons_iff]
    by_cases hi : i < as.size
    · by_cases hx : place x = i
      · rw [hf x mem_cons_self, hx]
        simp [hi]
      · simp [hx]
    · simp [hi]

/-- A change of one element, seen through a function that it commutes with. -/
theorem map_modify {f : α → α} {k : β → β} {g : α → β} (h : ∀ x, g (f x) = k (g x)) (xs : List α)
    (i : Nat) :
    (xs.modify i f).map g = (xs.map g).modify i k := by
  apply ext_getElem?
  intro j
  simp only [getElem?_map, getElem?_modify, Option.map_eq_map, Option.map_map]
  congr 1
  funext x
  by_cases hij : i = j <;> simp [hij, h]

theorem filterMap_getElem?_range' (xs : List α) (i n : Nat) :
    (List.range' i n).filterMap (xs[·]?) = (xs.drop i).take n := by
  induction n generalizing i with
  | zero => simp
  | succ n ih =>
    rw [List.range'_succ, List.filterMap_cons, ih]
    by_cases hi : i < xs.length
    · rw [List.getElem?_eq_getElem hi, List.drop_eq_getElem_cons hi, List.take_succ_cons]
    · rw [List.getElem?_eq_none (Nat.le_of_not_lt hi), List.drop_eq_nil_of_le (by omega),
        List.drop_eq_nil_of_le (Nat.le_of_not_lt hi), List.take_nil, List.take_nil]

theorem filter_eq_singleton {p : α → Bool} {xs : List α} (hxs : xs.Nodup) {x : α} (hx : x ∈ xs)
    (hp : p x = true) (huniq : ∀ y ∈ xs, p y = true → y = x) : xs.filter p = [x] := by
  have hall : ∀ y ∈ xs.filter p, y = x :=
    fun y hy => huniq y (mem_filter.mp hy).1 (mem_filter.mp hy).2
  have hrep := eq_replicate_iff.mpr ⟨rfl, hall⟩
  have hle : (xs.filter p).length ≤ 1 := by
    have hnodup := hxs.filter p
    rw [hrep] at hnodup
    exact nodup_replicate.mp hnodup
  have hpos : 0 < (xs.filter p).length := length_pos_of_mem (mem_filter.mpr ⟨hx, hp⟩)
  rw [hrep, show (xs.filter p).length = 1 by omega]
  rfl

/-- Of an ordered list, the members without repetitions are ordered and different. -/
theorem Pairwise.eraseDups [BEq α] [LawfulBEq α] {R : α → α → Prop} (xs : List α)
    (h : xs.Pairwise R) :
    xs.eraseDups.Pairwise fun a b => R a b ∧ a ≠ b := by
  match xs with
  | [] => exact .nil
  | x :: xs =>
    obtain ⟨hx, hxs⟩ := pairwise_cons.mp h
    rw [eraseDups_cons, pairwise_cons]
    refine ⟨fun y hy => ?_, Pairwise.eraseDups _ (hxs.filter _)⟩
    obtain ⟨hmem, hne⟩ := mem_filter.mp (mem_eraseDups.mp hy)
    exact ⟨hx y hmem, fun h => by simp [h] at hne⟩
termination_by xs.length
decreasing_by exact Nat.lt_succ_of_le (length_filter_le _ _)

section Lookup

variable [BEq α] [LawfulBEq α] [DecidableEq α]

theorem lookup_cons_eq_ite (k a : α) (b : β) (xs : List (α × β)) :
    ((k, b) :: xs).lookup a = if a = k then some b else xs.lookup a := by
  by_cases h : a = k
  · rw [if_pos h, lookup_cons, beq_iff_eq.mpr h]
  · rw [if_neg h, lookup_cons, beq_eq_false_iff_ne.mpr h]

theorem lookup_filter_ne {k a : α} (h : a ≠ k) (xs : List (α × β)) :
    (xs.filter (·.1 != k)).lookup a = xs.lookup a := by
  induction xs with
  | nil => rfl
  | cons x xs ih =>
    obtain ⟨k', b⟩ := x
    rw [filter_cons, lookup_cons_eq_ite]
    by_cases hk : k' = k
    · simp only [hk, bne_self_eq_false, Bool.false_eq_true, if_false, if_neg h, ih]
    · rw [if_pos (bne_iff_ne.mpr hk), lookup_cons_eq_ite, ih]

/-- Where every key occurs once, the search finds what stands there. -/
theorem mem_iff_lookup {xs : List (α × β)} (h : (xs.map (·.1)).Nodup) {a : α} {b : β} :
    (a, b) ∈ xs ↔ xs.lookup a = some b := by
  induction xs with
  | nil => simp
  | cons x xs ih =>
    obtain ⟨k, b'⟩ := x
    rw [map_cons, nodup_cons] at h
    rw [lookup_cons_eq_ite, mem_cons, ih h.2, Prod.mk.injEq]
    split_ifs with hk
    · subst hk
      have hlater : xs.lookup a ≠ some b := fun hlookup =>
        h.1 (mem_map.mpr ⟨(a, b), (ih h.2).mpr hlookup, rfl⟩)
      simp [hlater, eq_comm]
    · simp [hk]

end Lookup

/-- In a list that is made from another, a key has what is made for it first. -/
theorem lookup_filterMap_eq_some {γ : Type} [BEq α] [LawfulBEq α]
    {f : γ → Option (α × β)} {us : List γ} {k : α} {b : β} :
    (us.filterMap f).lookup k = some b ↔ ∃ before u after, us = before ++ u :: after ∧
      f u = some (k, b) ∧ ∀ v ∈ before, ∀ x ∈ f v, x.1 ≠ k := by
  rw [lookup_eq_some_iff]
  constructor
  · rintro ⟨_, _, hus, hne⟩
    obtain ⟨front, us', rfl, rfl, hus'⟩ := filterMap_eq_append_iff.mp hus
    obtain ⟨middle, u, after, rfl, hnone, hu, -⟩ := filterMap_eq_cons_iff.mp hus'
    refine ⟨front ++ middle, u, after, by rw [append_assoc], hu, fun v hv x hx => ?_⟩
    obtain hv | hv := mem_append.mp hv
    · have hxk := hne x (mem_filterMap.mpr ⟨v, hv, hx⟩)
      exact fun h => by simp [h] at hxk
    · rw [hnone v hv] at hx
      cases hx
  · rintro ⟨before, u, after, rfl, hu, hne⟩
    refine ⟨before.filterMap f, after.filterMap f, by simp [hu], fun x hx => ?_⟩
    obtain ⟨v, hv, hx⟩ := mem_filterMap.mp hx
    simpa using (hne v hv x hx).symm

/-- A computation with a state for each element in turn. The state only grows, and `Q` holds of each
result and stays true. -/
theorem mapM_run_spec {σ : Type} {f : α → StateM σ β} {Grows : σ → σ → Prop} {Q : σ → α → β → Prop}
    (hrefl : ∀ s, Grows s s) (htrans : ∀ {s t u}, Grows s t → Grows t u → Grows s u)
    (hmono : ∀ {s t a b}, Grows s t → Q s a b → Q t a b) (xs : List α)
    (hf : ∀ a ∈ xs, ∀ s, Grows s ((f a).run s).2 ∧ Q ((f a).run s).2 a ((f a).run s).1) (s : σ) :
    Grows s ((xs.mapM f).run s).2 ∧ Forall₂ (Q ((xs.mapM f).run s).2) xs ((xs.mapM f).run s).1 := by
  induction xs generalizing s with
  | nil => exact ⟨hrefl s, .nil⟩
  | cons x xs ih =>
    obtain ⟨hx, hxs⟩ := forall_mem_cons.mp hf
    obtain ⟨hgrows, hq⟩ := hx s
    obtain ⟨hgrows', hqs⟩ := ih hxs ((f x).run s).2
    simp only [mapM_cons]
    exact ⟨htrans hgrows hgrows', .cons (hmono hgrows' hq) hqs⟩

end List
