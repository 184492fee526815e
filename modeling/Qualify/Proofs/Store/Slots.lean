import Qualify.Proofs.Store.Growth

namespace Qualify

namespace SlotTable

variable {t t' : SlotTable} {x y : Slot} {l : Location} {init : SlotInit} {i : SlotId}

/-- Every location has one slot. -/
def Distinct (t : SlotTable) : Prop := (t.slots.toList.map Slot.location).Nodup

def Admits (t : SlotTable) (x : Slot) : Prop := ∀ y ∈ t.slots, y.location = x.location → y = x

theorem Distinct.admits (h : t.Distinct) (hx : x ∈ t.slots) : t.Admits x := fun _ hy hlocation =>
  List.inj_on_of_nodup_map h (Array.mem_toList_iff.mpr hy) (Array.mem_toList_iff.mpr hx) hlocation

theorem lookup_eq_some (h : t.lookup l = some i) : ∃ x, t.get? i = some x ∧ x.location = l := by
  obtain ⟨k, hk, rfl⟩ := Option.map_eq_some_iff.mp h
  obtain ⟨hlt, hlocation, -⟩ := Array.findIdx?_eq_some_iff_getElem.mp hk
  exact ⟨t.slots[k], Array.getElem?_eq_getElem hlt, by simpa using hlocation⟩

theorem exists_lookup (hx : x ∈ t.slots) : ∃ i, t.lookup x.location = some i := by
  have hsome : (t.slots.findIdx? (·.location == x.location)).isSome = true := by
    rw [Array.findIdx?_isSome, Array.any_eq_true']
    exact ⟨x, hx, beq_self_eq_true _⟩
  obtain ⟨k, hk⟩ := Option.isSome_iff_exists.mp hsome
  exact ⟨⟨k⟩, by rw [lookup, hk, Option.map_some]⟩

theorem mem_of_get? (h : t.get? i = some x) : x ∈ t.slots := Array.mem_of_getElem? h

theorem lt_size_of_get? (h : t.get? i = some x) : i.index < t.size :=
  (Array.getElem?_eq_some_iff.mp h).1

theorem exists_get? (h : i.index < t.size) : ∃ x, t.get? i = some x :=
  ⟨_, Array.getElem?_eq_getElem h⟩

/-- A location is looked up where its slot is. -/
theorem Distinct.lookup_iff (h : t.Distinct) :
    t.lookup l = some i ↔ ∃ x, t.get? i = some x ∧ x.location = l := by
  obtain ⟨k⟩ := i
  rw [lookup, Option.map_eq_some_iff]
  simp only [SlotId.mk.injEq, exists_eq_right, Array.findIdx?_key_eq_some h]
  rfl

theorem Grows.get? (h : t.Grows t') (hx : t.get? i = some x) : t'.get? i = some x := by
  obtain ⟨added, hadded⟩ := h
  rw [SlotTable.get?, hadded, Array.getElem?_append_left (lt_size_of_get? hx)]
  exact hx

theorem Grows.lookup (h : t.Grows t') (hl : t.lookup l = some i) : t'.lookup l = some i := by
  obtain ⟨added, hadded⟩ := h
  obtain ⟨k, hk, rfl⟩ := Option.map_eq_some_iff.mp hl
  rw [SlotTable.lookup, hadded, Array.findIdx?_append, hk]
  rfl

/-- A request either finds its slot or adds it. -/
theorem intern_cases (h : t.intern l init = .ok (i, t')) :
    (t' = t ∧ ⟨l, init⟩ ∈ t.slots ∧ t.lookup l = some i) ∨
      (t'.slots = t.slots.push ⟨l, init⟩ ∧ (∀ y ∈ t.slots, y.location ≠ l) ∧ i = ⟨t.size⟩) := by
  cases hfind : t.slots.find? (·.location == l) with
  | none =>
    simp only [intern, check, hfind, Except.ok.injEq, Prod.mk.injEq] at h
    obtain ⟨rfl, rfl⟩ := h
    exact .inr ⟨rfl, by simpa using hfind, rfl⟩
  | some s =>
    have hmem := Array.mem_of_find?_eq_some hfind
    obtain rfl : s.location = l := by simpa using Array.find?_some hfind
    obtain ⟨j, hj⟩ := exists_lookup hmem
    by_cases hinit : s.init = init
    · simp only [intern, check, hfind, hinit, if_true, hj, Except.ok.injEq, Prod.mk.injEq] at h
      obtain ⟨rfl, rfl⟩ := h
      exact .inl ⟨rfl, hinit ▸ hmem, hj⟩
    · simp only [intern, check, hfind, hinit, if_false] at h
      cases h

theorem exists_intern (h : t.Admits ⟨l, init⟩) : ∃ i t', t.intern l init = .ok (i, t') := by
  cases hfind : t.slots.find? (·.location == l) with
  | none => exact ⟨_, _, by simp only [intern, check, hfind]; rfl⟩
  | some s =>
    have hmem := Array.mem_of_find?_eq_some hfind
    obtain rfl : s = ⟨l, init⟩ := h s hmem (by simpa using Array.find?_some hfind)
    obtain ⟨j, hj⟩ := exists_lookup hmem
    exact ⟨j, t, by simp only [intern, check, hfind, if_true, hj]⟩

theorem Admits.conflict?_eq_none (h : t.Admits x) : t.conflict? x = none := by
  obtain ⟨i, t', hintern⟩ := exists_intern h
  unfold conflict?
  split
  case h_1 e he =>
    rw [intern, he] at hintern
    cases hintern
  case h_2 => rfl

theorem mem_intern (h : t.intern l init = .ok (i, t')) :
    x ∈ t'.slots ↔ x ∈ t.slots ∨ x = ⟨l, init⟩ := by
  obtain ⟨rfl, hmem, -⟩ | ⟨hslots, -, -⟩ := intern_cases h
  · exact ⟨.inl, by rintro (hx | rfl) <;> assumption⟩
  · rw [hslots, Array.mem_push]

theorem Distinct.intern (ht : t.Distinct) (h : t.intern l init = .ok (i, t')) : t'.Distinct := by
  obtain ⟨rfl, -, -⟩ | ⟨hslots, hnew, -⟩ := intern_cases h
  · exact ht
  · rw [Distinct, hslots, Array.toList_push, List.map_append, List.nodup_append']
    refine ⟨ht, List.nodup_singleton _, fun l' hl' hl => ?_⟩
    obtain ⟨y, hy, rfl⟩ := List.mem_map.mp hl'
    exact hnew y (Array.mem_toList_iff.mp hy) (List.mem_singleton.mp hl)

theorem lookup_intern (h : t.intern l init = .ok (i, t')) : t'.lookup l = some i := by
  obtain ⟨rfl, -, hlookup⟩ | ⟨hslots, hnew, rfl⟩ := intern_cases h
  · exact hlookup
  · have hnone : t.slots.findIdx? (·.location == l) = none := by simpa using hnew
    rw [lookup, hslots, Array.findIdx?_push, hnone]
    simp [size]

theorem distinct_empty : Distinct {} := List.nodup_nil

def rename (t t' : SlotTable) (i : SlotId) : SlotId :=
  ((t.get? i).bind fun x => t'.lookup x.location).getD i

theorem rename_eq (hx : t.get? i = some x) {j : SlotId} (hj : t'.lookup x.location = some j) :
    t.rename t' i = j := by
  rw [rename, hx, Option.bind_some, hj, Option.getD_some]

end SlotTable

theorem ConstraintStore.internAll_distinct {xs : List Slot} {t t' : SlotTable}
    {r : Except SlotConflict (List SlotId)} (h : internAll t xs = (r, t')) (ht : t.Distinct) :
    t'.Distinct := by
  induction xs generalizing t r with
  | nil =>
    cases h
    exact ht
  | cons x xs ih =>
    unfold internAll at h
    split at h
    case h_1 =>
      cases h
      exact ht
    case h_2 hx =>
      obtain ⟨-, rfl⟩ := Prod.mk.inj h
      exact ih rfl (ht.intern hx)

open SlotTable in
theorem ConstraintStore.internAll_slots {xs : List Slot} :
    ∀ {t : SlotTable}, (∀ x ∈ xs, t.Admits x) →
    (∀ x ∈ xs, ∀ y ∈ xs, y.location = x.location → y = x) →
    ∃ names t', internAll t xs = (.ok names, t') ∧ (t.Distinct → t'.Distinct) ∧
      (∀ x, x ∈ t'.slots ↔ x ∈ t.slots ∨ x ∈ xs) ∧
      ∀ (k : Nat) (x : Slot), xs[k]? = some x → ∃ i, names[k]? = some i ∧
        t'.lookup x.location = some i := by
  induction xs with
  | nil => exact fun {t} _ _ => ⟨[], t, rfl, id, by simp, by simp⟩
  | cons x xs ih =>
    intro t hadmits hself
    obtain ⟨hx, hxs⟩ := List.forall_mem_cons.mp hadmits
    obtain ⟨i, t₁, hintern⟩ := exists_intern hx
    have hadmits₁ : ∀ y ∈ xs, t₁.Admits y := by
      intro y hy z hz hlocation
      obtain hz | rfl := (mem_intern hintern).mp hz
      · exact hxs y hy z hz hlocation
      · exact hself y (List.mem_cons_of_mem x hy) x List.mem_cons_self hlocation
    obtain ⟨names, t', hall, hdistinct, hmem, hnames⟩ :=
      ih hadmits₁ fun y hy z hz => hself y (List.mem_cons_of_mem x hy) z (List.mem_cons_of_mem x hz)
    refine ⟨i :: names, t', ?_, fun ht => hdistinct (ht.intern hintern), fun y => ?_,
      fun k y hk => ?_⟩
    · simp only [internAll, hintern, hall, Except.map]
    · rw [hmem, mem_intern hintern, List.mem_cons, or_assoc]
    · cases k with
      | zero =>
        obtain rfl : x = y := by simpa using hk
        exact ⟨i, rfl, (internAll_grows hall).lookup (lookup_intern hintern)⟩
      | succ k => exact hnames k y hk

end Qualify
