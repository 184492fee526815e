import Qualify.Store.Basic
import Qualify.Proofs.Constraint

namespace Qualify

namespace SlotTable

/-- The second table is the first one with slots appended. -/
def Grows (t t' : SlotTable) : Prop := ∃ added, t'.slots = t.slots ++ added

namespace Grows

variable {t t' t'' : SlotTable}

theorem refl (t : SlotTable) : t.Grows t := ⟨#[], by simp⟩

theorem trans : t.Grows t' → t'.Grows t'' → t.Grows t'' := by
  rintro ⟨xs, hxs⟩ ⟨ys, hys⟩
  exact ⟨xs ++ ys, by rw [hys, hxs, Array.append_assoc]⟩

theorem size_le (h : t.Grows t') : t.size ≤ t'.size := by
  obtain ⟨xs, hxs⟩ := h
  simp [size, hxs]

theorem constantOf_eq (h : t.Grows t') {i : SlotId} (hi : i.index < t.size) :
    t'.constantOf i = t.constantOf i := by
  obtain ⟨xs, hxs⟩ := h
  rw [constantOf, constantOf, get?, get?, hxs, Array.getElem?_append_left hi]

end Grows

theorem intern_spec {t t' : SlotTable} {l : Location} {init : SlotInit} {i : SlotId}
    (h : t.intern l init = .ok (i, t')) : t.Grows t' ∧ i.index < t'.size := by
  unfold intern at h
  split at h
  case h_1 => cases h
  case h_2 s hs =>
    cases h
    refine ⟨.refl t, ?_⟩
    unfold check at hs
    split at hs
    · cases hs
    · split at hs
      · obtain ⟨k, hk, rfl⟩ := Option.map_eq_some_iff.mp (Except.ok.inj hs)
        exact (Array.findIdx?_eq_some_iff_getElem.mp hk).1
      · cases hs
  case h_3 =>
    cases h
    exact ⟨⟨#[⟨l, init⟩], by simp⟩, by simp [size]⟩

end SlotTable

namespace ConstraintStore

def standing (s : ConstraintStore) : List (Constraint SlotId × Status) :=
  s.entries.toList.map fun e => (e.constraint, e.status)

def constraints (s : ConstraintStore) : List (Constraint SlotId) := s.standing.map (·.1)

theorem mem_constraints_iff {s : ConstraintStore} {c : Constraint SlotId} :
    c ∈ s.constraints ↔ ∃ e ∈ s.entries, e.constraint = c := by
  simp [constraints, standing]

def Sourced (s : ConstraintStore) : Prop := ∀ e ∈ s.entries, e.provenance ≠ []

def Knows (t : SlotTable) (c : Constraint SlotId) : Prop := ∀ i ∈ c.slots, i.index < t.size

/-- The constraints are about slots of the store. -/
def Closed (s : ConstraintStore) : Prop := ∀ c ∈ s.constraints, Knows s.slots c

theorem unknownSlot?_eq_none {c : Constraint SlotId} {t : SlotTable} :
    unknownSlot? c t = none ↔ Knows t c := by
  simp [unknownSlot?, Knows]

theorem mem_active {s : ConstraintStore} {id : ConstraintId} {c : Constraint SlotId} :
    (id, c) ∈ s.active ↔ s.standing[id.index]? = some (c, .active) := by
  simp only [active, numbered, standing, List.mem_map, List.mem_filter, List.getElem?_map,
    Option.map_eq_some_iff, Prod.exists, Prod.mk.injEq, beq_iff_eq, List.mem_zipIdx_iff_getElem?]
  constructor
  · rintro ⟨i, e, ⟨⟨e', k, hk, rfl, rfl⟩, he⟩, rfl, rfl⟩
    exact ⟨e', hk, rfl, he⟩
  · rintro ⟨e, he, rfl, hs⟩
    exact ⟨id, e, ⟨⟨e, id.index, he, rfl, rfl⟩, hs⟩, rfl, rfl⟩

theorem pairwise_active (s : ConstraintStore) :
    s.active.Pairwise fun x y => x.1.index < y.1.index := by
  have hnumbers : s.entries.toList.zipIdx.Pairwise fun x y => x.2 < y.2 := by
    rw [← List.pairwise_map (f := Prod.snd), List.zipIdx_map_snd]
    exact List.pairwise_lt_range' ..
  have hnumbered : s.numbered.Pairwise fun x y => x.1.index < y.1.index :=
    List.pairwise_map.mpr hnumbers
  exact List.pairwise_map.mpr (hnumbered.filter _)

/-- The slots stay. New constraints have the property, are active and come after those that
stand. -/
structure Grows (P : Constraint SlotId → Prop) (s s' : ConstraintStore) : Prop where
  slots : s.slots.Grows s'.slots
  standing : ∃ added, s'.standing = s.standing ++ added ∧ ∀ x ∈ added, x.2 = .active ∧ P x.1
  sourced : s.Sourced → s'.Sourced

namespace Grows

variable {P : Constraint SlotId → Prop} {s s' s'' : ConstraintStore}

theorem refl (s : ConstraintStore) : Grows P s s := ⟨.refl _, ⟨[], by simp⟩, id⟩

theorem trans (h : Grows P s s') (h' : Grows P s' s'') : Grows P s s'' := by
  obtain ⟨xs, hxs, hnew⟩ := h.standing
  obtain ⟨ys, hys, hnew'⟩ := h'.standing
  have hboth : s''.standing = s.standing ++ (xs ++ ys) := by rw [hys, hxs, List.append_assoc]
  refine ⟨h.slots.trans h'.slots, ⟨xs ++ ys, hboth, fun x hx => ?_⟩, h'.sourced ∘ h.sourced⟩
  rcases List.mem_append.mp hx with hx | hx
  · exact hnew x hx
  · exact hnew' x hx

theorem mono {Q : Constraint SlotId → Prop} (h : Grows P s s') (hPQ : ∀ c, P c → Q c) :
    Grows Q s s' := by
  obtain ⟨xs, hxs, hnew⟩ := h.standing
  exact ⟨h.slots, ⟨xs, hxs, fun x hx => ⟨(hnew x hx).1, hPQ _ (hnew x hx).2⟩⟩, h.sourced⟩

theorem constraints (h : Grows P s s') :
    ∃ added, s'.constraints = s.constraints ++ added ∧ ∀ c ∈ added, P c := by
  obtain ⟨xs, hxs, hnew⟩ := h.standing
  refine ⟨xs.map (·.1), by rw [ConstraintStore.constraints, hxs, List.map_append]; rfl,
    fun c hc => ?_⟩
  obtain ⟨x, hx, rfl⟩ := List.mem_map.mp hc
  exact (hnew x hx).2

theorem constraints_subset (h : Grows P s s') : s.constraints ⊆ s'.constraints := by
  obtain ⟨added, hadded, -⟩ := h.constraints
  rw [hadded]
  exact List.subset_append_left _ _

theorem forall_mem (h : Grows P s s') {Q : Constraint SlotId × Status → Prop}
    (hs : ∀ x ∈ s.standing, Q x) (hP : ∀ c, P c → Q (c, .active)) : ∀ x ∈ s'.standing, Q x := by
  obtain ⟨xs, hxs, hnew⟩ := h.standing
  intro x hx
  rw [hxs, List.mem_append] at hx
  rcases hx with hx | hx
  · exact hs x hx
  · obtain ⟨c, status⟩ := x
    obtain ⟨rfl, hc⟩ := hnew _ hx
    exact hP c hc

theorem closed (h : Grows (Knows s'.slots) s s') (hs : s.Closed) : s'.Closed := by
  obtain ⟨added, hadded, hnew⟩ := h.constraints
  intro c hc
  rw [hadded, List.mem_append] at hc
  rcases hc with hc | hc
  · exact fun i hi => (hs c hc i hi).trans_le h.slots.size_le
  · exact hnew c hc

end Grows

theorem standing_insert (s : ConstraintStore) (c : Constraint SlotId) (p : Provenance) :
    (s.insert c p).2.standing =
      if c ∈ s.constraints then s.standing else s.standing ++ [(c, .active)] := by
  unfold insert
  split
  case h_1 i hi =>
    obtain ⟨k, hk, rfl⟩ := Option.map_eq_some_iff.mp hi
    obtain ⟨hlt, hc, -⟩ := Array.findIdx?_eq_some_iff_getElem.mp hk
    rw [if_pos (mem_constraints_iff.mpr ⟨_, Array.getElem_mem hlt, by simpa using hc⟩), standing,
      Array.toList_modify, List.map_modify (k := id)
        (fun e => by unfold addProvenance; split <;> rfl), List.modify_id]
    rfl
  case h_2 hnone =>
    have hnew : ¬∃ e ∈ s.entries, e.constraint = c := by
      simpa [find?, Array.findIdx?_eq_none_iff] using hnone
    rw [if_neg (mem_constraints_iff.not.mpr hnew)]
    simp [standing]

@[simp] theorem slots_insert (s : ConstraintStore) (c : Constraint SlotId) (p : Provenance) :
    (s.insert c p).2.slots = s.slots := by
  unfold insert
  split <;> rfl

theorem sourced_insert {s : ConstraintStore} (hs : s.Sourced) (c : Constraint SlotId)
    (p : Provenance) :
    (s.insert c p).2.Sourced := by
  unfold insert
  split
  · refine Array.forall_mem_modify (fun e he => ?_) hs _
    unfold addProvenance
    split
    · exact he
    · simp
  · intro e he
    rcases Array.mem_push.mp he with he | rfl
    · exact hs e he
    · simp

theorem mem_constraints_insert_iff {s : ConstraintStore} {c c' : Constraint SlotId}
    {p : Provenance} :
    c' ∈ (s.insert c p).2.constraints ↔ c' ∈ s.constraints ∨ c' = c := by
  rw [constraints, standing_insert]
  split
  case isTrue h => exact ⟨.inl, by rintro (hc' | rfl) <;> assumption⟩
  case isFalse => simp [constraints]

theorem mem_constraints_insert (s : ConstraintStore) (c : Constraint SlotId) (p : Provenance) :
    c ∈ (s.insert c p).2.constraints :=
  mem_constraints_insert_iff.mpr (.inr rfl)

theorem insert_grows {P : Constraint SlotId → Prop} {c : Constraint SlotId} (hc : P c)
    (s : ConstraintStore) (p : Provenance) : Grows P s (s.insert c p).2 := by
  refine ⟨by rw [slots_insert]; exact .refl _, ?_, fun hs => sourced_insert hs c p⟩
  rw [standing_insert]
  split
  · exact ⟨[], by simp⟩
  · exact ⟨[(c, .active)], rfl, by simpa using hc⟩

theorem internSlot_grows {s s' : ConstraintStore} {l : Location} {init : SlotInit} {i : SlotId}
    (h : s.internSlot l init = .ok (i, s')) : Grows (Knows s'.slots) s s' := by
  unfold internSlot at h
  split at h
  · cases h
    exact ⟨(SlotTable.intern_spec ‹_›).1, ⟨[], by simp [standing]⟩, id⟩
  · cases h

theorem knows_canonical {t : SlotTable} {c : Constraint SlotId} (hc : Knows t c) :
    Knows t c.canonical :=
  fun i hi => hc i ((Constraint.mem_slots_canonical i c).mp hi)

theorem add_grows {s s' : ConstraintStore} {c : Constraint SlotId} {p : Provenance}
    {id : ConstraintId} (h : s.add c p = .ok (id, s')) : Grows (Knows s'.slots) s s' := by
  unfold add at h
  split at h
  · cases h
  next hc =>
  have hs : (s.insert c.canonical p).2 = s' := by rw [Except.ok.inj h]
  have hknown : Knows s'.slots c.canonical := by
    rw [← hs, slots_insert]
    exact knows_canonical (unknownSlot?_eq_none.mp hc)
  exact hs ▸ insert_grows (hs ▸ hknown) s p

/-- The first slot is there, and then the others. -/
theorem internAll_cons {x : Slot} {xs : List Slot} {t t' : SlotTable} {names : List SlotId}
    (h : internAll t (x :: xs) = (.ok names, t')) : ∃ i t₁ is,
      t.intern x.location x.init = .ok (i, t₁) ∧ internAll t₁ xs = (.ok is, t') ∧
        names = i :: is := by
  unfold internAll at h
  rcases hx : t.intern x.location x.init with e | ⟨i, t₁⟩
  · simp [hx] at h
  · rcases hxs : internAll t₁ xs with ⟨e | is, t₂⟩
    · simp [hx, hxs, Except.map] at h
    · obtain ⟨rfl, rfl⟩ : i :: is = names ∧ t₂ = t' := by simpa [hx, hxs, Except.map] using h
      exact ⟨i, t₁, is, rfl, hxs, rfl⟩

/-- The table grows, also where a slot is refused in the end. -/
theorem internAll_grows {xs : List Slot} {t t' : SlotTable} {r : Except SlotConflict (List SlotId)}
    (h : internAll t xs = (r, t')) : t.Grows t' := by
  induction xs generalizing t r with
  | nil =>
    cases h
    exact .refl _
  | cons x xs ih =>
    unfold internAll at h
    split at h
    case h_1 =>
      cases h
      exact .refl _
    case h_2 i t₁ hx =>
      obtain ⟨-, rfl⟩ := Prod.mk.inj h
      exact (SlotTable.intern_spec hx).1.trans (ih rfl)

theorem internAll_spec {xs : List Slot} : ∀ {t t' : SlotTable} {names : List SlotId},
    internAll t xs = (.ok names, t') → names.length = xs.length ∧
      ∀ i ∈ names, i.index < t'.size := by
  induction xs with
  | nil =>
    rintro t t' names h
    cases h
    exact ⟨rfl, by simp⟩
  | cons x xs ih =>
    intro t t' names h
    obtain ⟨i, t₁, is, hx, hxs, rfl⟩ := internAll_cons h
    obtain ⟨hlength, his⟩ := ih hxs
    have hi := (SlotTable.intern_spec hx).2.trans_le (internAll_grows hxs).size_le
    exact ⟨by simp [hlength], List.forall_mem_cons.mpr ⟨hi, his⟩⟩

/-- A constraint under names that the table has. -/
theorem knows_map {t u : SlotTable} {names : List SlotId} (hlength : names.length = u.size)
    (hnames : ∀ i ∈ names, i.index < t.size) {c : Constraint SlotId} (hc : Knows u c) :
    Knows t (c.map fun i => names.getD i.index i) := by
  intro j hj
  rw [Constraint.slots_map] at hj
  obtain ⟨i, hi, rfl⟩ := List.mem_map.mp hj
  have hlt : i.index < names.length := hlength ▸ hc i hi
  rw [List.getD_eq_getElem?_getD, List.getElem?_eq_getElem hlt]
  exact hnames _ (List.getElem_mem hlt)

@[simp] theorem slots_foldl_insert {α : Type} (make : α → Constraint SlotId)
    (source : α → Provenance) (xs : List α) (s : ConstraintStore) :
    (xs.foldl (fun s x => (s.insert (make x) (source x)).2) s).slots = s.slots := by
  induction xs generalizing s with
  | nil => rfl
  | cons x xs ih => rw [List.foldl_cons, ih, slots_insert]

theorem foldl_insert_grows {α : Type} {P : Constraint SlotId → Prop} (make : α → Constraint SlotId)
    (source : α → Provenance) (xs : List α) (hxs : ∀ x ∈ xs, P (make x)) (s : ConstraintStore) :
    Grows P s (xs.foldl (fun s x => (s.insert (make x) (source x)).2) s) := by
  induction xs generalizing s with
  | nil => exact .refl _
  | cons x xs ih =>
    obtain ⟨hx, hxs⟩ := List.forall_mem_cons.mp hxs
    exact (insert_grows hx s (source x)).trans (ih hxs _)

theorem absorb_eq_ok_iff {s s' : ConstraintStore} {u : UnitConstraints} {names : List SlotId} :
    s.absorb u = .ok (names, s') ↔ s.takeOver u = (.ok names, s') := by
  rcases h : s.takeOver u with ⟨e | names', s''⟩ <;> simp [absorb, h]

/-- An error is found before anything is done, or the slots of the unit are requested, and if none
is refused, its constraints are stored under the new numbers. -/
theorem takeOver_cases (s : ConstraintStore) (u : UnitConstraints) :
    (∃ e, s.takeOver u = (.error e, s)) ∨
      (∀ x ∈ u.slots.slots, s.slots.conflict? x = none) ∧ (∀ x ∈ u.constraints, Knows u.slots x.1) ∧
        ((∃ e slots, internAll s.slots u.slots.slots.toList = (.error e, slots) ∧
            s.takeOver u = (.error (.slotConflict e), { s with slots })) ∨
          ∃ names slots, internAll s.slots u.slots.slots.toList = (.ok names, slots) ∧
            s.takeOver u = (.ok names, u.constraints.foldl
              (fun s x => (s.insert (x.1.map fun i => names.getD i.index i).canonical x.2).2)
                { s with slots })) := by
  unfold takeOver
  split
  case h_1 => exact .inl ⟨_, rfl⟩
  case h_2 hconflict =>
    split
    case h_1 => exact .inl ⟨_, rfl⟩
    case h_2 hunknown =>
      refine .inr ⟨fun x hx => ?_, fun x hx => ?_, ?_⟩
      · have hnone := Option.eq_none_iff_forall_ne_some.mpr hconflict
        exact List.findSome?_eq_none_iff.mp hnone x (Array.mem_toList_iff.mpr hx)
      · have hnone := Option.eq_none_iff_forall_ne_some.mpr fun (y : SlotId × Constraint SlotId) =>
          hunknown y.1 y.2
        exact unknownSlot?_eq_none.mp
          (Option.map_eq_none_iff.mp (List.findSome?_eq_none_iff.mp hnone x hx))
      · rcases internAll s.slots u.slots.slots.toList with ⟨e | names, slots⟩
        · exact .inl ⟨e, slots, rfl, rfl⟩
        · exact .inr ⟨names, slots, rfl, rfl⟩

/-- All slots of the unit are there, and then its constraints under the new numbers. -/
theorem absorb_cases {s s' : ConstraintStore} {u : UnitConstraints} {names : List SlotId}
    (h : s.absorb u = .ok (names, s')) :
    ∃ slots, internAll s.slots u.slots.slots.toList = (.ok names, slots) ∧
      (∀ x ∈ u.constraints, Knows u.slots x.1) ∧
      s' = u.constraints.foldl
        (fun s x => (s.insert (x.1.map fun i => names.getD i.index i).canonical x.2).2)
        { s with slots } := by
  rw [absorb_eq_ok_iff] at h
  obtain ⟨e, he⟩ | ⟨-, hknown, ⟨e, slots, -, he⟩ | ⟨names', slots, hall, hok⟩⟩ := s.takeOver_cases u
  · cases h.symm.trans he
  · cases h.symm.trans he
  · obtain ⟨hnames, rfl⟩ := Prod.mk.inj (h.symm.trans hok)
    obtain rfl := Except.ok.inj hnames
    exact ⟨slots, hall, hknown, rfl⟩

theorem absorb_grows {s s' : ConstraintStore} {u : UnitConstraints} {names : List SlotId}
    (h : s.absorb u = .ok (names, s')) : Grows (Knows s'.slots) s s' := by
  obtain ⟨slots, hall, hknown, rfl⟩ := absorb_cases h
  obtain ⟨hlength, hnames⟩ := internAll_spec hall
  have hslots : ∀ P, Grows P s { s with slots } :=
    fun _ => ⟨internAll_grows hall, ⟨[], by simp [standing]⟩, id⟩
  refine (hslots _).trans (foldl_insert_grows _ _ _ (fun x hx => ?_) _)
  rw [slots_foldl_insert]
  exact knows_canonical (knows_map hlength hnames (hknown x hx))

end ConstraintStore

end Qualify
