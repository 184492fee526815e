import Qualify.Proofs.Constraint.Order
import Qualify.Proofs.Store.Slots

namespace Qualify

namespace ConstraintStore

variable {s s' : ConstraintStore} {c c' : Constraint SlotId} {p p' : Provenance}

def Cites (s : ConstraintStore) (c : Constraint SlotId) (p : Provenance) : Prop :=
  ∃ e ∈ s.entries, e.constraint = c ∧ p ∈ e.provenance

theorem Cites.mem (h : s.Cites c p) : c ∈ s.constraints := by
  obtain ⟨e, he, hc, -⟩ := h
  exact mem_constraints_iff.mpr ⟨e, he, hc⟩

theorem Sourced.exists_cites (h : s.Sourced) (hc : c ∈ s.constraints) : ∃ p, s.Cites c p := by
  obtain ⟨e, he, rfl⟩ := mem_constraints_iff.mp hc
  obtain ⟨p, hp⟩ := List.exists_mem_of_ne_nil _ (h e he)
  exact ⟨p, e, he, rfl, hp⟩

theorem mem_addProvenance (e : Entry) :
    p' ∈ (addProvenance p e).provenance ↔ p' ∈ e.provenance ∨ p' = p := by
  unfold addProvenance
  split
  case isTrue h =>
    have hp : p ∈ e.provenance := by simpa using h
    exact ⟨.inl, by rintro (h | rfl) <;> assumption⟩
  case isFalse => simp

theorem constraint_addProvenance (e : Entry) : (addProvenance p e).constraint = e.constraint := by
  unfold addProvenance
  split <;> rfl

theorem cites_modify {k : Nat} {e₀ : Entry} (he₀ : s.entries[k]? = some e₀) :
    Cites { s with entries := s.entries.modify k (addProvenance p) } c' p' ↔
      s.Cites c' p' ∨ c' = e₀.constraint ∧ p' = p := by
  constructor
  · rintro ⟨e, he, rfl, hp'⟩
    obtain ⟨j, e', hj, rfl⟩ := Array.mem_modify.mp he
    split_ifs at hp' ⊢ with hkj
    · subst hkj
      obtain rfl := Option.some.inj (he₀.symm.trans hj)
      rw [constraint_addProvenance]
      obtain hp' | rfl := (mem_addProvenance e₀).mp hp'
      · exact .inl ⟨e₀, Array.mem_of_getElem? hj, rfl, hp'⟩
      · exact .inr ⟨rfl, rfl⟩
    · exact .inl ⟨e', Array.mem_of_getElem? hj, rfl, hp'⟩
  · rintro (⟨e, he, rfl, hp'⟩ | ⟨rfl, rfl⟩)
    · obtain ⟨j, hj⟩ := Array.mem_iff_getElem?.mp he
      refine ⟨_, Array.mem_modify.mpr ⟨j, e, hj, rfl⟩, ?_⟩
      split_ifs
      · exact ⟨constraint_addProvenance e, (mem_addProvenance e).mpr (.inl hp')⟩
      · exact ⟨rfl, hp'⟩
    · refine ⟨_, Array.mem_modify.mpr ⟨k, e₀, he₀, rfl⟩, ?_⟩
      rw [if_pos rfl]
      exact ⟨constraint_addProvenance e₀, (mem_addProvenance e₀).mpr (.inr rfl)⟩

theorem cites_push :
    Cites { s with entries := s.entries.push { constraint := c, provenance := [p] } } c' p' ↔
    s.Cites c' p' ∨ c' = c ∧ p' = p := by
  simp only [Cites, Array.mem_push]
  constructor
  · rintro ⟨e, he | rfl, rfl, hp'⟩
    · exact .inl ⟨e, he, rfl, hp'⟩
    · exact .inr ⟨rfl, List.mem_singleton.mp hp'⟩
  · rintro (⟨e, he, hc, hp'⟩ | ⟨rfl, rfl⟩)
    · exact ⟨e, .inl he, hc, hp'⟩
    · exact ⟨_, .inr rfl, rfl, List.mem_singleton.mpr rfl⟩

/-- An insertion adds one source. -/
theorem cites_insert : (s.insert c p).2.Cites c' p' ↔ s.Cites c' p' ∨ c' = c ∧ p' = p := by
  unfold insert
  split
  case h_1 i hi =>
    obtain ⟨k, hk, rfl⟩ := Option.map_eq_some_iff.mp hi
    obtain ⟨hlt, hfound, -⟩ := Array.findIdx?_eq_some_iff_getElem.mp hk
    obtain rfl : s.entries[k].constraint = c := by simpa using hfound
    exact cites_modify (Array.getElem?_eq_getElem hlt)
  case h_2 => exact cites_push

theorem nodup_insert (h : s.constraints.Nodup) : (s.insert c p).2.constraints.Nodup := by
  rw [constraints, standing_insert]
  split
  case isTrue => exact h
  case isFalse hc =>
    rw [List.map_append, List.nodup_append']
    refine ⟨h, List.nodup_singleton _, fun c' hmem heq => ?_⟩
    obtain rfl : c' = c := List.mem_singleton.mp heq
    exact hc hmem

section

variable {α : Type} (make : α → Constraint SlotId) (source : α → Provenance)

theorem cites_foldl_insert (xs : List α) : ∀ s : ConstraintStore,
    (xs.foldl (fun s x => (s.insert (make x) (source x)).2) s).Cites c p ↔
      s.Cites c p ∨ ∃ x ∈ xs, c = make x ∧ p = source x := by
  induction xs with
  | nil => simp
  | cons x xs ih =>
    intro s
    rw [List.foldl_cons, ih, cites_insert, or_assoc, List.exists_mem_cons_iff]

theorem nodup_foldl_insert (xs : List α) (h : s.constraints.Nodup) :
    (xs.foldl (fun s x => (s.insert (make x) (source x)).2) s).constraints.Nodup :=
  List.foldlRecOn (motive := fun s : ConstraintStore => s.constraints.Nodup) xs _ h
    fun _ hs _ _ => nodup_insert hs

end

def taken (s : ConstraintStore) (t : SlotTable) (c : Constraint SlotId) : Constraint SlotId :=
  (c.map (t.rename s.slots)).canonical

/-- Later slots do not change the numbers of those that the store has. -/
theorem taken_of_grows {t : SlotTable} (hc : Knows t c) (ht : ∀ x ∈ t.slots, x ∈ s.slots.slots)
    (hgrows : s.slots.Grows s'.slots) : s'.taken t c = s.taken t c := by
  refine congrArg Constraint.canonical (Constraint.map_congr c fun i hi => ?_)
  obtain ⟨x, hx⟩ := SlotTable.exists_get? (hc i hi)
  obtain ⟨j, hj⟩ := SlotTable.exists_lookup (ht x (SlotTable.mem_of_get? hx))
  rw [SlotTable.rename_eq hx hj, SlotTable.rename_eq hx (hgrows.lookup hj)]

/-- The numbers of a store in between do not matter. -/
theorem taken_taken {t : SlotTable} (hc : Knows t c) (ht : ∀ x ∈ t.slots, x ∈ s.slots.slots)
    (hs : ∀ x ∈ s.slots.slots, x ∈ s'.slots.slots) :
    s'.taken s.slots (s.taken t c) = s'.taken t c := by
  unfold taken
  rw [Constraint.canonical_map_canonical, Constraint.map_map]
  refine congrArg Constraint.canonical (Constraint.map_congr c fun i hi => ?_)
  obtain ⟨x, hx⟩ := SlotTable.exists_get? (hc i hi)
  obtain ⟨j, hj⟩ := SlotTable.exists_lookup (ht x (SlotTable.mem_of_get? hx))
  obtain ⟨y, hy, hlocation⟩ := SlotTable.lookup_eq_some hj
  obtain ⟨k, hk⟩ := SlotTable.exists_lookup (hs y (SlotTable.mem_of_get? hy))
  rw [SlotTable.rename_eq hx hj, SlotTable.rename_eq hy hk, SlotTable.rename_eq hx (hlocation ▸ hk)]

/-- A unit is taken over if its slots do not contradict those of the store. -/
theorem exists_absorb {u : UnitConstraints} (hdistinct : u.slots.Distinct)
    (hadmits : ∀ x ∈ u.slots.slots, s.slots.Admits x)
    (hknown : ∀ x ∈ u.constraints, Knows u.slots x.1) :
    ∃ names s', s.absorb u = .ok (names, s') ∧ (s.slots.Distinct → s'.slots.Distinct) ∧
      (∀ x, x ∈ s'.slots.slots ↔ x ∈ s.slots.slots ∨ x ∈ u.slots.slots) ∧
      (s.constraints.Nodup → s'.constraints.Nodup) ∧
      ∀ c p, s'.Cites c p ↔ s.Cites c p ∨ ∃ x, (x, p) ∈ u.constraints ∧ c = s'.taken u.slots x := by
  have hconflict : u.slots.slots.toList.findSome? s.slots.conflict? = none :=
    List.findSome?_eq_none_iff.mpr fun x hx =>
      (hadmits x (Array.mem_toList_iff.mp hx)).conflict?_eq_none
  obtain ⟨names, slots, hall, hslots, hmem, hnames⟩ := internAll_slots (t := s.slots)
    (fun x hx => hadmits x (Array.mem_toList_iff.mp hx))
    (fun x hx y hy => hdistinct.admits (Array.mem_toList_iff.mp hx) y (Array.mem_toList_iff.mp hy))
  have hrenamed : ∀ x ∈ u.constraints, (x.1.map fun i => names.getD i.index i) =
      x.1.map (u.slots.rename slots) := by
    intro x hx
    refine Constraint.map_congr _ fun i hi => ?_
    obtain ⟨y, hy⟩ := SlotTable.exists_get? (hknown x hx i hi)
    obtain ⟨j, hj, hlookup⟩ := hnames i.index y (Array.getElem?_toList ▸ hy)
    rw [SlotTable.rename_eq hy hlookup, List.getD_eq_getElem?_getD, hj, Option.getD_some]
  let make (x : Constraint SlotId × Provenance) := (x.1.map fun i => names.getD i.index i).canonical
  refine ⟨names, u.constraints.foldl (fun s x => (s.insert (make x) x.2).2) { s with slots }, ?_,
    ?_, ?_, ?_, ?_⟩
  · simp only [absorb_eq_ok_iff, takeOver, hconflict]
    split
    case h_1 hunknown =>
      obtain ⟨x, hx, hunknown⟩ := List.exists_of_findSome?_eq_some hunknown
      simp only [unknownSlot?_eq_none.mpr (hknown x hx), Option.map_none] at hunknown
      cases hunknown
    case h_2 => simp only [hall, make]
  · rw [slots_foldl_insert]
    exact hslots
  · intro x
    rw [slots_foldl_insert, hmem, Array.mem_toList_iff]
  · exact fun h => nodup_foldl_insert make _ _ (s := { s with slots }) h
  · intro c p
    simp only [cites_foldl_insert, taken, slots_foldl_insert]
    refine or_congr Iff.rfl ⟨?_, ?_⟩
    · rintro ⟨⟨x, p⟩, hx, rfl, rfl⟩
      exact ⟨x, hx, congrArg Constraint.canonical (hrenamed _ hx)⟩
    · rintro ⟨x, hx, rfl⟩
      exact ⟨_, hx, congrArg Constraint.canonical (hrenamed _ hx).symm, rfl⟩

/-- The store holds the slots and constraints of these units and nothing else. -/
structure Collects (s : ConstraintStore) (units : UnitConstraints → Prop) : Prop where
  known : ∀ u, units u → ∀ x ∈ u.constraints, Knows u.slots x.1
  distinct : s.slots.Distinct
  slots : ∀ x, x ∈ s.slots.slots ↔ ∃ u, units u ∧ x ∈ u.slots.slots
  nodup : s.constraints.Nodup
  sourced : s.Sourced
  cites : ∀ c p, s.Cites c p ↔ ∃ u, units u ∧ ∃ x, (x, p) ∈ u.constraints ∧ c = s.taken u.slots x

variable {units : UnitConstraints → Prop}

theorem collects_empty : Collects {} fun _ => False where
  known := by simp
  distinct := SlotTable.distinct_empty
  slots := by simp
  nodup := List.nodup_nil
  sourced := by simp [Sourced]
  cites := by simp [Cites]

theorem Collects.slots_subset (h : s.Collects units) {u : UnitConstraints} (hu : units u) :
    ∀ x ∈ u.slots.slots, x ∈ s.slots.slots := fun x hx => (h.slots x).mpr ⟨u, hu, hx⟩

theorem Collects.absorb (h : s.Collects units) {u : UnitConstraints} (hdistinct : u.slots.Distinct)
    (hadmits : ∀ x ∈ u.slots.slots, s.slots.Admits x)
    (hknown : ∀ x ∈ u.constraints, Knows u.slots x.1) :
    ∃ names s', s.absorb u = .ok (names, s') ∧ s'.Collects fun v => units v ∨ v = u := by
  obtain ⟨names, s', habsorb, hslots, hmem, hnodup, hcites⟩ :=
    exists_absorb hdistinct hadmits hknown
  have hgrows := absorb_grows habsorb
  refine ⟨names, s', habsorb, ?_, hslots h.distinct, fun x => ?_, hnodup h.nodup,
    hgrows.sourced h.sourced, fun c p => ?_⟩
  · rintro v (hv | rfl)
    · exact h.known v hv
    · exact hknown
  · rw [hmem, h.slots]
    simp only [or_and_right, exists_or, exists_eq_left]
  · have hold : (∃ v, units v ∧ ∃ x, (x, p) ∈ v.constraints ∧ c = s.taken v.slots x) ↔
        ∃ v, units v ∧ ∃ x, (x, p) ∈ v.constraints ∧ c = s'.taken v.slots x := by
      refine exists_congr fun v => and_congr_right fun hv => exists_congr fun x => and_congr_right
        fun hx => ?_
      rw [taken_of_grows (h.known v hv _ hx) (h.slots_subset hv) hgrows.slots]
    rw [hcites, h.cites, hold]
    simp only [or_and_right, exists_or, exists_eq_left]

/-- The second store is the first one under other numbers: it has the same slots and, under its own
numbers, the same constraints from the same sources. -/
structure Renumbers (s s' : ConstraintStore) : Prop where
  slots : s.slots.slots.toList.Perm s'.slots.slots.toList
  constraints : (s.constraints.map (s'.taken s.slots)).Perm s'.constraints
  provenance : ∀ e ∈ s.entries, ∃ e' ∈ s'.entries, e'.constraint = s'.taken s.slots e.constraint ∧
    ∀ p, p ∈ e'.provenance ↔ p ∈ e.provenance

theorem mem_provenance_iff (h : s.constraints.Nodup) {e : Entry} (he : e ∈ s.entries) :
    p ∈ e.provenance ↔ s.Cites e.constraint p := by
  refine ⟨fun hp => ⟨e, he, rfl, hp⟩, ?_⟩
  rintro ⟨e', he', hc, hp⟩
  have hnodup : (s.entries.toList.map (·.constraint)).Nodup := by
    simpa [constraints, standing, Function.comp_def] using h
  obtain rfl : e' = e :=
    List.inj_on_of_nodup_map hnodup (Array.mem_toList_iff.mpr he') (Array.mem_toList_iff.mpr he) hc
  exact hp

section

variable (h : s.Collects units) (h' : s'.Collects units)
include h h'

theorem Collects.mem_slots_iff (x : Slot) : x ∈ s.slots.slots ↔ x ∈ s'.slots.slots := by
  rw [h.slots, h'.slots]

theorem Collects.cites_taken (hc : s.Cites c p) : s'.Cites (s'.taken s.slots c) p := by
  obtain ⟨u, hu, x, hx, rfl⟩ := (h.cites c p).mp hc
  rw [taken_taken (h.known u hu _ hx) (h.slots_subset hu) fun y => (h.mem_slots_iff h' y).mp]
  exact (h'.cites _ p).mpr ⟨u, hu, x, hx, rfl⟩

/-- There and back again. -/
theorem Collects.taken_taken (hc : c ∈ s.constraints) :
    s.taken s'.slots (s'.taken s.slots c) = c := by
  obtain ⟨p, hp⟩ := h.sourced.exists_cites hc
  obtain ⟨u, hu, x, hx, rfl⟩ := (h.cites c p).mp hp
  have hknown := h.known u hu _ hx
  rw [ConstraintStore.taken_taken hknown (h.slots_subset hu) fun y => (h.mem_slots_iff h' y).mp,
    ConstraintStore.taken_taken hknown (h'.slots_subset hu) fun y => (h.mem_slots_iff h' y).mpr]

theorem Collects.renumbers : s.Renumbers s' := by
  have hback (c : Constraint SlotId) (hc : c ∈ s.constraints) :
      s'.taken s.slots c ∈ s'.constraints := by
    obtain ⟨p, hp⟩ := h.sourced.exists_cites hc
    exact (h.cites_taken h' hp).mem
  refine ⟨?_, ?_, fun e he => ?_⟩
  · refine (List.perm_ext_iff_of_nodup (.of_map _ h.distinct) (.of_map _ h'.distinct)).mpr
      fun x => ?_
    rw [Array.mem_toList_iff, Array.mem_toList_iff, h.mem_slots_iff h']
  · have hinj : (s.constraints.map (s'.taken s.slots)).Nodup := by
      refine h.nodup.map_on fun c hc c' hc' heq => ?_
      rw [← h.taken_taken h' hc, heq, h.taken_taken h' hc']
    refine (List.perm_ext_iff_of_nodup hinj h'.nodup).mpr fun c => ⟨fun hc => ?_, fun hc => ?_⟩
    · obtain ⟨c₀, hc₀, rfl⟩ := List.mem_map.mp hc
      exact hback c₀ hc₀
    · obtain ⟨p, hp⟩ := h'.sourced.exists_cites hc
      exact List.mem_map.mpr ⟨_, (h'.cites_taken h hp).mem, h'.taken_taken h hc⟩
  · have hc := mem_constraints_iff.mpr ⟨e, he, rfl⟩
    obtain ⟨e', he', hconstraint⟩ := mem_constraints_iff.mp (hback _ hc)
    refine ⟨e', he', hconstraint, fun p => ?_⟩
    rw [mem_provenance_iff h.nodup he, mem_provenance_iff h'.nodup he', hconstraint]
    refine ⟨fun hp => ?_, h.cites_taken h'⟩
    rw [← h.taken_taken h' hc]
    exact h'.cites_taken h hp

end

end ConstraintStore

end Qualify
