import Qualify.Proofs.Store.Invariant

namespace Qualify

namespace SlotTable

inductive Interned : SlotTable → Prop where
  | empty : Interned {}
  | intern {t t' : SlotTable} {l : Location} {init : SlotInit} {i : SlotId} (ht : Interned t)
    (h : t.intern l init = .ok (i, t')) : Interned t'

variable {t : SlotTable} {x : Slot}

theorem Interned.distinct (h : t.Interned) : t.Distinct := by
  induction h with
  | empty => exact distinct_empty
  | intern _ h ih => exact ih.intern h

theorem Distinct.admits_of_conflict? (ht : t.Distinct) (h : t.conflict? x = none) : t.Admits x := by
  intro y hy hlocation
  have hsome : (t.slots.find? (·.location == x.location)).isSome = true := by
    rw [Array.find?_isSome]
    exact ⟨y, hy, by simpa using hlocation⟩
  obtain ⟨z, hz⟩ := Option.isSome_iff_exists.mp hsome
  have hzmem := Array.mem_of_find?_eq_some hz
  have hzlocation : z.location = x.location := by simpa using Array.find?_some hz
  have hinit : z.init = x.init := by
    by_contra hne
    simp [conflict?, check, hz, hne] at h
  obtain rfl : y = z := ht.admits hzmem y hy (hlocation.trans hzlocation.symm)
  cases y
  cases x
  simp_all

end SlotTable

namespace ConstraintStore

variable {s s' : ConstraintStore} {u : UnitConstraints} {names : List SlotId}

/-- The unit can be taken over: no slot of it contradicts one of the store, and its constraints are
about its slots. -/
structure Accepts (s : ConstraintStore) (u : UnitConstraints) : Prop where
  slots : ∀ x ∈ u.slots.slots, s.slots.Admits x
  constraints : ∀ x ∈ u.constraints, Knows u.slots x.1

/-- What the store makes of a constraint of a unit whose slots have got these numbers. -/
def renumbered (names : List SlotId) (c : Constraint SlotId) : Constraint SlotId :=
  (c.map fun i => names.getD i.index i).canonical

/-- The second store is the first one with the unit, whose slots have these numbers there. -/
structure TakesOver (s : ConstraintStore) (u : UnitConstraints) (names : List SlotId)
    (s' : ConstraintStore) :
    Prop where
  length : names.length = u.slots.size
  injective : names.Nodup
  /-- The new number of a slot is that of a slot of the same location and request. -/
  named : ∀ i x, u.slots.get? i = some x → ∃ j, names[i.index]? = some j ∧ s'.slot? j = some x
  slots : ∀ x, x ∈ s'.slots.slots ↔ x ∈ s.slots.slots ∨ x ∈ u.slots.slots
  slots_kept : ∀ i x, s.slot? i = some x → s'.slot? i = some x
  /-- Earlier constraints keep their numbers and states, and their sources. -/
  entries_kept : ∀ id e, s.entry? id = some e → ∃ e', s'.entry? id = some e' ∧
    e'.constraint = e.constraint ∧
    e'.status = e.status ∧ e.provenance <+: e'.provenance
  entries_new : ∀ id e, s'.entry? id = some e → s.size ≤ id.index → e.status = .active
  constraints : ∀ c, c ∈ s'.constraints ↔ c ∈ s.constraints ∨
    ∃ x ∈ u.constraints, c = renumbered names x.1
  /-- The sources are the earlier ones and those in the unit. -/
  cites : ∀ c p, s'.Cites c p ↔ s.Cites c p ∨
    ∃ x ∈ u.constraints, c = renumbered names x.1 ∧ p = x.2

theorem mem_constraints_foldl_insert {α : Type} (make : α → Constraint SlotId)
    (source : α → Provenance) (xs : List α) {c : Constraint SlotId} : ∀ s : ConstraintStore,
    c ∈ (xs.foldl (fun s x => (s.insert (make x) (source x)).2) s).constraints ↔
      c ∈ s.constraints ∨ ∃ x ∈ xs, c = make x := by
  induction xs with
  | nil => simp
  | cons x xs ih =>
    intro s
    rw [List.foldl_cons, ih, mem_constraints_insert_iff, or_assoc, List.exists_mem_cons_iff]

/-- Numbers that are looked up for different locations are different. -/
theorem nodup_names {t : SlotTable} {xs : List Slot} (hxs : (xs.map Slot.location).Nodup)
    (hlength : names.length = xs.length)
    (hnames : ∀ (k : Nat) (x : Slot), xs[k]? = some x → ∃ i, names[k]? = some i ∧
      t.lookup x.location = some i) :
    names.Nodup := by
  have hmap : names.map (fun i => (t.get? i).map Slot.location) =
      (xs.map Slot.location).map some := by
    apply List.ext_getElem?
    intro k
    simp only [List.getElem?_map]
    cases hx : xs[k]? with
    | none =>
      rw [List.getElem?_eq_none_iff] at hx
      simp [List.getElem?_eq_none_iff.mpr (hlength.trans_le hx)]
    | some x =>
      obtain ⟨i, hi, hlookup⟩ := hnames k x hx
      obtain ⟨y, hy, hlocation⟩ := SlotTable.lookup_eq_some hlookup
      simp [hi, hy, hlocation]
  exact .of_map _ (hmap ▸ hxs.map (Option.some_injective _))

theorem getElem?_standing (s : ConstraintStore) (i : Nat) :
    s.standing[i]? = s.entries[i]?.map fun e => (e.constraint, e.status) := by
  simp [standing]

/-- New constraints come after the earlier ones and are active, and the earlier ones keep their
states. -/
theorem Grows.status {P : Constraint SlotId → Prop} (h : Grows P s s') {i : Nat} {e' : Entry}
    (he' : s'.entries[i]? = some e') :
    (∃ e, s.entries[i]? = some e ∧ e'.status = e.status) ∨ s.size ≤ i ∧ e'.status = .active := by
  obtain ⟨added, hadded, hnew⟩ := h.standing
  have hi : s'.standing[i]? = some (e'.constraint, e'.status) := by
    rw [getElem?_standing, he', Option.map_some]
  have hlength : s.standing.length = s.size := by simp [ConstraintStore.standing, size]
  rw [hadded] at hi
  rcases Nat.lt_or_ge i s.size with hlt | hge
  · rw [List.getElem?_append_left (hlength ▸ hlt), getElem?_standing] at hi
    obtain ⟨e, he, hpair⟩ := Option.map_eq_some_iff.mp hi
    exact .inl ⟨e, he, (congrArg Prod.snd hpair).symm⟩
  · rw [List.getElem?_append_right (hlength ▸ hge)] at hi
    exact .inr ⟨hge, (hnew _ (List.mem_of_getElem? hi)).1⟩

section TakeOver

variable (hu : u.slots.Distinct)

include hu

/-- The slots of a unit that the store admits are all granted. -/
theorem internAll_of_admits (hadmits : ∀ x ∈ u.slots.slots, s.slots.Admits x) :
    ∃ names t, internAll s.slots u.slots.slots.toList = (.ok names, t) ∧
      (∀ x, x ∈ t.slots ↔ x ∈ s.slots.slots ∨ x ∈ u.slots.slots) ∧
      ∀ i x, u.slots.get? i = some x → ∃ j, names[i.index]? = some j ∧
        t.lookup x.location = some j := by
  obtain ⟨names, t, hall, -, hmem, hnames⟩ := internAll_slots (t := s.slots)
    (fun x hx => hadmits x (Array.mem_toList_iff.mp hx))
    (fun x hx y hy => hu.admits (Array.mem_toList_iff.mp hx) y (Array.mem_toList_iff.mp hy))
  refine ⟨names, t, hall, fun x => ?_, fun i x hi => ?_⟩
  · rw [hmem, Array.mem_toList_iff]
  · exact hnames i.index x (Array.getElem?_toList ▸ hi)

theorem takeOver_error (hs : s.slots.Distinct) {e : StoreError}
    (h : s.takeOver u = (.error e, s')) : s' = s := by
  obtain ⟨e', he⟩ | ⟨hconflict, -, ⟨e', slots, hall, -⟩ | ⟨names, slots, -, hok⟩⟩ :=
    s.takeOver_cases u
  · exact (Prod.mk.inj (h.symm.trans he)).2
  · -- the first look has found nothing, and so no request was refused
    obtain ⟨names, t, hall', -⟩ :=
      internAll_of_admits hu fun x hx => hs.admits_of_conflict? (hconflict x hx)
    cases hall.symm.trans hall'
  · cases h.symm.trans hok

theorem exists_takeOver_iff (hs : s.slots.Distinct) :
    (∃ names s', s.takeOver u = (.ok names, s')) ↔ s.Accepts u := by
  constructor
  · rintro ⟨names, s', h⟩
    obtain ⟨e, he⟩ | ⟨hconflict, hknown, -⟩ := s.takeOver_cases u
    · cases h.symm.trans he
    · exact ⟨fun x hx => hs.admits_of_conflict? (hconflict x hx), hknown⟩
  · intro h
    obtain ⟨names, s', habsorb, -⟩ := exists_absorb hu h.slots h.constraints
    exact ⟨names, s', absorb_eq_ok_iff.mp habsorb⟩

/-- The numbers are those of the unit's slots in the larger table, and its constraints come under
these numbers. -/
theorem takeOver_ok (hs : s.slots.Distinct) (h : s.takeOver u = (.ok names, s')) :
    names.length = u.slots.size ∧
      (∀ x, x ∈ s'.slots.slots ↔ x ∈ s.slots.slots ∨ x ∈ u.slots.slots) ∧
      (∀ i x, u.slots.get? i = some x → ∃ j, names[i.index]? = some j ∧
        s'.slots.lookup x.location = some j) ∧
      s' = u.constraints.foldl (fun t x => (t.insert (renumbered names x.1) x.2).2)
        { s with slots := s'.slots } := by
  have haccepts := (exists_takeOver_iff hu hs).mp ⟨names, s', h⟩
  obtain ⟨slots, hall, -, hfold⟩ := absorb_cases (absorb_eq_ok_iff.mpr h)
  obtain ⟨names', slots', hall', hmem, hnames⟩ := internAll_of_admits hu haccepts.slots
  obtain ⟨hn, rfl⟩ := Prod.mk.inj (hall'.symm.trans hall)
  obtain rfl := Except.ok.inj hn
  have hslots : s'.slots = slots' := by rw [hfold, slots_foldl_insert]
  rw [hslots]
  exact ⟨by simpa [SlotTable.size] using (internAll_spec hall).1, hmem, hnames, hfold⟩

theorem takesOver (hs : s.Consistent) (h : s.takeOver u = (.ok names, s')) :
    s.TakesOver u names s' := by
  obtain ⟨hlength, hmem, hnames, hfold⟩ := takeOver_ok hu hs.distinct h
  have hgrows := absorb_grows (absorb_eq_ok_iff.mpr h)
  obtain ⟨hs', hkeeps⟩ : s'.Consistent ∧ s.Keeps s' := by simpa [h] using takeOver_spec hs u
  refine ⟨hlength, ?_, fun i x hx => ?_, hmem, fun i x => hkeeps.slots.get?, fun id e he => ?_,
    fun id e he hid => ?_, fun c => ?_, fun c p => ?_⟩
  · refine nodup_names (t := s'.slots) hu (by simpa [SlotTable.size] using hlength) fun k x hx => ?_
    exact hnames ⟨k⟩ x (by simpa [SlotTable.get?] using hx)
  · obtain ⟨j, hj, hlookup⟩ := hnames i x hx
    obtain ⟨y, hy, hlocation⟩ := SlotTable.lookup_eq_some hlookup
    have hx' := (hmem x).mpr (.inr (SlotTable.mem_of_get? hx))
    obtain rfl : y = x := hs'.distinct.admits hx' y (SlotTable.mem_of_get? hy) hlocation
    exact ⟨j, hj, hy⟩
  · obtain ⟨e', he', hbecomes⟩ := hkeeps.entries id.index e he
    obtain ⟨e₀, he₀, hstatus⟩ | ⟨hge, -⟩ := hgrows.status he'
    · obtain rfl := Option.some.inj (he.symm.trans he₀)
      exact ⟨e', he', hbecomes.constraint, hstatus, hbecomes.provenance⟩
    · exact absurd (Array.getElem?_eq_some_iff.mp he).1 (Nat.not_lt.mpr hge)
  · obtain ⟨e₀, he₀, -⟩ | ⟨-, hactive⟩ := hgrows.status he
    · exact absurd (Array.getElem?_eq_some_iff.mp he₀).1 (Nat.not_lt.mpr hid)
    · exact hactive
  · rw [hfold]
    exact mem_constraints_foldl_insert _ _ u.constraints { s with slots := s'.slots }
  · rw [hfold]
    exact cites_foldl_insert _ _ u.constraints { s with slots := s'.slots }

end TakeOver

/-- After any requests to an empty store, a unit whose slots come from requests is taken over
exactly if the store accepts it. An error leaves the store as it was, and without an error the store
is that with the unit. -/
theorem takeOver_atomic (rs : List Request) (u : UnitConstraints) (hu : u.slots.Interned) :
    let s := afterAll {} rs
    (∀ e s', s.takeOver u = (.error e, s') → s' = s) ∧
      (∀ names s', s.takeOver u = (.ok names, s') → s.TakesOver u names s') ∧
      ((∃ names s', s.takeOver u = (.ok names, s')) ↔ s.Accepts u) := by
  intro s
  have hs : s.Consistent := (afterAll_spec .empty rs).1
  exact ⟨fun e s' => takeOver_error hu.distinct hs.distinct,
    fun names s' => takesOver hu.distinct hs, exists_takeOver_iff hu.distinct hs.distinct⟩

def cellRequests : List Request :=
  [.internSlot ⟨"Cell", "value", .field⟩ (.inferred none),
    .internSlot ⟨"Cell", "mode", .field⟩ (.fixed ⟨1⟩),
    .add (.equality ⟨0⟩ ⟨1⟩) ⟨"Cell", "value", .declaration⟩]

def cellSlots (q : Qualifier) : SlotTable :=
  ⟨#[⟨⟨"Main", "x", .parameter⟩, .inferred none⟩, ⟨⟨"Cell", "mode", .field⟩, .fixed q⟩,
    ⟨⟨"Cell", "value", .field⟩, .inferred none⟩]⟩

def cellUse (q : Qualifier) : UnitConstraints :=
  ⟨"Main", cellSlots q, [(.equality ⟨1⟩ ⟨2⟩, ⟨"Main", "use", .assignment⟩),
    (.subtype ⟨0⟩ ⟨2⟩, ⟨"Main", "x", .argument⟩)]⟩

theorem interned_cellSlots (q : Qualifier) : (cellSlots q).Interned := by
  have h₁ : SlotTable.intern {} ⟨"Main", "x", .parameter⟩ (.inferred none) =
      .ok (⟨0⟩, ⟨#[⟨⟨"Main", "x", .parameter⟩, .inferred none⟩]⟩) := rfl
  have h₂ : SlotTable.intern ⟨#[⟨⟨"Main", "x", .parameter⟩, .inferred none⟩]⟩
      ⟨"Cell", "mode", .field⟩ (.fixed q) = .ok (⟨1⟩,
        ⟨#[⟨⟨"Main", "x", .parameter⟩, .inferred none⟩,
          ⟨⟨"Cell", "mode", .field⟩, .fixed q⟩]⟩) := by cbv
  have h₃ : SlotTable.intern
      ⟨#[⟨⟨"Main", "x", .parameter⟩, .inferred none⟩, ⟨⟨"Cell", "mode", .field⟩, .fixed q⟩]⟩
      ⟨"Cell", "value", .field⟩ (.inferred none) = .ok (⟨2⟩, cellSlots q) := by cbv
  exact .intern (.intern (.intern .empty h₁) h₂) h₃

/-- The unit finds both slots of the cell and gives the equality a second source. With another mode
it is refused, and the slot before the mode is not there either. -/
theorem takeOver_atomic_cell :
    (∃ s', (afterAll {} cellRequests).takeOver (cellUse ⟨1⟩) = (.ok [⟨2⟩, ⟨1⟩, ⟨0⟩], s') ∧
      s'.Cites (.equality ⟨0⟩ ⟨1⟩) ⟨"Main", "use", .assignment⟩ ∧
        .subtype ⟨2⟩ ⟨0⟩ ∈ s'.constraints) ∧
    ∃ e s', (afterAll {} cellRequests).takeOver (cellUse ⟨2⟩) = (.error e, s') ∧
      s' = afterAll {} cellRequests := by
  have hnames : ((afterAll {} cellRequests).takeOver (cellUse ⟨1⟩)).1 =
      .ok [⟨2⟩, ⟨1⟩, ⟨0⟩] := by cbv
  have herror : ∃ e, ((afterAll {} cellRequests).takeOver (cellUse ⟨2⟩)).1 = .error e := ⟨_, by cbv⟩
  obtain ⟨-, hok, -⟩ := takeOver_atomic cellRequests (cellUse ⟨1⟩) (interned_cellSlots ⟨1⟩)
  obtain ⟨hunchanged, -, -⟩ := takeOver_atomic cellRequests (cellUse ⟨2⟩) (interned_cellSlots ⟨2⟩)
  have htaken := hok _ _ (Prod.ext hnames rfl)
  obtain ⟨e, he⟩ := herror
  refine ⟨⟨_, Prod.ext hnames rfl, ?_, ?_⟩, e, _, Prod.ext he rfl, hunchanged e _ (Prod.ext he rfl)⟩
  · refine (htaken.cites _ _).mpr (.inr ⟨_, List.mem_cons_self, ?_, rfl⟩)
    cbv
  · refine (htaken.constraints _).mpr (.inr ⟨_, List.mem_cons_of_mem _ List.mem_cons_self, ?_⟩)
    cbv

end ConstraintStore

end Qualify
