import Qualify.Proofs.Constraint.Order
import Qualify.Proofs.Lattice
import Qualify.Proofs.Store.Simplify
import Qualify.Proofs.Store.Slots
import Qualify.Proofs.Store.Union

namespace Qualify

/-- Canonical form is hereditary: the lists of a conditional constraint are in canonical form,
too. -/
theorem Constraint.canonical_of_existential {i : SlotId} {q : Qualifier}
    {thens otherwise : List (Constraint SlotId)}
    (h : (existential i q thens otherwise).canonical = existential i q thens otherwise) :
    ∀ c, c ∈ thens ∨ c ∈ otherwise → c.canonical = c := by
  obtain ⟨-, -, hthens, hotherwise⟩ := existential.inj (canonical.eq_4 i q thens otherwise ▸ h)
  have hlist {cs : List (Constraint SlotId)} (hcs : tidy (canonicalList cs) = cs) : ∀ c ∈ cs,
      c.canonical = c := by
    intro c hc
    rw [← hcs, mem_tidy, canonicalList_eq_map] at hc
    obtain ⟨c', -, rfl⟩ := List.mem_map.mp hc
    exact canonical_canonical c'
  rintro c (hc | hc)
  · exact hlist hthens c hc
  · exact hlist hotherwise c hc

structure Entry.Becomes (e e' : Entry) : Prop where
  constraint : e'.constraint = e.constraint
  provenance : e.provenance <+: e'.provenance
  /-- What is settled stays as it is. -/
  status : e.status ≠ .active → e'.status = e.status

namespace Entry.Becomes

variable {e e' e'' : Entry}

theorem refl (e : Entry) : e.Becomes e := ⟨rfl, List.prefix_rfl, fun _ => rfl⟩

theorem trans (h : e.Becomes e') (h' : e'.Becomes e'') : e.Becomes e'' where
  constraint := h'.constraint.trans h.constraint
  provenance := h.provenance.trans h'.provenance
  status hsettled := by
    have hsame := h.status hsettled
    rw [h'.status (hsame ▸ hsettled), hsame]

theorem addProvenance (p : Provenance) (e : Entry) :
    e.Becomes (ConstraintStore.addProvenance p e) := by
  unfold ConstraintStore.addProvenance
  split
  · exact .refl e
  · exact ⟨rfl, List.prefix_append _ _, fun _ => rfl⟩

theorem settle (h : e.status = .active) (status : Status) : e.Becomes { e with status } :=
  ⟨rfl, List.prefix_rfl, fun hsettled => absurd h hsettled⟩

end Entry.Becomes

namespace ConstraintStore

variable {s s' s'' : ConstraintStore}

theorem constraints_eq (s : ConstraintStore) :
    s.constraints = s.entries.toList.map Entry.constraint := by
  simp [constraints, standing, Function.comp_def]

/-- What a store keeps of an earlier one: its slots and constraints under their numbers. -/
structure Keeps (s s' : ConstraintStore) : Prop where
  slots : s.slots.Grows s'.slots
  entries : ∀ (i : Nat) (e : Entry), s.entries[i]? = some e → ∃ e', s'.entries[i]? = some e' ∧
    e.Becomes e'

namespace Keeps

theorem refl (s : ConstraintStore) : s.Keeps s := ⟨.refl _, fun _ e he => ⟨e, he, .refl e⟩⟩

theorem trans (h : s.Keeps s') (h' : s'.Keeps s'') : s.Keeps s'' := by
  refine ⟨h.slots.trans h'.slots, fun i e he => ?_⟩
  obtain ⟨e', he', hbecomes⟩ := h.entries i e he
  obtain ⟨e'', he'', hbecomes'⟩ := h'.entries i e' he'
  exact ⟨e'', he'', hbecomes.trans hbecomes'⟩

/-- A change of one entry. -/
theorem modify {i : Nat} {f : Entry → Entry} (hf : ∀ e, s.entries[i]? = some e → e.Becomes (f e)) :
    s.Keeps { s with entries := s.entries.modify i f } := by
  refine ⟨.refl _, fun j e he => ?_⟩
  dsimp only
  rw [Array.getElem?_modify, he]
  split_ifs with hij
  · exact ⟨f e, rfl, hf e (hij ▸ he)⟩
  · exact ⟨e, rfl, .refl e⟩

theorem push (s : ConstraintStore) (e : Entry) :
    s.Keeps { s with entries := s.entries.push e } := by
  refine ⟨.refl _, fun j e' he' => ⟨e', ?_, .refl e'⟩⟩
  obtain ⟨hlt, -⟩ := Array.getElem?_eq_some_iff.mp he'
  dsimp only
  rw [Array.getElem?_push_lt hlt, ← he', Array.getElem?_eq_getElem hlt]

theorem insert (s : ConstraintStore) (c : Constraint SlotId) (p : Provenance) :
    s.Keeps (s.insert c p).2 := by
  unfold ConstraintStore.insert
  split
  · exact .modify fun e _ => .addProvenance p e
  · exact .push s _

end Keeps

structure Consistent (s : ConstraintStore) : Prop where
  distinct : s.slots.Distinct
  nodup : s.constraints.Nodup
  canonical : ∀ c ∈ s.constraints, c.canonical = c
  closed : s.Closed
  sources : ∀ e ∈ s.entries, e.provenance.Nodup

namespace Consistent

theorem empty : Consistent {} where
  distinct := SlotTable.distinct_empty
  nodup := List.nodup_nil
  canonical := by simp [constraints, standing]
  closed := by simp [Closed, constraints, standing]
  sources := by simp

theorem lookupConstraint_iff (h : s.Consistent) {c : Constraint SlotId} {id : ConstraintId} :
    s.lookupConstraint c = some id ↔ ∃ e, s.entry? id = some e ∧ e.constraint = c.canonical := by
  obtain ⟨k⟩ := id
  have hnodup : (s.entries.toList.map Entry.constraint).Nodup := s.constraints_eq ▸ h.nodup
  rw [lookupConstraint, find?, Option.map_eq_some_iff]
  simp only [ConstraintId.mk.injEq, exists_eq_right, Array.findIdx?_key_eq_some hnodup]
  rfl

theorem insert (h : s.Consistent) {c : Constraint SlotId} (hc : c.canonical = c)
    (hknown : Knows s.slots c) (p : Provenance) : (s.insert c p).2.Consistent := by
  obtain ⟨added, hadded, hnew⟩ :=
    (insert_grows (P := fun c => c.canonical = c ∧ Knows s.slots c) ⟨hc, hknown⟩ s p).constraints
  refine ⟨by rw [slots_insert]; exact h.distinct, nodup_insert h.nodup, ?_, ?_, ?_⟩
  · rw [hadded, List.forall_mem_append]
    exact ⟨h.canonical, fun c' hc' => (hnew c' hc').1⟩
  · rw [Closed, hadded, slots_insert, List.forall_mem_append]
    exact ⟨h.closed, fun c' hc' => (hnew c' hc').2⟩
  · unfold ConstraintStore.insert
    split
    · refine Array.forall_mem_modify (fun e he => ?_) h.sources _
      unfold addProvenance
      split
      case isTrue => exact he
      case isFalse hp =>
        simpa [List.concat_eq_append] using he.concat (show p ∉ e.provenance by simpa using hp)
    · intro e he
      rcases Array.mem_push.mp he with he | rfl
      · exact h.sources e he
      · exact List.nodup_singleton p

/-- Slots may be added. -/
theorem withSlots (h : s.Consistent) {t : SlotTable} (hgrows : s.slots.Grows t) (ht : t.Distinct) :
    Consistent { s with slots := t } where
  distinct := ht
  nodup := h.nodup
  canonical := h.canonical
  closed c hc i hi := (h.closed c hc i hi).trans_le hgrows.size_le
  sources := h.sources

theorem setStatus (h : s.Consistent) (i : Nat) (status : Status) :
    (s.setStatus ⟨i⟩ status).Consistent where
  distinct := h.distinct
  nodup := by rw [constraints_setStatus]; exact h.nodup
  canonical := by rw [constraints_setStatus]; exact h.canonical
  closed := closed_setStatus h.closed
  sources := Array.forall_mem_modify (f := fun e : Entry => { e with status }) (fun _ he => he)
    h.sources i

end Consistent

theorem foldl_insert_spec {α : Type} (make : α → Constraint SlotId) (source : α → Provenance)
    (xs : List α) (hs : s.Consistent)
    (hxs : ∀ x ∈ xs, (make x).canonical = make x ∧ Knows s.slots (make x)) :
    (xs.foldl (fun s x => (s.insert (make x) (source x)).2) s).Consistent ∧
      s.Keeps (xs.foldl (fun s x => (s.insert (make x) (source x)).2) s) := by
  induction xs generalizing s with
  | nil => exact ⟨hs, .refl s⟩
  | cons x xs ih =>
    obtain ⟨hx, hxs⟩ := List.forall_mem_cons.mp hxs
    obtain ⟨hconsistent, hkeeps⟩ := ih (hs.insert hx.1 hx.2 (source x)) (by rwa [slots_insert])
    exact ⟨hconsistent, (Keeps.insert s _ _).trans hkeeps⟩

theorem insertAll_spec {cs : List (Constraint SlotId)} (ps : List Provenance) (hs : s.Consistent)
    (hcs : ∀ c ∈ cs, c.canonical = c ∧ Knows s.slots c) :
    (s.insertAll cs ps).Consistent ∧ s.Keeps (s.insertAll cs ps) := by
  induction cs generalizing s with
  | nil => exact ⟨hs, .refl s⟩
  | cons c cs ih =>
    obtain ⟨hc, hcs⟩ := List.forall_mem_cons.mp hcs
    obtain ⟨hfirst, hkeeps⟩ := foldl_insert_spec (fun _ => c) id ps hs fun _ _ => hc
    obtain ⟨hall, hkeeps'⟩ := ih hfirst (by rwa [slots_foldl_insert])
    exact ⟨hall, hkeeps.trans hkeeps'⟩

section Steps

variable (hs : s.Consistent)
include hs

theorem internSlot_spec {l : Location} {init : SlotInit} {i : SlotId}
    (h : s.internSlot l init = .ok (i, s')) :
    s'.Consistent ∧ s.Keeps s' := by
  unfold internSlot at h
  split at h
  case h_1 hintern =>
    cases h
    have hgrows := (SlotTable.intern_spec hintern).1
    exact ⟨hs.withSlots hgrows (hs.distinct.intern hintern), hgrows, fun _ e he => ⟨e, he, .refl e⟩⟩
  case h_2 => cases h

theorem add_spec {c : Constraint SlotId} {p : Provenance} {id : ConstraintId}
    (h : s.add c p = .ok (id, s')) :
    s'.Consistent ∧ s.Keeps s' := by
  unfold add at h
  split at h
  case h_1 => cases h
  case h_2 hknown =>
    obtain rfl : (s.insert c.canonical p).2 = s' := by rw [Except.ok.inj h]
    have hcanonical := knows_canonical (unknownSlot?_eq_none.mp hknown)
    exact ⟨hs.insert (Constraint.canonical_canonical c) hcanonical p, .insert s _ p⟩

/-- Also where a unit is not taken over, what was done of it is consistent. -/
theorem takeOver_spec (u : UnitConstraints) :
    (s.takeOver u).2.Consistent ∧ s.Keeps (s.takeOver u).2 := by
  obtain ⟨e, he⟩ | ⟨-, hknown, ⟨e, slots, hall, he⟩ | ⟨names, slots, hall, hok⟩⟩ :=
    s.takeOver_cases u
  · rw [he]
    exact ⟨hs, .refl s⟩
  · rw [he]
    have hgrows := internAll_grows hall
    exact ⟨hs.withSlots hgrows (internAll_distinct hall hs.distinct), hgrows,
      fun _ e he => ⟨e, he, .refl e⟩⟩
  · rw [hok]
    have hgrows := internAll_grows hall
    obtain ⟨hlength, hnames⟩ := internAll_spec hall
    obtain ⟨hconsistent, hkeeps⟩ := foldl_insert_spec
      (fun x => (x.1.map fun i => names.getD i.index i).canonical) (·.2) u.constraints
      (hs.withSlots hgrows (internAll_distinct hall hs.distinct))
      fun x hx => ⟨Constraint.canonical_canonical _,
        knows_canonical (knows_map hlength hnames (hknown x hx))⟩
    exact ⟨hconsistent, hgrows.trans hkeeps.slots, hkeeps.entries⟩

/-- A simplification settles active constraints, and what it stores for them was inside of them. -/
theorem simplify_keeps (l : Lattice) : (simplify l s).2.Consistent ∧ s.Keeps (simplify l s).2 := by
  refine (simplifyFrom_keeps (I := fun t => t.Consistent ∧ s.Keeps t) ?_ ?_ _ ⟨hs, .refl s⟩).1
  · rintro t i e ⟨ht, hkeeps⟩ he hactive -
    refine ⟨ht.setStatus i .discharged, hkeeps.trans (.modify fun e' he' => ?_)⟩
    obtain rfl := Option.some.inj (he.symm.trans he')
    exact .settle hactive .discharged
  · rintro t i e cs ⟨ht, hkeeps⟩ he hactive hverdict
    have hsettled : t.Keeps (t.setStatus ⟨i⟩ .replaced) := .modify fun e' he' => by
      obtain rfl := Option.some.inj (he.symm.trans he')
      exact .settle hactive .replaced
    have hcs : ∀ c ∈ cs, c.canonical = c ∧ Knows t.slots c := by
      intro c hc
      refine ⟨?_, knows_of_branch hverdict (ht.closed _ (mem_constraints he)) hc⟩
      obtain ⟨j, q, thens, otherwise, hexistential, hbranch⟩ := verdict_eq_branch hverdict
      have hcanonical := ht.canonical _ (mem_constraints he)
      rw [hexistential] at hcanonical
      have hinner : c ∈ thens ∨ c ∈ otherwise := by
        rcases hbranch with rfl | rfl
        · exact .inl hc
        · exact .inr hc
      exact Constraint.canonical_of_existential hcanonical c hinner
    obtain ⟨hconsistent, hinserted⟩ := insertAll_spec e.provenance (ht.setStatus i .replaced) hcs
    exact ⟨hconsistent, (hkeeps.trans hsettled).trans hinserted⟩

end Steps

inductive Request where
  | internSlot (l : Location) (init : SlotInit)
  | add (c : Constraint SlotId) (p : Provenance)
  | absorb (u : UnitConstraints)
  | simplify (l : Lattice)

/-- The store after a request, granted or refused. A unit that is refused, or a simplification that
fails, may have changed it already; of the other requests a refused one leaves it as it is. -/
def after (s : ConstraintStore) : Request → ConstraintStore
  | .internSlot l init => ((s.internSlot l init).map (·.2)).toOption.getD s
  | .add c p => ((s.add c p).map (·.2)).toOption.getD s
  | .absorb u => (s.takeOver u).2
  | .simplify l => (simplify l s).2

def afterAll (s : ConstraintStore) (rs : List Request) : ConstraintStore := rs.foldl after s

theorem after_spec (hs : s.Consistent) (r : Request) :
    (s.after r).Consistent ∧ s.Keeps (s.after r) := by
  have hsame : s.Consistent ∧ s.Keeps s := ⟨hs, .refl s⟩
  cases r with
  | internSlot l init =>
    rcases h : s.internSlot l init with e | ⟨i, s'⟩ <;> simp only [after, h]
    · exact hsame
    · exact internSlot_spec hs h
  | add c p =>
    rcases h : s.add c p with e | ⟨id, s'⟩ <;> simp only [after, h]
    · exact hsame
    · exact add_spec hs h
  | absorb u => exact takeOver_spec hs u
  | simplify l => exact simplify_keeps hs l

theorem afterAll_spec (hs : s.Consistent) (rs : List Request) :
    (s.afterAll rs).Consistent ∧ s.Keeps (s.afterAll rs) := by
  induction rs generalizing s with
  | nil => exact ⟨hs, .refl s⟩
  | cons r rs ih =>
    obtain ⟨hafter, hkeeps⟩ := after_spec hs r
    obtain ⟨hall, hkeeps'⟩ := ih hafter
    exact ⟨hall, hkeeps.trans hkeeps'⟩

theorem Keeps.lookupConstraint (h : s.Keeps s') (hs : s.Consistent) (hs' : s'.Consistent)
    {c : Constraint SlotId} {id : ConstraintId} (hc : s.lookupConstraint c = some id) :
    s'.lookupConstraint c = some id := by
  obtain ⟨e, he, hconstraint⟩ := hs.lookupConstraint_iff.mp hc
  obtain ⟨e', he', hbecomes⟩ := h.entries id.index e he
  exact hs'.lookupConstraint_iff.mpr ⟨e', he', hbecomes.constraint.trans hconstraint⟩

/-- A granted request of a slot finds the slot of its location or gives it the next number. -/
theorem internSlot_answer {l : Location} {init : SlotInit} {i : SlotId}
    (h : s.internSlot l init = .ok (i, s')) :
    (s.lookup l = some i ∨ s.lookup l = none ∧ i = ⟨s.slots.size⟩) ∧ s'.lookup l = some i ∧
      ⟨l, init⟩ ∈ s'.slots.slots := by
  unfold internSlot at h
  split at h
  case h_1 hintern =>
    cases h
    refine ⟨?_, SlotTable.lookup_intern hintern, (SlotTable.mem_intern hintern).mpr (.inr rfl)⟩
    obtain ⟨-, -, hlookup⟩ | ⟨-, hnew, rfl⟩ := SlotTable.intern_cases hintern
    · exact .inl hlookup
    · have hnone : s.slots.slots.findIdx? (·.location == l) = none := by simpa using hnew
      exact .inr ⟨by rw [lookup, SlotTable.lookup, hnone, Option.map_none], rfl⟩
  case h_2 => cases h

/-- A granted request of a constraint finds it or gives it the next number. -/
theorem add_answer {c : Constraint SlotId} {p : Provenance} {id : ConstraintId}
    (h : s.add c p = .ok (id, s')) :
    s.lookupConstraint c = some id ∨ s.lookupConstraint c = none ∧ id = ⟨s.size⟩ ∧
      s'.entries = s.entries.push ⟨c.canonical, [p], .active⟩ := by
  unfold add at h
  split at h
  case h_1 => cases h
  case h_2 =>
    unfold insert at h
    split at h
    case h_1 i hi =>
      cases h
      exact .inl hi
    case h_2 hnone =>
      cases h
      exact .inr ⟨hnone, rfl, rfl⟩

/-- What holds after any requests to an empty store. Slots and constraints are where they are looked
up, no two are the same, and the constraints are in canonical form and know their slots. Whatever is
asked later on, the store keeps its slots and constraints under their numbers, so that the answers
of granted requests stay right. -/
theorem afterAll_invariant (rs rs' : List Request) :
    let s := afterAll {} rs
    s.Consistent ∧ s.Keeps (s.afterAll rs') ∧
      (∀ l i, s.lookup l = some i ↔ ∃ x, s.slot? i = some x ∧ x.location = l) ∧
      (∀ c id, s.lookupConstraint c = some id ↔ ∃ e, s.entry? id = some e ∧
        e.constraint = c.canonical) ∧
      (∀ l init i t, s.internSlot l init = .ok (i, t) →
        (s.lookup l = some i ∨ s.lookup l = none ∧ i = ⟨s.slots.size⟩) ∧
        (t.afterAll rs').lookup l = some i ∧ (t.afterAll rs').slot? i = some ⟨l, init⟩) ∧
      ∀ c p id t, s.add c p = .ok (id, t) →
        (s.lookupConstraint c = some id ∨ s.lookupConstraint c = none ∧ id = ⟨s.size⟩) ∧
        (t.afterAll rs').lookupConstraint c = some id := by
  intro s
  have hs : s.Consistent := (afterAll_spec .empty rs).1
  refine ⟨hs, (afterAll_spec hs rs').2, fun l i => hs.distinct.lookup_iff,
    fun c id => hs.lookupConstraint_iff, fun l init i t h => ?_, fun c p id t h => ?_⟩
  · obtain ⟨hanswer, hlookup, hmem⟩ := internSlot_answer h
    obtain ⟨ht, -⟩ := internSlot_spec hs h
    obtain ⟨ht', hkeeps⟩ := afterAll_spec ht rs'
    obtain ⟨x, hx, hlocation⟩ := ht.distinct.lookup_iff.mp hlookup
    obtain rfl : x = ⟨l, init⟩ := ht.distinct.admits hmem x (SlotTable.mem_of_get? hx) hlocation
    exact ⟨hanswer, hkeeps.slots.lookup hlookup, hkeeps.slots.get? hx⟩
  · obtain ⟨ht, hkeeps⟩ := add_spec hs h
    obtain ⟨ht', hkeeps'⟩ := afterAll_spec ht rs'
    obtain hfound | ⟨hnone, rfl, hentries⟩ := add_answer h
    · exact ⟨.inl hfound, (hkeeps.trans hkeeps').lookupConstraint hs ht' hfound⟩
    · have hpushed : t.entry? ⟨s.size⟩ = some ⟨c.canonical, [p], .active⟩ := by
        unfold entry?
        rw [hentries]
        exact Array.getElem?_push_size
      exact ⟨.inr ⟨hnone, rfl⟩,
        hkeeps'.lookupConstraint ht ht' (ht.lookupConstraint_iff.mpr ⟨_, hpushed, rfl⟩)⟩

def conditionalUse : Constraint SlotId := .existential ⟨0⟩ ⟨1⟩ [.comparable ⟨0⟩ ⟨1⟩] []

/-- Two requests that are refused, and a conditional constraint that is replaced in the end. -/
def settlingRequests : List Request :=
  [.internSlot ⟨"unit", "mode", .field⟩ (.fixed ⟨1⟩),
    .internSlot ⟨"unit", "value", .parameter⟩ (.inferred none), .internSlot ⟨"unit", "mode", .field⟩
      (.fixed ⟨2⟩), .add conditionalUse ⟨"unit", "use", .assignment⟩,
    .add (.subtype ⟨0⟩ ⟨2⟩) ⟨"unit", "use", .assignment⟩, .simplify .diamond]

def askedAgain : ConstraintStore where
  slots :=
    ⟨#[⟨⟨"unit", "mode", .field⟩, .fixed ⟨1⟩⟩, ⟨⟨"unit", "value", .parameter⟩, .inferred none⟩]⟩
  entries :=
    #[⟨conditionalUse, [⟨"unit", "use", .assignment⟩, ⟨"unit", "again", .assignment⟩], .replaced⟩,
    ⟨.comparable ⟨0⟩ ⟨1⟩, [⟨"unit", "use", .assignment⟩], .active⟩]

def contradictingRequests : List Request :=
  [.add (.inequality ⟨1⟩ ⟨1⟩) ⟨"unit", "value", .comparison⟩, .simplify .diamond]

/-- The replaced constraint has its number still, and stays replaced when a simplification fails
later on. -/
theorem afterAll_invariant_replaced :
    (afterAll {} settlingRequests).add conditionalUse ⟨"unit", "again", .assignment⟩ =
      .ok (⟨0⟩, askedAgain) ∧
      (askedAgain.afterAll contradictingRequests).lookupConstraint conditionalUse = some ⟨0⟩ ∧
      ∃ e, entry? (askedAgain.afterAll contradictingRequests) ⟨0⟩ = some e ∧
        e.status = .replaced := by
  have hasked : (afterAll {} settlingRequests).add conditionalUse ⟨"unit", "again", .assignment⟩ =
      .ok (⟨0⟩, askedAgain) := by cbv
  have hagain : afterAll {}
      (settlingRequests ++ [.add conditionalUse ⟨"unit", "again", .assignment⟩]) = askedAgain := by
    rw [afterAll, List.foldl_concat, ← afterAll, after, hasked]
    rfl
  obtain ⟨-, -, -, -, -, hadd⟩ := afterAll_invariant settlingRequests contradictingRequests
  obtain ⟨-, hkeeps, -⟩ := afterAll_invariant _ contradictingRequests
  rw [hagain] at hkeeps
  obtain ⟨e, he, hbecomes⟩ := hkeeps.entries 0 _ rfl
  exact ⟨hasked, (hadd _ _ _ _ hasked).2, e, he, hbecomes.status (by decide)⟩

end ConstraintStore

end Qualify
