import Qualify.Solution
import Qualify.Proofs.Store.Simplify

namespace Qualify

namespace ConstraintStore

theorem mem_variableSlots {s : ConstraintStore} {i : SlotId} :
    i ∈ s.variableSlots ↔ i.index < s.slots.size ∧ s.constantOf i = none := by
  have hids : i ∈ s.slots.ids ↔ i.index < s.slots.size := by
    rw [SlotTable.ids, List.mem_map]
    exact ⟨fun ⟨_, hk, hi⟩ => hi ▸ List.mem_range.mp hk,
      fun h => ⟨i.index, List.mem_range.mpr h, rfl⟩⟩
  rw [variableSlots, List.mem_filter, hids]
  refine and_congr_right fun hi => ?_
  obtain ⟨slot, hget⟩ : ∃ slot, s.slots.get? i = some slot := ⟨_, Array.getElem?_eq_getElem hi⟩
  simp [constantOf, SlotTable.constantOf, hget, Slot.isVariable, Slot.isConstant]

theorem nodup_variableSlots (s : ConstraintStore) : s.variableSlots.Nodup :=
  (List.nodup_range.map fun _ _ h => congrArg SlotId.index h).filter _

theorem pairwise_variableSlots (s : ConstraintStore) :
    s.variableSlots.Pairwise fun i j => i.index < j.index := by
  have hids : s.slots.ids.Pairwise fun i j => i.index < j.index :=
    List.pairwise_map.mpr List.pairwise_lt_range
  exact hids.filter _

def qualifiers (s : ConstraintStore) : List Qualifier :=
  s.slots.slots.toList.filterMap Slot.constant? ++ s.constraints.flatMap Constraint.qualifiers

/-- The store is about qualifiers of the lattice. -/
def Within (s : ConstraintStore) (l : Lattice) : Prop := ∀ q ∈ s.qualifiers, q ∈ l.qualifiers

instance (s : ConstraintStore) (l : Lattice) : Decidable (s.Within l) :=
  inferInstanceAs (Decidable (∀ q ∈ s.qualifiers, q ∈ l.qualifiers))

namespace Within

variable {s : ConstraintStore} {l : Lattice}

theorem constant (h : s.Within l) {i : SlotId} {q : Qualifier} (hq : s.constantOf i = some q) :
    q ∈ l.qualifiers := by
  obtain ⟨slot, hget, hconst⟩ := Option.bind_eq_some_iff.mp hq
  have hmem := Array.mem_toList_iff.mpr (Array.mem_of_getElem? hget)
  exact h q (List.mem_append_left _ (List.mem_filterMap.mpr ⟨slot, hmem, hconst⟩))

theorem constraint (h : s.Within l) {c : Constraint SlotId} (hc : c ∈ s.constraints) {q : Qualifier}
    (hq : q ∈ c.qualifiers) : q ∈ l.qualifiers :=
  h q (List.mem_append_right _ (List.mem_flatMap.mpr ⟨c, hc, hq⟩))

end Within

/-- The weight of a preference of an inferred slot that the values do not meet. -/
def unmet? (s : ConstraintStore) (value : SlotId → Option Qualifier) :
    Constraint SlotId → Option Weight
  | .preference i q w => if i ∈ s.variableSlots ∧ value i ≠ some q then some w else none
  | _ => none

end ConstraintStore

namespace Solution

theorem get?_of_mem {solution : Solution} (hnodup : (solution.values.map (·.1)).Nodup) {i : SlotId}
    {q : Qualifier} (h : (i, q) ∈ solution.values) : solution.get? i = some q :=
  (List.mem_iff_lookup hnodup).mp h

theorem mem_of_get? {solution : Solution} {i : SlotId} {q : Qualifier}
    (h : solution.get? i = some q) :
    (i, q) ∈ solution.values := by
  obtain ⟨xs, ys, hsplit, -⟩ := List.lookup_eq_some_iff.mp h
  simp [hsplit]

/-- The solution has a qualifier of the lattice for each inferred slot, and nothing else. -/
structure Fills (solution : Solution) (s : ConstraintStore) (l : Lattice) : Prop where
  slots : solution.values.map (·.1) = s.variableSlots
  qualifiers : ∀ x ∈ solution.values, x.2 ∈ l.qualifiers

namespace Fills

variable {solution : Solution} {s : ConstraintStore} {l : Lattice}

theorem of_pick (s : ConstraintStore) {pick : SlotId → Qualifier} (h : ∀ i, pick i ∈ l.qualifiers) :
    Fills ⟨s.variableSlots.map fun i => (i, pick i)⟩ s l := by
  refine ⟨?_, List.forall_mem_map.mpr fun i _ => h i⟩
  rw [List.map_map]
  exact List.map_id _

theorem nodup (h : solution.Fills s l) : (solution.values.map (·.1)).Nodup :=
  h.slots ▸ s.nodup_variableSlots

theorem exists_get? (h : solution.Fills s l) {i : SlotId} (hi : i ∈ s.variableSlots) :
    ∃ q ∈ l.qualifiers, solution.get? i = some q := by
  obtain ⟨⟨_, q⟩, hx, rfl⟩ := List.mem_map.mp (h.slots ▸ hi)
  exact ⟨q, h.qualifiers _ hx, get?_of_mem h.nodup hx⟩

theorem value_constant (h : solution.Fills s l) {i : SlotId} {q : Qualifier}
    (hq : s.constantOf i = some q) :
    solution.value s i = some q := by
  have hnone : solution.get? i = none := by
    rw [Option.eq_none_iff_forall_not_mem]
    intro p hp
    have hi := h.slots ▸ List.mem_map_of_mem (f := Prod.fst) (mem_of_get? hp)
    cases hq.symm.trans (ConstraintStore.mem_variableSlots.mp hi).2
  rw [value, hnone, hq]

theorem value_inferred (h : solution.Fills s l) {i : SlotId} (hi : i ∈ s.variableSlots) :
    solution.value s i = solution.get? i := by
  obtain ⟨q, -, hq⟩ := h.exists_get? hi
  rw [value, hq]

/-- A solution is the qualifiers of the inferred slots. -/
theorem ext {other : Solution} (h : solution.Fills s l) (h' : other.Fills s l)
    (hget : ∀ i ∈ s.variableSlots, solution.get? i = other.get? i) : solution = other := by
  have hvalues : ∀ {x : Solution}, x.Fills s l →
      x.values = s.variableSlots.map fun i => (i, (x.get? i).getD default) := by
    intro x hx
    rw [← hx.slots, List.map_map]
    refine (List.map_id _).symm.trans (List.map_congr_left fun y hy => ?_)
    simp [get?_of_mem hx.nodup (show (y.1, y.2) ∈ x.values from hy)]
  obtain ⟨values⟩ := solution
  obtain ⟨values'⟩ := other
  rw [mk.injEq]
  refine (hvalues h).trans ((List.map_congr_left fun i hi => ?_).trans (hvalues h').symm)
  rw [hget i hi]

/-- Together with the fixed qualifiers, every slot has one. -/
theorem assigns (h : solution.Fills s l) (hs : s.Within l) : s.Assigns l (solution.value s) := by
  intro i hi
  rcases hconst : s.constantOf i with _ | q
  · have hmem := ConstraintStore.mem_variableSlots.mpr ⟨hi, hconst⟩
    obtain ⟨q, hql, hq⟩ := h.exists_get? hmem
    exact ⟨q, hql, (h.value_inferred hmem).trans hq, fun _ hp => nomatch hp⟩
  · exact ⟨q, hs.constant hconst, h.value_constant hconst, fun p hp => (Option.some.inj hp).symm⟩

end Fills

end Solution

end Qualify
