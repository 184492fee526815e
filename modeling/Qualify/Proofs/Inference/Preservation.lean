import Qualify.Proofs.Encoding.Exact
import Qualify.Proofs.Solver.Selectors
import Qualify.Proofs.Store.Equivalence

namespace Qualify

namespace ConstraintStore

def SolvedBy (s : ConstraintStore) (l : Lattice) (solution : Solution) : Prop :=
  solution.Fills s l ∧ ∀ c ∈ s.constraints, c.holds l (solution.value s) = some true

/-- The total weight of the preferences of inferred slots that the solution does not meet. -/
def regret (s : ConstraintStore) (solution : Solution) : Nat :=
  Weight.sum (s.constraints.filterMap (s.unmet? solution.get?))

namespace Simplified

variable {l : Lattice} {s s' : ConstraintStore}

theorem value_eq (h : Simplified l s s') (solution : Solution) :
    solution.value s' = solution.value s := by
  funext i
  rw [Solution.value, Solution.value, constantOf, constantOf, h.slots]

theorem fills_iff (h : Simplified l s s') {solution : Solution} :
    solution.Fills s' l ↔ solution.Fills s l := by
  constructor <;> rintro ⟨hslots, hqualifiers⟩ <;> refine ⟨?_, hqualifiers⟩
  · rw [hslots, h.variableSlots]
  · rw [hslots, h.variableSlots]

theorem within (h : Simplified l s s') (hs : s.Within l) : s'.Within l := by
  obtain ⟨added, hadded, hinner⟩ := h.kept
  intro q hq
  rcases List.mem_append.mp hq with hq | hq
  · exact hs q (List.mem_append_left _ (h.slots ▸ hq))
  · obtain ⟨c, hc, hq⟩ := List.mem_flatMap.mp hq
    rw [hadded, List.mem_append] at hc
    rcases hc with hc | hc
    · exact hs.constraint hc hq
    · obtain ⟨x, hx, hin, -⟩ := hinner c hc
      exact hs.constraint hx (Constraint.qualifiers_subset_of_inner x hin hq)

/-- The solutions of what is left are those of the whole store. -/
theorem mem_solutions_iff (h : Simplified l s s') (hl : l.Bounded) (hs : s.Within l)
    {solution : Solution} :
    solution ∈ s'.solutions l ↔ s.SolvedBy l solution := by
  constructor
  · rintro ⟨hfills, hactive⟩
    have hall := (h.settled.activeHold_iff hl (hfills.assigns (h.within hs))).mp hactive
    obtain ⟨added, hadded, -⟩ := h.kept
    refine ⟨h.fills_iff.mp hfills, fun c hc => ?_⟩
    rw [← h.value_eq]
    exact hall c (hadded ▸ List.mem_append_left _ hc)
  · rintro ⟨hfills, hall⟩
    refine ⟨h.fills_iff.mpr hfills, fun x hx => ?_⟩
    rw [h.value_eq]
    exact h.implied _ (hfills.assigns hs) hall _ (active_constraints hx)

/-- The models of the encoding are read as the solutions of the whole store, each from one model. -/
theorem bijOn_reading (h : Simplified l s s') (hl : l.Bounded) (hs : s.Within l) {weighted : Bool}
    {e : Encoding} (he : s'.Encodes l weighted e) :
    Set.BijOn (e.reading l) e.models {solution | s.SolvedBy l solution} := by
  have hsolutions : s'.solutions l = {solution | s.SolvedBy l solution} :=
    Set.ext fun _ => h.mem_solutions_iff hl hs
  exact hsolutions ▸ he.bijOn_reading h.settled.closed (h.within hs)

end Simplified

section Preferences

variable {l : Lattice} {s s' : ConstraintStore}

theorem softClause?_weight (m : VarMap) (c : Constraint SlotId) :
    (softClause? m c).map (·.weight) = none ∨ (softClause? m c).map (·.weight) = c.weight? := by
  cases c with
  | preference i q w =>
    rw [softClause?]
    cases m.lit? i q
    · exact .inl rfl
    · exact .inr rfl
  | _ => exact .inl rfl

/-- With weights that fit, a model costs what its solution leaves unmet of the whole store. -/
theorem Simplified.toNat_softCost (h : Simplified l s s') (hs : s.Within l) {e : Encoding}
    (he : s'.Encodes l true e) (hnested : ∀ c ∈ s.constraints, ∀ x ∈ c.inner, x.isSoft = false)
    (hsum : Weight.sum (s.constraints.filterMap Constraint.weight?) < 2 ^ 64)
    {assignment : Array Bool} (hmodel : assignment ∈ e.models) :
    (e.cnf.softCost assignment).toNat = s.regret (e.reading l assignment) := by
  have hone := ((he.evaluate_iff h.settled.closed (h.within hs)).mp hmodel.2).1
  rw [he.softCost_eq (h.within hs) hone, h.unmet_eq hnested, regret]
  exact Weight.toNat_total_of_lt (lt_of_le_of_lt (Weight.sum_filterMap_le (unmet?_le _) _) hsum)

theorem active_sublist (s : ConstraintStore) : (s.active.map (·.2)).Sublist s.constraints := by
  rw [active_eq]
  exact List.filter_sublist.map _

theorem Encodes.totalWeight_le {weighted : Bool} {e : Encoding} (he : s.Encodes l weighted e) :
    totalWeight e.cnf.soft.toList ≤ Weight.sum (s.constraints.filterMap Constraint.weight?) := by
  have hsoft : e.cnf.soft.toList = e.soft := List.toList_toArray
  rw [totalWeight, hsoft, he.soft]
  split
  case isFalse => exact Nat.zero_le _
  case isTrue =>
    calc Weight.sum ((s.active.filterMap fun x => softClause? e.vars x.2).map (·.weight))
        = Weight.sum
            ((s.active.map (·.2)).filterMap fun c => (softClause? e.vars c).map (·.weight)) := by
          rw [List.map_filterMap, List.filterMap_map]
          rfl
      _ ≤ Weight.sum ((s.active.map (·.2)).filterMap Constraint.weight?) :=
          Weight.sum_filterMap_le (softClause?_weight e.vars) _
      _ ≤ Weight.sum (s.constraints.filterMap Constraint.weight?) :=
          Weight.sum_le_of_sublist (s.active_sublist.filterMap _)

end Preferences

end ConstraintStore

end Qualify
