import Qualify.Proofs.Encoding.Clauses
import Qualify.Proofs.Solution

namespace Qualify

namespace VarMap

variable {m : VarMap}

theorem lit?_eq_none {i : SlotId} {q : Qualifier} (h : i ∉ m.slots ∨ ¬q.index < m.width) :
    m.lit? i q = none := by
  unfold lit?
  split
  case isTrue hq => simpa using h.resolve_right (not_not.mpr hq)
  case isFalse => rfl

/-- The variables of the slot at a place. -/
theorem lit?_eq_some (hm : m.slots.Nodup) {place : Nat} {i : SlotId} (hi : m.slots[place]? = some i)
    {q : Qualifier} (hq : q.index < m.width) : m.lit? i q = some (m.variableAt place q).pos := by
  obtain ⟨hlt, rfl⟩ := List.getElem?_eq_some_iff.mp hi
  have hplace : m.slots.idxOf? m.slots[place] = some place := by
    rw [List.idxOf?_eq_some_iff]
    exact ⟨hlt, rfl, fun j hj h => hj.ne ((hm.getElem_inj_iff).mp h)⟩
  rw [lit?, if_pos hq, hplace, Option.map_some]

theorem decode?_variableAt {place : Nat} {i : SlotId} (hi : m.slots[place]? = some i)
    {q : Qualifier} (hq : q.index < m.width) : m.decode? (m.variableAt place q) = some (i, q) := by
  have hindex : (m.variableAt place q).index = m.width * place + q.index := by
    rw [Nat.mul_comm]
    rfl
  have hpos : 0 < m.width := Nat.zero_lt_of_lt hq
  rw [decode?, if_neg hpos.ne', hindex, Nat.mul_add_div hpos, Nat.div_eq_of_lt hq, Nat.add_zero, hi,
    Nat.mul_add_mod, Nat.mod_eq_of_lt hq, Option.map_some]

/-- Every variable belongs to a slot and a qualifier. -/
theorem exists_variableAt {k : Nat} (hk : k < m.numVars) :
    ∃ place i q, m.slots[place]? = some i ∧ q.index < m.width ∧
    (m.variableAt place q).number = k + 1 := by
  have hpos : 0 < m.width := Nat.pos_of_ne_zero fun h => by simp [numVars, h] at hk
  have hlt : k / m.width < m.slots.length := Nat.div_lt_of_lt_mul (by rwa [Nat.mul_comm])
  refine ⟨k / m.width, m.slots[k / m.width], ⟨k % m.width⟩, List.getElem?_eq_getElem hlt,
    Nat.mod_lt _ hpos, ?_⟩
  show k / m.width * m.width + k % m.width + 1 = k + 1
  rw [Nat.mul_comm, Nat.div_add_mod]

/-- Every counted variable is the literal of a slot and a qualifier. -/
theorem exists_lit? (hm : m.slots.Nodup) {v : Var} (hv : v.number ≤ m.numVars) :
    ∃ i q, i ∈ m.slots ∧
    q.index < m.width ∧ m.decode? v = some (i, q) ∧ m.lit? i q = some v.pos := by
  obtain ⟨number, positive⟩ := v
  obtain ⟨place, i, q, hplace, hq, hnumber⟩ :=
    m.exists_variableAt (show number - 1 < m.numVars by simp at hv; omega)
  obtain rfl : (m.variableAt place q).number = number := by omega
  exact ⟨i, q, List.mem_of_getElem? hplace, hq, decode?_variableAt hplace hq,
    lit?_eq_some hm hplace hq⟩

theorem number_le_numVars {place : Nat} {i : SlotId} (hi : m.slots[place]? = some i) {q : Qualifier}
    (hq : q.index < m.width) : (m.variableAt place q).number ≤ m.numVars := by
  obtain ⟨hlt, -⟩ := List.getElem?_eq_some_iff.mp hi
  calc place * m.width + q.index + 1 ≤ (place + 1) * m.width := by rw [Nat.succ_mul]; omega
    _ ≤ m.slots.length * m.width := Nat.mul_le_mul_right _ hlt

theorem lit?_bounded {i : SlotId} {q : Qualifier} {x : Lit} (h : m.lit? i q = some x) :
    x.var.number ≤ m.numVars := by
  unfold lit? at h
  split at h
  case isTrue hq =>
    obtain ⟨place, hplace, rfl⟩ := Option.map_eq_some_iff.mp h
    obtain ⟨hlt, -⟩ := List.idxOf?_eq_some_iff.mp hplace
    rw [Var.var_pos]
    exact number_le_numVars (List.getElem?_eq_getElem hlt) hq
  case isFalse => cases h

def assignment (m : VarMap) (solution : Solution) : Array Bool :=
  ((List.range m.numVars).map fun k =>
    (m.decode? ⟨k + 1, Nat.succ_pos k⟩).any fun x => solution.get? x.1 == some x.2).toArray

@[simp] theorem size_assignment (solution : Solution) :
    (m.assignment solution).size = m.numVars := by
  simp [assignment]

theorem valuation_assignment {v : Var} (hv : v.number ≤ m.numVars) (solution : Solution) :
    valuation (m.assignment solution) v.number =
      (m.decode? v).any fun x => solution.get? x.1 == some x.2 := by
  obtain ⟨k, hk⟩ : ∃ k, v.number = k + 1 := ⟨v.number - 1, by have := v.positive; omega⟩
  obtain rfl : v = ⟨k + 1, Nat.succ_pos k⟩ := by rw [Var.mk.injEq, hk]
  have hlt : k < m.numVars := hv
  simp [valuation, assignment, hlt]

theorem lit?_holds_assignment (hm : m.slots.Nodup) {i : SlotId} (hi : i ∈ m.slots) {q : Qualifier}
    (hq : q.index < m.width) (solution : Solution) :
    (m.lit? i q).any (·.holds (m.assignment solution)) = (solution.get? i == some q) := by
  obtain ⟨place, hplace⟩ := List.mem_iff_getElem?.mp hi
  rw [lit?_eq_some hm hplace hq, Option.any_some, Lit.holds_eq, Lit.eval, Var.var_pos,
    Var.isPositive_pos, valuation_assignment (number_le_numVars hplace hq),
    decode?_variableAt hplace hq, Option.any_some, beq_true]

end VarMap

namespace ConstraintStore

variable {l : Lattice} {m : VarMap} {a : Nat → Bool}

theorem atMostOne_eval (lits : Clause) : (∀ c ∈ atMostOne lits, Clause.eval a c = true) ↔
    lits.Pairwise fun x y => ¬(x.eval a = true ∧ y.eval a = true) := by
  induction lits with
  | nil => simp [atMostOne]
  | cons x rest ih =>
    rw [atMostOne, List.forall_mem_append, ih, List.pairwise_cons]
    refine and_congr_left fun _ => List.forall_mem_map.trans (forall₂_congr fun y _ => ?_)
    simp only [Clause.eval, List.any_cons, List.any_nil, Lit.eval_opposite]
    cases x.eval a <;> cases y.eval a <;> simp

/-- The clauses of a slot say that one of its variables is true. -/
theorem exactlyOne_eval (hm : m.slots.Nodup) (hwidth : m.width = l.size) {i : SlotId}
    (hi : i ∈ m.slots) :
    (∀ c ∈ exactlyOne l m i, Clause.eval a c = true) ↔
      ∃! q, q ∈ l.qualifiers ∧ (m.lit? i q).any (·.eval a) = true := by
  obtain ⟨place, hplace⟩ := List.mem_iff_getElem?.mp hi
  have hlit : ∀ q ∈ l.qualifiers, m.lit? i q = some (m.variableAt place q).pos := fun q hq =>
    VarMap.lit?_eq_some hm hplace (hwidth ▸ Lattice.mem_qualifiers.mp hq)
  have hlits : l.qualifiers.filterMap (m.lit? i) = l.qualifiers.map
      fun q => (m.variableAt place q).pos := by
    rw [List.filterMap_congr hlit, List.filterMap_eq_map']
  rw [exactlyOne, List.forall_mem_cons, hlits, atMostOne_eval, List.pairwise_map]
  have hany : ∀ q ∈ l.qualifiers, (m.lit? i q).any (·.eval a) =
      (m.variableAt place q).pos.eval a := by
    intro q hq
    rw [hlit q hq, Option.any_some]
  simp only [Clause.eval, List.any_map, List.any_eq_true, Function.comp_apply]
  constructor
  · rintro ⟨⟨q, hq, htrue⟩, hpairs⟩
    refine ⟨q, ⟨hq, (hany q hq).trans htrue⟩, fun p hp => ?_⟩
    have hsymm : Std.Symm fun p q =>
        ¬((m.variableAt place p).pos.eval a = true ∧ (m.variableAt place q).pos.eval a = true) :=
      ⟨fun _ _ h h' => h h'.symm⟩
    by_contra hne
    exact hpairs.forall hp.1 hq hne ⟨(hany p hp.1).symm.trans hp.2, htrue⟩
  · rintro ⟨q, ⟨hq, htrue⟩, huniq⟩
    refine ⟨⟨q, hq, (hany q hq).symm.trans htrue⟩, ?_⟩
    refine l.nodup_qualifiers.pairwise_of_forall_ne fun p hp p' hp' hne h => hne ?_
    rw [huniq p ⟨hp, (hany p hp).trans h.1⟩, huniq p' ⟨hp', (hany p' hp').trans h.2⟩]

end ConstraintStore

end Qualify
