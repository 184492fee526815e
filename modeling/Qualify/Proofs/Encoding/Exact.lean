import Qualify.Encoding.Decode
import Qualify.Proofs.Encoding.Variables

namespace Qualify

namespace ConstraintStore

variable (s : ConstraintStore) (l : Lattice)

def slotClauses (m : VarMap) : List (ClauseOrigin × Clause) :=
  m.slots.flatMap fun i => (exactlyOne l m i).map fun clause => (ClauseOrigin.wellFormed i, clause)

def constraintClauses (m : VarMap) (cs : List (ConstraintId × Constraint SlotId)) :
    List (ClauseOrigin × Clause) :=
  cs.flatMap fun x => (s.clauses l m [] x.2).map fun clause => (ClauseOrigin.constraint x.1, clause)

def softClause? (m : VarMap) : Constraint SlotId → Option SoftClause
  | .preference i q w => (m.lit? i q).map fun x => ⟨[x], w⟩
  | _ => none

/-- The parts of an encoding that count for its models. -/
structure Encodes (weighted : Bool) (e : Encoding) : Prop where
  vars : e.vars = VarMap.ofStore l.size s
  hard : e.hard = slotClauses l e.vars ++ s.constraintClauses l e.vars s.active
  soft : e.soft = if weighted then s.active.filterMap fun x => softClause? e.vars x.2 else []

variable {s l}

theorem encodeConstraint_spec (weighted : Bool) (e : Encoding) (id : ConstraintId)
    (c : Constraint SlotId) :
    (s.encodeConstraint l weighted e id c).vars = e.vars ∧
      (s.encodeConstraint l weighted e id c).hard =
        e.hard ++ s.constraintClauses l e.vars [(id, c)] ∧
      (s.encodeConstraint l weighted e id c).soft =
        e.soft ++ if weighted then (softClause? e.vars c).toList else [] := by
  cases c with
  | preference i q w =>
    rw [encodeConstraint, softClause?]
    cases e.vars.lit? i q <;> cases weighted <;> simp [constraintClauses, clauses]
  | _ => simp [encodeConstraint, softClause?, constraintClauses]

theorem encodeAll_spec (weighted : Bool) (cs : List (ConstraintId × Constraint SlotId))
    (e : Encoding) (hcs : ∀ x ∈ cs, Knows s.slots x.2) :
    ∃ e', s.encodeAll l weighted e cs = .ok e' ∧ e'.vars = e.vars ∧
      e'.hard = e.hard ++ s.constraintClauses l e.vars cs ∧
      e'.soft = e.soft ++ if weighted then cs.filterMap fun x => softClause? e.vars x.2
        else [] := by
  induction cs generalizing e with
  | nil => exact ⟨e, rfl, rfl, by simp [constraintClauses], by simp⟩
  | cons x cs ih =>
    obtain ⟨id, c⟩ := x
    obtain ⟨hc, hcs⟩ := List.forall_mem_cons.mp hcs
    obtain ⟨hvars, hhard, hsoft⟩ := encodeConstraint_spec (s := s) (l := l) weighted e id c
    obtain ⟨e', he', hvars', hhard', hsoft'⟩ := ih (s.encodeConstraint l weighted e id c) hcs
    refine ⟨e', ?_, hvars'.trans hvars, ?_, ?_⟩
    · rw [encodeAll, unknownSlot?_eq_none.mpr hc]
      exact he'
    · rw [hhard', hhard, hvars, List.append_assoc]
      simp [constraintClauses]
    · rw [hsoft', hsoft, hvars, List.append_assoc, List.filterMap_cons]
      cases weighted <;> cases softClause? e.vars c <;> simp

theorem active_constraints {id : ConstraintId} {c : Constraint SlotId} (h : (id, c) ∈ s.active) :
    c ∈ s.constraints :=
  List.mem_map_of_mem (List.mem_of_getElem? (mem_active.mp h))

theorem encode_spec (hs : s.Closed) (weighted : Bool) :
    ∃ e, s.encode l weighted = .ok e ∧ s.Encodes l weighted e := by
  obtain ⟨e, he, hvars, hhard, hsoft⟩ := encodeAll_spec (l := l) weighted s.active
    ⟨VarMap.ofStore l.size s, slotClauses l (VarMap.ofStore l.size s), [], []⟩
    fun x hx => hs _ (active_constraints hx)
  refine ⟨e, he, hvars, ?_, ?_⟩
  · rw [hhard, hvars]
  · rw [hsoft, hvars, List.nil_append]

end ConstraintStore

namespace Encoding

variable (e : Encoding) (l : Lattice)

def OneHot (assignment : Array Bool) : Prop :=
  ∀ i ∈ e.vars.slots, ∃! q, q ∈ l.qualifiers ∧ (e.vars.lit? i q).any (·.holds assignment) = true

def models : Set (Array Bool) :=
  {assignment | assignment.size = e.cnf.numVars ∧ e.cnf.evaluate assignment = true}

/-- The qualifiers read off an assignment. -/
def reading (assignment : Array Bool) : Solution :=
  ⟨e.vars.slots.map fun i => (i, (e.chosen l ⟨assignment, 0⟩ i).headD default)⟩

end Encoding

def ConstraintStore.solutions (s : ConstraintStore) (l : Lattice) : Set Solution :=
  {solution | solution.Fills s l ∧ ∀ x ∈ s.active, x.2.holds l (solution.value s) = some true}

namespace ConstraintStore.Encodes

variable {s : ConstraintStore} {l : Lattice} {weighted : Bool} {e : Encoding}

theorem slots (he : s.Encodes l weighted e) : e.vars.slots = s.variableSlots := by rw [he.vars]; rfl

theorem width (he : s.Encodes l weighted e) : e.vars.width = l.size := by rw [he.vars]; rfl

theorem nodup (he : s.Encodes l weighted e) : e.vars.slots.Nodup := he.slots ▸ s.nodup_variableSlots

/-- The clauses of the slots say that one variable of each slot is true. -/
theorem oneHot_iff (he : s.Encodes l weighted e) {assignment : Array Bool} :
    (∀ x ∈ slotClauses l e.vars, Clause.satisfied x.2 assignment = true) ↔
      e.OneHot l assignment := by
  simp only [slotClauses, List.mem_flatMap, List.mem_map]
  rw [Encoding.OneHot]
  constructor
  · intro h i hi
    refine (exactlyOne_eval (a := valuation assignment) he.nodup he.width hi).mp fun c hc => ?_
    exact h (.wellFormed i, c) ⟨i, hi, c, hc, rfl⟩
  · rintro h _ ⟨i, hi, c, hc, rfl⟩
    exact (exactlyOne_eval (a := valuation assignment) he.nodup he.width hi).mpr (h i hi) c hc

variable {assignment : Array Bool}

theorem chosen_eq (he : s.Encodes l weighted e) (hone : e.OneHot l assignment) (cost : Weight)
    {i : SlotId} (hi : i ∈ e.vars.slots) :
    ∃ x ∈ l.qualifiers, e.chosen l ⟨assignment, cost⟩ i = [x] ∧
      ∀ q, (e.vars.lit? i q).any (·.holds assignment) = decide (x = q) := by
  obtain ⟨x, ⟨hxl, hx⟩, huniq⟩ := hone i hi
  refine ⟨x, hxl, List.filter_eq_singleton l.nodup_qualifiers hxl hx
    fun y hy hy' => huniq y ⟨hy, hy'⟩, fun q => ?_⟩
  rw [Bool.eq_iff_iff, decide_eq_true_iff]
  refine ⟨fun hq => ?_, fun hq => hq ▸ hx⟩
  by_cases hql : q.index < e.vars.width
  · exact (huniq q ⟨Lattice.mem_qualifiers.mpr (he.width ▸ hql), hq⟩).symm
  · simp [VarMap.lit?_eq_none (.inr hql)] at hq

theorem reading_fills (he : s.Encodes l weighted e) (hone : e.OneHot l assignment) :
    (e.reading l assignment).Fills s l := by
  refine ⟨?_, fun x hx => ?_⟩
  · rw [Encoding.reading, List.map_map, ← he.slots]
    exact List.map_id _
  · obtain ⟨i, hi, rfl⟩ := List.mem_map.mp hx
    obtain ⟨y, hyl, hchosen, -⟩ := he.chosen_eq hone 0 hi
    rw [hchosen]
    exact hyl

/-- A variable is true where its slot has its qualifier. -/
theorem holds_iff_get? (he : s.Encodes l weighted e) (hone : e.OneHot l assignment) {i : SlotId}
    (hi : i ∈ e.vars.slots) (q : Qualifier) :
    (e.vars.lit? i q).any (·.holds assignment) =
      decide ((e.reading l assignment).get? i = some q) := by
  obtain ⟨x, -, hchosen, hx⟩ := he.chosen_eq hone 0 hi
  have hmem : (i, x) ∈ (e.reading l assignment).values :=
    List.mem_map.mpr ⟨i, hi, by rw [hchosen]; rfl⟩
  rw [hx q, Solution.get?_of_mem (he.reading_fills hone).nodup hmem]
  simp

theorem reads (he : s.Encodes l weighted e) (hs : s.Within l) (hone : e.OneHot l assignment)
    {i : SlotId} (hi : i.index < s.slots.size) : ∃ x, (e.reading l assignment).value s i = some x ∧
      Reads s l e.vars (valuation assignment) i x := by
  have hfills := he.reading_fills hone
  rcases hconst : s.constantOf i with _ | p
  · have hmem : i ∈ s.variableSlots := mem_variableSlots.mpr ⟨hi, hconst⟩
    obtain ⟨x, hxl, hx⟩ := hfills.exists_get? hmem
    refine ⟨x, (hfills.value_inferred hmem).trans hx, hxl, fun q => ?_⟩
    have hq := he.holds_iff_get? hone (he.slots ▸ hmem) q
    simp only [hx, Option.some.injEq] at hq
    rw [← hq, hasQualifier, hconst]
    cases e.vars.lit? i q <;> rfl
  · refine ⟨p, hfills.value_constant hconst, hs.constant hconst, fun q => ?_⟩
    rw [hasQualifier, hconst]
    rfl

/-- The clauses of an active constraint say that it holds. -/
theorem clauses_iff (he : s.Encodes l weighted e) (hclosed : s.Closed) (hs : s.Within l)
    (hone : e.OneHot l assignment) {id : ConstraintId} {c : Constraint SlotId}
    (hc : (id, c) ∈ s.active) :
    (∀ clause ∈ s.clauses l e.vars [] c, Clause.satisfied clause assignment = true) ↔
      c.holds l ((e.reading l assignment).value s) = some true := by
  have hreads := fun i hi => he.reads hs hone (hclosed c (active_constraints hc) i hi)
  have heval := clauses_eval [] c hreads
  simpa only [List.any_nil, Bool.false_eq_true, false_or, ← Clause.satisfied_eq] using heval

theorem mem_constraintClauses {m : VarMap} {cs : List (ConstraintId × Constraint SlotId)}
    {x : ClauseOrigin × Clause} :
    x ∈ s.constraintClauses l m cs ↔ ∃ id c, (id, c) ∈ cs ∧ x.1 = .constraint id ∧
      x.2 ∈ s.clauses l m [] c := by
  simp only [constraintClauses, List.mem_flatMap, List.mem_map, Prod.exists]
  constructor
  · rintro ⟨id, c, hc, clause, hclause, rfl⟩
    exact ⟨id, c, hc, rfl, hclause⟩
  · rintro ⟨id, c, hc, horigin, hclause⟩
    exact ⟨id, c, hc, x.2, hclause, by rw [← horigin]⟩

theorem mem_slotClauses {m : VarMap} {x : ClauseOrigin × Clause} (hx : x ∈ slotClauses l m) :
    ∃ i, x.1 = .wellFormed i := by
  obtain ⟨i, -, hx⟩ := List.mem_flatMap.mp hx
  obtain ⟨clause, -, rfl⟩ := List.mem_map.mp hx
  exact ⟨i, rfl⟩

/-- The models of an encoding are the one-hot assignments under which the active constraints
hold. -/
theorem evaluate_iff (he : s.Encodes l weighted e) (hclosed : s.Closed) (hs : s.Within l) :
    e.cnf.evaluate assignment = true ↔ e.OneHot l assignment ∧
      ∀ x ∈ s.active, x.2.holds l ((e.reading l assignment).value s) = some true := by
  have hall : e.cnf.evaluate assignment = true ↔ ∀ x ∈ e.hard,
      Clause.satisfied x.2 assignment = true := by
    simp [Cnf.evaluate, Encoding.cnf]
  rw [hall, he.hard, List.forall_mem_append, he.oneHot_iff]
  refine and_congr_right fun hone => ⟨fun h x hx => ?_, fun h x hx => ?_⟩
  · exact (he.clauses_iff hclosed hs hone hx).mp fun clause hclause =>
      h (.constraint x.1, clause) (mem_constraintClauses.mpr ⟨x.1, x.2, hx, rfl, hclause⟩)
  · obtain ⟨id, c, hc, -, hclause⟩ := mem_constraintClauses.mp hx
    exact (he.clauses_iff hclosed hs hone hc).mpr (h _ hc) _ hclause

theorem mapM_decodeSlot (he : s.Encodes l weighted e) (hone : e.OneHot l assignment)
    (cost : Weight) :
    e.vars.slots.mapM (e.decodeSlot l ⟨assignment, cost⟩) =
      .ok (e.reading l assignment).values := by
  have hslot : ∀ i ∈ e.vars.slots, e.decodeSlot l ⟨assignment, cost⟩ i =
      .ok (i, (e.chosen l ⟨assignment, 0⟩ i).headD default) := by
    intro i hi
    obtain ⟨x, -, hchosen, -⟩ := he.chosen_eq hone cost hi
    have hchosen' : e.chosen l ⟨assignment, 0⟩ i = [x] := hchosen
    rw [Encoding.decodeSlot, hchosen, hchosen']
    rfl
  rw [Encoding.reading]
  generalize e.vars.slots = is at hslot
  induction is with
  | nil => rfl
  | cons i is ih =>
    obtain ⟨hi, his⟩ := List.forall_mem_cons.mp hslot
    rw [List.mapM_cons, hi, ih his]
    rfl

/-- A model is decoded to what is read off it. -/
theorem decode_eq (he : s.Encodes l weighted e) (hclosed : s.Closed) (hs : s.Within l)
    (hsize : e.vars.numVars ≤ assignment.size) (hmodel : e.cnf.evaluate assignment = true)
    (cost : Weight) :
    e.decode l s ⟨assignment, cost⟩ = .ok (e.reading l assignment) := by
  obtain ⟨hone, hactive⟩ := (he.evaluate_iff hclosed hs).mp hmodel
  have hviolated : Encoding.violated? l s ⟨(e.reading l assignment).values⟩ = none := by
    rw [Encoding.violated?, Option.map_eq_none_iff, List.find?_eq_none]
    intro x hx
    simp [hactive x hx]
  rw [Encoding.decode, if_neg (Nat.not_lt.mpr hsize), he.mapM_decodeSlot hone]
  simp only [bind, Except.bind, hviolated]
  rfl

theorem oneHot_assignment (he : s.Encodes l weighted e) {solution : Solution}
    (hfills : solution.Fills s l) :
    e.OneHot l (e.vars.assignment solution) := by
  intro i hi
  have hholds : ∀ q ∈ l.qualifiers, (e.vars.lit? i q).any (·.holds (e.vars.assignment solution)) =
      (solution.get? i == some q) := fun q hq =>
    VarMap.lit?_holds_assignment he.nodup hi (he.width ▸ Lattice.mem_qualifiers.mp hq) solution
  obtain ⟨x, hxl, hx⟩ := hfills.exists_get? (he.slots ▸ hi)
  refine ⟨x, ⟨hxl, by rw [hholds x hxl, hx, beq_self_eq_true]⟩, fun q ⟨hql, hq⟩ => ?_⟩
  rw [hholds q hql, hx, beq_iff_eq] at hq
  exact (Option.some.inj hq).symm

theorem reading_assignment (he : s.Encodes l weighted e) {solution : Solution}
    (hfills : solution.Fills s l) :
    e.reading l (e.vars.assignment solution) = solution := by
  have hone := he.oneHot_assignment hfills
  have hread := he.reading_fills hone
  have hget : ∀ i ∈ s.variableSlots, (e.reading l (e.vars.assignment solution)).get? i =
      solution.get? i := by
    intro i hi
    obtain ⟨x, hxl, hx⟩ := hread.exists_get? hi
    have hholds := he.holds_iff_get? hone (he.slots ▸ hi) x
    rw [VarMap.lit?_holds_assignment he.nodup (he.slots ▸ hi)
      (he.width ▸ Lattice.mem_qualifiers.mp hxl)] at hholds
    simp only [hx, decide_true, beq_iff_eq] at hholds
    rw [hx, hholds]
  exact hread.ext hfills hget

theorem assignment_reading (he : s.Encodes l weighted e) (hone : e.OneHot l assignment)
    (hsize : assignment.size = e.vars.numVars) :
    e.vars.assignment (e.reading l assignment) = assignment := by
  have hval : ∀ k < e.vars.numVars,
      valuation (e.vars.assignment (e.reading l assignment)) (k + 1) =
          valuation assignment (k + 1) := by
    intro k hk
    obtain ⟨place, i, q, hplace, hq, hnumber⟩ := VarMap.exists_variableAt hk
    have hi := List.mem_of_getElem? hplace
    have hholds := he.holds_iff_get? hone hi q
    have hholds' := VarMap.lit?_holds_assignment he.nodup hi hq (e.reading l assignment)
    rw [VarMap.lit?_eq_some he.nodup hplace hq, Option.any_some, Lit.holds_eq, Lit.eval,
      Var.var_pos, Var.isPositive_pos, hnumber, beq_true] at hholds hholds'
    rw [hholds, hholds', Bool.eq_iff_iff, beq_iff_eq, decide_eq_true_iff]
  apply Array.ext
  · rw [VarMap.size_assignment, hsize]
  · intro k hk hk'
    have h := hval k (hsize ▸ hk')
    simpa only [valuation, Nat.add_sub_cancel, Array.getD_eq_getD_getElem?,
      Array.getElem?_eq_getElem hk, Array.getElem?_eq_getElem hk', Option.getD_some] using h

/-- Reading off maps the models one to one onto the solutions of the active constraints. -/
theorem bijOn_reading (he : s.Encodes l weighted e) (hclosed : s.Closed) (hs : s.Within l) :
    Set.BijOn (e.reading l) e.models (s.solutions l) := by
  have hinv : Set.InvOn e.vars.assignment (e.reading l) e.models (s.solutions l) := by
    refine ⟨?_, ?_⟩
    · rintro assignment ⟨hsize, hmodel⟩
      exact he.assignment_reading ((he.evaluate_iff hclosed hs).mp hmodel).1 hsize
    · rintro solution ⟨hfills, -⟩
      exact he.reading_assignment hfills
  refine hinv.bijOn ?_ ?_
  · rintro assignment ⟨-, hmodel⟩
    obtain ⟨hone, hactive⟩ := (he.evaluate_iff hclosed hs).mp hmodel
    exact ⟨he.reading_fills hone, hactive⟩
  · rintro solution ⟨hfills, hactive⟩
    refine ⟨VarMap.size_assignment solution,
      (he.evaluate_iff hclosed hs).mpr ⟨he.oneHot_assignment hfills, ?_⟩⟩
    rw [he.reading_assignment hfills]
    exact hactive

end ConstraintStore.Encodes

namespace ConstraintStore

variable {s : ConstraintStore} {l : Lattice} {weighted : Bool} {e : Encoding}
  {assignment : Array Bool}

/-- The soft clauses that a model violates are the preferences that its solution does not meet. -/
theorem violated_softClause? (he : s.Encodes l weighted e) (hone : e.OneHot l assignment)
    {c : Constraint SlotId} (hc : ∀ q ∈ c.qualifiers, q ∈ l.qualifiers) :
    ((softClause? e.vars c).filter fun x => !Clause.satisfied x.lits assignment).map (·.weight) =
      s.unmet? (e.reading l assignment).get? c := by
  cases c with
  | preference i q w =>
    have hq : q.index < e.vars.width :=
      he.width ▸ Lattice.mem_qualifiers.mp (hc q (by simp [Constraint.qualifiers]))
    rw [softClause?, unmet?, ← he.slots]
    by_cases hi : i ∈ e.vars.slots
    · have hholds := he.holds_iff_get? hone hi q
      -- the soft clause of a preference is the literal of its slot and qualifier
      obtain ⟨place, hplace⟩ := List.mem_iff_getElem?.mp hi
      rw [VarMap.lit?_eq_some he.nodup hplace hq, Option.any_some] at hholds
      rw [VarMap.lit?_eq_some he.nodup hplace hq, Option.map_some]
      by_cases hget : (e.reading l assignment).get? i = some q <;>
        simp [Clause.satisfied, hholds, hget, hi, Option.filter]
    · simp [VarMap.lit?_eq_none (.inl hi), hi]
  | _ => rfl

theorem Encodes.softCost_eq (he : s.Encodes l true e) (hs : s.Within l)
    (hone : e.OneHot l assignment) :
    e.cnf.softCost assignment =
      Weight.total (s.active.filterMap fun x => s.unmet? (e.reading l assignment).get? x.2) := by
  have hsoft : e.cnf.soft.toList = s.active.filterMap fun x => softClause? e.vars x.2 := by
    rw [Encoding.cnf, List.toList_toArray, he.soft, if_pos rfl]
  rw [Cnf.softCost, hsoft, List.filter_filterMap, List.map_filterMap]
  refine congrArg Weight.total (List.filterMap_congr fun x hx => ?_)
  exact violated_softClause? he hone fun q hq => hs.constraint (active_constraints hx) hq

theorem Encodes.wellFormed_iff (he : s.Encodes l weighted e) :
    (∀ x ∈ e.hard, (∃ i, x.1 = .wellFormed i) → Clause.satisfied x.2 assignment = true) ↔
      e.OneHot l assignment := by
  rw [← he.oneHot_iff, he.hard]
  refine ⟨fun h x hx => h x (List.mem_append_left _ hx) (Encodes.mem_slotClauses hx),
    fun h x hx hform => ?_⟩
  rcases List.mem_append.mp hx with hx | hx
  · exact h x hx
  · obtain ⟨i, hi⟩ := hform
    obtain ⟨id, c, -, horigin, -⟩ := Encodes.mem_constraintClauses.mp hx
    cases hi.symm.trans horigin

/-- The clauses that come from an active constraint say that it holds. -/
theorem Encodes.constraint_iff (he : s.Encodes l weighted e) (hclosed : s.Closed) (hs : s.Within l)
    (hone : e.OneHot l assignment) {id : ConstraintId} {c : Constraint SlotId}
    (hc : (id, c) ∈ s.active) :
    (∀ x ∈ e.hard, x.1 = .constraint id → Clause.satisfied x.2 assignment = true) ↔
      c.holds l ((e.reading l assignment).value s) = some true := by
  rw [← he.clauses_iff hclosed hs hone hc, he.hard]
  constructor
  · intro h clause hclause
    exact h (.constraint id, clause)
      (List.mem_append_right _ (Encodes.mem_constraintClauses.mpr ⟨id, c, hc, rfl, hclause⟩)) rfl
  · intro h x hx hid
    rcases List.mem_append.mp hx with hx | hx
    · obtain ⟨i, hi⟩ := Encodes.mem_slotClauses hx
      cases hi.symm.trans hid
    · obtain ⟨id', c', hc', horigin, hclause⟩ := Encodes.mem_constraintClauses.mp hx
      -- a number belongs to one constraint
      obtain rfl := ClauseOrigin.constraint.inj (hid.symm.trans horigin)
      have hsame := (mem_active.mp hc).symm.trans (mem_active.mp hc')
      rw [Option.some.injEq, Prod.mk.injEq] at hsame
      exact h _ (hsame.1 ▸ hclause)

/-- The encoding is exact. The clauses of the slots say that each inferred slot has one qualifier,
those of a constraint say that it holds, decoding maps the models one to one onto the solutions, and
the cost of a model is the total weight of the preferences that its solution does not meet. -/
theorem encode_exact {under : Lattice → Prop} (s : ConstraintStore) (l : Lattice)
    (hbuilt : s.Built under) (hwithin : s.Within l) (weighted : Bool) :
    ∃ e, s.encode l weighted = .ok e ∧
      (∀ assignment,
        (∀ x ∈ e.hard, (∃ i, x.1 = .wellFormed i) → Clause.satisfied x.2 assignment = true) ↔
          ∀ i ∈ s.variableSlots, ∃! q, q ∈ l.qualifiers ∧
            (e.vars.lit? i q).any (·.holds assignment) = true) ∧
      (∀ assignment, e.OneHot l assignment → ∀ id c, (id, c) ∈ s.active →
        ((∀ x ∈ e.hard, x.1 = .constraint id → Clause.satisfied x.2 assignment = true) ↔
          c.holds l ((e.reading l assignment).value s) = some true)) ∧
      (∀ model : Model, model.assignment ∈ e.models →
        e.decode l s model = .ok (e.reading l model.assignment)) ∧
      Set.BijOn (e.reading l) e.models (s.solutions l) ∧
      (weighted = true → ∀ assignment ∈ e.models, e.cnf.softCost assignment =
        Weight.total (s.active.filterMap fun x => s.unmet? (e.reading l assignment).get? x.2)) := by
  have hclosed := hbuilt.closed_and_sourced.1
  obtain ⟨e, hencode, he⟩ := encode_spec (l := l) hclosed weighted
  refine ⟨e, hencode, fun assignment => ?_, fun assignment hone id c hc => ?_,
    fun model hmodel => ?_, ?_, ?_⟩
  · rw [he.wellFormed_iff, ← he.slots]
    rfl
  · exact he.constraint_iff hclosed hwithin hone hc
  · exact he.decode_eq hclosed hwithin hmodel.1.ge hmodel.2 model.cost
  · exact he.bijOn_reading hclosed hwithin
  · rintro rfl assignment ⟨-, hmodel⟩
    exact he.softCost_eq hwithin ((he.evaluate_iff hclosed hwithin).mp hmodel).1

/-- Two inferred slots and a fixed one, under a conditional constraint and two preferences that
cannot both be met. -/
def conditionalUnit : UnitConstraints where
  unit := "unit"
  slots :=
    ⟨#[⟨⟨"unit", "condition", .field⟩, .inferred none⟩,
    ⟨⟨"unit", "value", .parameter⟩, .inferred (some ⟨0⟩)⟩,
    ⟨⟨"unit", "limit", .result⟩, .fixed ⟨1⟩⟩]⟩
  constraints :=
    [(.existential ⟨0⟩ ⟨0⟩ [.equality ⟨2⟩ ⟨1⟩] [.subtype ⟨1⟩ ⟨2⟩], ⟨"unit", "use", .assignment⟩),
    (.preference ⟨0⟩ ⟨0⟩ 2, ⟨"unit", "condition", .preference⟩),
    (.preference ⟨1⟩ ⟨0⟩ 3, ⟨"unit", "value", .preference⟩)]

def conditionalStore : ConstraintStore where
  slots := conditionalUnit.slots
  entries :=
    #[⟨.existential ⟨0⟩ ⟨0⟩ [.equality ⟨1⟩ ⟨2⟩] [.subtype ⟨1⟩ ⟨2⟩], [⟨"unit", "use", .assignment⟩],
    .active⟩, ⟨.preference ⟨0⟩ ⟨0⟩ 2, [⟨"unit", "condition", .preference⟩], .active⟩,
    ⟨.preference ⟨1⟩ ⟨0⟩ 3, [⟨"unit", "value", .preference⟩], .active⟩]

def twoLevels : Lattice where
  name := "levels"
  names := #["low", "high"]
  up := #[.ofList [0, 1], .ofList [1]]
  down := #[.ofList [0], .ofList [0, 1]]
  top := ⟨1⟩
  bottom := ⟨0⟩
  lubs := #[⟨0⟩, ⟨1⟩, ⟨1⟩, ⟨1⟩]
  glbs := #[⟨0⟩, ⟨0⟩, ⟨0⟩, ⟨1⟩]

/-- The fixed slot is above both qualifiers, so that all four solutions but one are left: where the
condition is low, the value is not. -/
theorem encode_exact_conditional :
    conditionalStore.Built (fun _ => True) ∧ conditionalStore.Within twoLevels ∧
    ∃ e, conditionalStore.encode twoLevels true = .ok e ∧ e.hard.length = 5 ∧
      Set.BijOn (e.reading twoLevels) e.models (conditionalStore.solutions twoLevels) := by
  have habsorb : ({} : ConstraintStore).absorb conditionalUnit =
      .ok ([⟨0⟩, ⟨1⟩, ⟨2⟩], conditionalStore) := by cbv
  have hbuilt : conditionalStore.Built fun _ => True := .absorb .empty habsorb
  have hwithin : conditionalStore.Within twoLevels := by decide
  obtain ⟨e, hencode, -, -, -, hbij, -⟩ :=
    encode_exact conditionalStore twoLevels hbuilt hwithin true
  have hclauses : (conditionalStore.encode twoLevels true).map (·.hard.length) = .ok 5 := by cbv
  rw [hencode] at hclauses
  exact ⟨hbuilt, hwithin, e, hencode, Except.ok.inj hclauses, hbij⟩

end ConstraintStore

end Qualify
