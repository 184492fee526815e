import Qualify.Proofs.Encoding.Bounds
import Qualify.Proofs.Solver.Reliable

namespace Qualify

/-- Some choice of qualifiers for the inferred slots satisfies the active constraints of these
numbers. -/
def ConstraintStore.Compatible (s : ConstraintStore) (l : Lattice) (ids : List ConstraintId) :
    Prop :=
  ∃ solution : Solution, solution.Fills s l ∧
    ∀ id ∈ ids, ∀ c, (id, c) ∈ s.active → c.holds l (solution.value s) = some true

theorem ConstraintStore.Compatible.mono {s : ConstraintStore} {l : Lattice}
    {ids ids' : List ConstraintId} (h : s.Compatible l ids') (hsub : ∀ id ∈ ids, id ∈ ids') :
    s.Compatible l ids :=
  h.imp fun _ hsol => ⟨hsol.1, fun id hid => hsol.2 id (hsub id hid)⟩

/-- Without constraints any choice will do. -/
theorem ConstraintStore.compatible_nil (s : ConstraintStore) {l : Lattice}
    (hl : l.qualifiers ≠ []) :
    s.Compatible l [] := by
  obtain ⟨q, hq⟩ := List.exists_mem_of_ne_nil _ hl
  exact ⟨_, .of_pick s fun _ => hq, nofun⟩

namespace Encoding

section Membership

variable {e : Encoding} {ids : List ConstraintId}

def mentioned (e : Encoding) (ids : List ConstraintId) : List SlotId :=
  (e.clausesBehind ids).flatMap fun clause => clause.filterMap
    fun x => (e.vars.decode? x.var).map (·.1)

theorem mem_clausesBehind {clause : Clause} :
    clause ∈ e.clausesBehind ids ↔ ∃ id ∈ ids, (.constraint id, clause) ∈ e.hard := by
  rw [clausesBehind, List.mem_filterMap]
  constructor
  · rintro ⟨⟨origin | id, clause'⟩, hmem, hpick⟩
    · cases hpick
    · simp only [Option.ite_none_right_eq_some, List.contains_iff_mem, Option.some.injEq] at hpick
      exact ⟨id, hpick.1, hpick.2 ▸ hmem⟩
  · rintro ⟨id, hid, hmem⟩
    exact ⟨_, hmem, by simp [hid]⟩

theorem mem_restrictedTo {clause : Clause} : clause ∈ (e.restrictedTo ids).hard ↔
    (∃ i ∈ e.mentioned ids, (.wellFormed i, clause) ∈ e.hard) ∨
      ∃ id ∈ ids, (.constraint id, clause) ∈ e.hard := by
  rw [← mem_clausesBehind, restrictedTo, List.mem_toArray, List.mem_append]
  refine or_congr_left ?_
  rw [List.mem_filterMap]
  constructor
  · rintro ⟨⟨i | id, clause'⟩, hmem, hpick⟩
    · simp only [Option.ite_none_right_eq_some, List.contains_iff_mem, Option.some.injEq] at hpick
      exact ⟨i, hpick.1, hpick.2 ▸ hmem⟩
    · cases hpick
  · rintro ⟨i, hi, hmem⟩
    have hmentioned : ((e.clausesBehind ids).flatMap fun clause =>
        clause.filterMap fun x => (e.vars.decode? x.var).map (·.1)).contains i =
          true := List.contains_iff_mem.mpr hi
    exact ⟨_, hmem, if_pos hmentioned⟩

theorem mem_explain {core : List Nat} {id : ConstraintId} :
    id ∈ e.explain core ↔ ∃ clause ∈ e.cnf.clausesAt core, (.constraint id, clause) ∈ e.hard := by
  have hblamed : (core.filterMap fun i => (e.hard[i]?).map (·.2)) = e.cnf.clausesAt core := by
    simp [Cnf.clausesAt, cnf]
  rw [explain, List.mem_eraseDups, List.mem_filterMap, hblamed]
  constructor
  · rintro ⟨⟨i | id', clause⟩, hmem, hpick⟩
    · cases hpick
    · simp only [Option.ite_none_right_eq_some, List.contains_iff_mem, Option.some.injEq] at hpick
      exact ⟨clause, hpick.1, hpick.2 ▸ hmem⟩
  · rintro ⟨clause, hclause, hmem⟩
    exact ⟨_, hmem, by simp [hclause]⟩

end Membership

section Conflicts

variable {e : Encoding} {s : ConstraintStore} {l : Lattice} {encoded : Bool}
  (he : s.Encodes l encoded e)
  {ids : List ConstraintId}

include he in
/-- The clauses of a constraint are those of an active one that is no wish. -/
theorem active_of_hard {id : ConstraintId} {clause : Clause}
    (h : (.constraint id, clause) ∈ e.hard) :
    ∃ c, (id, c) ∈ s.active ∧ c.isSoft = false := by
  rw [he.hard, List.mem_append] at h
  rcases h with h | h
  · obtain ⟨i, hi⟩ := ConstraintStore.Encodes.mem_slotClauses h
    cases hi
  · obtain ⟨id', c, hc, horigin, hclause⟩ := ConstraintStore.Encodes.mem_constraintClauses.mp h
    cases horigin
    refine ⟨c, hc, ?_⟩
    cases c with
    | preference => exact (List.not_mem_nil hclause).elim
    | _ => rfl

include he in
/-- The clauses of the constraints stand in the order of these. -/
theorem hard_ordered :
    e.hard.Pairwise fun x y => ∀ id, x.1 = .constraint id → ∀ id', y.1 = .constraint id' →
    id.index ≤ id'.index := by
  have hslot : ∀ {x : ClauseOrigin × Clause} {id : ConstraintId},
      x ∈ ConstraintStore.slotClauses l e.vars →
      x.1 ≠ .constraint id := by
    intro x id hx hid
    obtain ⟨i, hi⟩ := ConstraintStore.Encodes.mem_slotClauses hx
    cases hi.symm.trans hid
  have hconstraint :
      ∀ {x : ConstraintId × Constraint SlotId} {y : ClauseOrigin × Clause} {id : ConstraintId},
      y ∈ (s.clauses l e.vars [] x.2).map (fun clause => (ClauseOrigin.constraint x.1, clause)) →
      y.1 = .constraint id → x.1 = id := by
    intro x y id hy hid
    obtain ⟨clause, -, rfl⟩ := List.mem_map.mp hy
    exact ClauseOrigin.constraint.inj hid
  rw [he.hard, List.pairwise_append]
  refine ⟨List.pairwise_of_forall_mem_list fun x hx y _ id hid => absurd hid (hslot hx), ?_,
    fun x hx y _ id hid => absurd hid (hslot hx)⟩
  refine List.pairwise_flatMap.mpr
    ⟨fun x _ => List.pairwise_of_forall_mem_list fun y hy z hz id hid id' hid' => ?_, ?_⟩
  · rw [← hconstraint hy hid, ← hconstraint hz hid']
  · refine s.pairwise_active.imp fun {x x'} hlt y hy z hz id hid id' hid' => ?_
    rw [← hconstraint hy hid, ← hconstraint hz hid']
    exact hlt.le

include he in
theorem explain_increasing (core : List Nat) :
    (e.explain core).Pairwise fun id id' => id.index < id'.index := by
  refine (List.Pairwise.eraseDups (R := fun id id' => id.index ≤ id'.index) _
    ((hard_ordered he).filterMap _ ?_)).imp fun {id id'} h => ?_
  · rintro ⟨i | id, clause⟩ ⟨i' | id', clause'⟩ hle b hb b' hb'
    · cases hb
    · cases hb
    · cases hb'
    · simp only [Option.ite_none_right_eq_some, Option.some.injEq] at hb hb'
      rw [← hb.2, ← hb'.2]
      exact hle id rfl id' rfl
  · refine lt_of_le_of_ne h.1 fun hindex => h.2 ?_
    rwa [← ConstraintId.mk.injEq] at hindex

variable (hclosed : s.Closed) (hwithin : s.Within l)

include he hclosed hwithin in
/-- A solution makes the clauses of all slots true, and those of the constraints that it
satisfies. -/
theorem satisfied_of_holds {solution : Solution} (hfills : solution.Fills s l)
    (hids : ∀ id ∈ ids, ∀ c, (id, c) ∈ s.active → c.holds l (solution.value s) = some true)
    {x : ClauseOrigin × Clause} (hx : x ∈ e.hard)
    (horigin : ∀ id, x.1 = .constraint id → id ∈ ids) :
    Clause.satisfied x.2 (e.vars.assignment solution) = true := by
  have hone := he.oneHot_assignment hfills
  obtain ⟨origin, clause⟩ := x
  cases origin with
  | wellFormed i => exact he.wellFormed_iff.mpr hone _ hx ⟨i, rfl⟩
  | constraint id =>
    obtain ⟨c, hc, -⟩ := active_of_hard he hx
    refine (he.constraint_iff hclosed hwithin hone hc).mpr ?_ _ hx rfl
    rw [he.reading_assignment hfills]
    exact hids id (horigin id rfl) c hc

include he in
/-- Where the slots of some constraints have one qualifier each, so can the others. -/
theorem exists_fills (hl : l.qualifiers ≠ []) {is : List SlotId} {assignment : Array Bool}
    (h : ∀ i ∈ is, i ∈ e.vars.slots → ∃! q, q ∈ l.qualifiers ∧
      (e.vars.lit? i q).any (·.holds assignment) = true) :
    ∃ solution : Solution, solution.Fills s l ∧ ∀ i ∈ is, i ∈ e.vars.slots → ∀ q ∈ l.qualifiers,
      (e.vars.lit? i q).any (·.holds assignment) = (solution.get? i == some q) := by
  have hpick : ∀ i, ∃ q ∈ l.qualifiers, i ∈ is → i ∈ e.vars.slots → ∀ p ∈ l.qualifiers,
      (e.vars.lit? i p).any (·.holds assignment) = (some q == some p) := by
    intro i
    by_cases hi : i ∈ is ∧ i ∈ e.vars.slots
    · obtain ⟨q, ⟨hq, htrue⟩, huniq⟩ := h i hi.1 hi.2
      refine ⟨q, hq, fun _ _ p hp => ?_⟩
      rw [Bool.eq_iff_iff, beq_iff_eq, Option.some.injEq]
      exact ⟨fun hholds => (huniq p ⟨hp, hholds⟩).symm, fun hpq => hpq ▸ htrue⟩
    · obtain ⟨q, hq⟩ := List.exists_mem_of_ne_nil _ hl
      exact ⟨q, hq, fun h₁ h₂ => absurd ⟨h₁, h₂⟩ hi⟩
  choose pick hmem hpick using hpick
  have hfills := Solution.Fills.of_pick s hmem
  refine ⟨_, hfills, fun i hi hi' q hq => ?_⟩
  rw [hpick i hi hi' q hq, Solution.get?_of_mem hfills.nodup
    (List.mem_map.mpr ⟨i, he.slots ▸ hi', rfl⟩)]

include he hclosed hwithin in
/-- The problem of some constraints alone has a model exactly if they are compatible. -/
theorem restrictedTo_iff (hl : l.qualifiers ≠ []) :
    (∃ assignment, (e.restrictedTo ids).evaluate assignment = true) ↔ s.Compatible l ids := by
  simp only [Cnf.evaluate, Array.all_eq_true_iff_forall_mem, mem_restrictedTo]
  constructor
  · rintro ⟨assignment, hall⟩
    have hone : ∀ i ∈ e.mentioned ids, i ∈ e.vars.slots →
        ∃! q, q ∈ l.qualifiers ∧ (e.vars.lit? i q).any (·.holds assignment) = true := by
      intro i hi hi'
      refine (ConstraintStore.exactlyOne_eval (a := valuation assignment) he.nodup he.width hi').mp
        fun clause hclause => ?_
      refine hall clause (.inl ⟨i, hi, ?_⟩)
      rw [he.hard]
      exact List.mem_append_left _ (List.mem_flatMap.mpr ⟨i, hi', List.mem_map_of_mem hclause⟩)
    obtain ⟨solution, hfills, hsame⟩ := exists_fills he hl hone
    refine ⟨solution, hfills, fun id hid c hc => ?_⟩
    have hone' := he.oneHot_assignment hfills
    rw [← he.reading_assignment hfills]
    refine (he.constraint_iff hclosed hwithin hone' hc).mp fun x hx horigin => ?_
    obtain ⟨origin, clause⟩ := x
    obtain rfl : origin = .constraint id := horigin
    rw [← hall clause (.inr ⟨id, hid, hx⟩), Clause.satisfied_eq, Clause.satisfied_eq]
    -- the two assignments agree on the variables of the clause
    refine Clause.eval_congr fun y hy => ?_
    obtain ⟨i, q, hi, hq, hdecode, hlit⟩ := VarMap.exists_lit? he.nodup (he.hard_below _ hx y hy)
    have hmentioned : i ∈ e.mentioned ids := List.mem_flatMap.mpr
      ⟨clause, mem_clausesBehind.mpr ⟨id, hid, hx⟩,
        List.mem_filterMap.mpr ⟨y, hy, by simp [hdecode]⟩⟩
    have hq' : q ∈ l.qualifiers := Lattice.mem_qualifiers.mpr (he.width ▸ hq)
    have hvalue := hsame i hmentioned hi q hq'
    rw [← VarMap.lit?_holds_assignment he.nodup hi hq, hlit, Option.any_some, Option.any_some,
      Lit.holds_eq, Lit.holds_eq] at hvalue
    simpa [Lit.eval] using hvalue.symm
  · rintro ⟨solution, hfills, hids⟩
    refine ⟨e.vars.assignment solution, fun clause hclause => ?_⟩
    rcases hclause with ⟨i, -, hmem⟩ | ⟨id, hid, hmem⟩
    · refine satisfied_of_holds he hclosed hwithin hfills hids hmem ?_
      rintro _ ⟨⟩
    · refine satisfied_of_holds he hclosed hwithin hfills hids hmem ?_
      rintro _ ⟨⟩
      exact hid

include he hclosed hwithin in
/-- The constraints behind clauses in conflict are in conflict. -/
theorem explain_conflict {core : List Nat} (hcore : ¬Clause.Consistent (e.cnf.clausesAt core)) :
    ¬s.Compatible l (e.explain core) := by
  rintro ⟨solution, hfills, hids⟩
  refine hcore ⟨valuation (e.vars.assignment solution), fun clause hclause => ?_⟩
  obtain ⟨k, -, hk⟩ := List.mem_filterMap.mp hclause
  obtain ⟨x, hx, rfl⟩ := List.mem_map.mp (List.mem_toArray.mp (Array.mem_of_getElem? hk))
  refine satisfied_of_holds he hclosed hwithin hfills hids hx fun id hid => ?_
  obtain ⟨origin, clause⟩ := x
  obtain rfl : origin = .constraint id := hid
  exact mem_explain.mpr ⟨clause, hclause, hx⟩

end Conflicts

end Encoding

/-- What may be reported of a conflict: active constraints that are no wishes, in order, which are
incompatible, each of them being needed for that. -/
structure ConstraintStore.IsConflict (s : ConstraintStore) (l : Lattice) (ids : List ConstraintId) :
    Prop where
  increasing : ids.Pairwise fun id id' => id.index < id'.index
  active : ∀ id ∈ ids, ∃ c, (id, c) ∈ s.active ∧ c.isSoft = false
  conflict : AllNeeded (fun ids => ¬s.Compatible l ids) ids

namespace Encoding

section Search

variable {σ : Type} [Backend σ] {weighted : Bool} {I : σ → Prop} (hI : Backend.Reliable weighted I)
  {e : Encoding}
  {s : ConstraintStore} {l : Lattice} {encoded : Bool} (he : s.Encodes l encoded e)
    (hclosed : s.Closed)
  (hwithin : s.Within l) (hl : l.qualifiers ≠ [])

theorem shrink_eq (rest kept : List ConstraintId) :
    (e.shrink kept rest : Solving σ _) = Solving.thin e.isConflicting kept rest := by
  induction rest generalizing kept with
  | nil => rfl
  | cons id rest ih => simp only [shrink, Solving.thin, ih]

include hI he hclosed hwithin hl

theorem isConflicting_meets (ids : List ConstraintId) {st : σ} (hst : I st) :
    Solving.Meets (e.isConflicting ids) st (fun b st' => (b = true ↔ ¬s.Compatible l ids) ∧ I st')
      fun _ => False := by
  refine (hI.solve_meets hst (he.restrictedTo_bounded ids) (List.forall_mem_nil _)).bind
    fun o st' ⟨ho, hst'⟩ => ?_
  rw [← restrictedTo_iff he hclosed hwithin hl]
  cases o with
  | sat m =>
    exact .pure ⟨iff_of_false Bool.false_ne_true (not_not.mpr ⟨m.assignment, ho.2.1.1⟩), hst'⟩
  | unsat core =>
    exact .pure ⟨iff_of_true rfl fun ⟨a, ha⟩ => ho a ⟨ha, List.forall_mem_nil _⟩, hst'⟩

theorem minimize_meets {core : List Nat} (hcore : ¬Clause.Consistent (e.cnf.clausesAt core))
    {st : σ} (hst : I st) :
    Solving.Meets (e.minimize core) st (fun ids st' => s.IsConflict l ids ∧ I st')
      fun _ => False := by
  have hconflict := explain_conflict he hclosed hwithin hcore
  have htest := fun ids {st : σ} (hst : I st) => isConflicting_meets hI he hclosed hwithin
    hl ids hst
  refine (htest (e.explain core) hst).bind fun b st' ⟨hb, hst'⟩ => ?_
  rw [hb.mpr hconflict, if_pos rfl, shrink_eq]
  have hmono : ∀ {ids ids' : List ConstraintId}, (∀ id ∈ ids, id ∈ ids') → ¬s.Compatible l ids →
      ¬s.Compatible l ids' :=
    fun hsub h h' => h (h'.mono hsub)
  refine (Solving.thin_meets hmono htest (e.explain core) [] hconflict nofun hst').mono
    (fun ids st'' ⟨⟨hsub, hneeded⟩, hst''⟩ => ⟨⟨?_, fun id hid => ?_, hneeded⟩, hst''⟩) fun _ => id
  · exact (explain_increasing he core).sublist hsub
  · obtain ⟨clause, -, hmem⟩ := mem_explain.mp (hsub.subset hid)
    exact active_of_hard he hmem

end Search

end Encoding

end Qualify
