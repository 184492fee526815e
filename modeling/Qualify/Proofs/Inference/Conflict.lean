import Qualify.Proofs.Inference.Correct

namespace Qualify.Inference

variable {r : Inference}

/-- A setting whose file can be written is no obstacle. -/
theorem exists_dump {path : Option String} (h : ∀ p, path = some p → r.refusal? p = none)
    (text : String) :
    ∃ dumps, r.dump path text = .ok dumps := by
  cases path with
  | none => exact ⟨[], rfl⟩
  | some p => exact ⟨[⟨p, text⟩], by simp only [dump, h p rfl]⟩

theorem finish_conflict {σ : Type} [Backend σ] {weighted encoded : Bool} {I : σ → Prop}
    {s : ConstraintStore} {e : Encoding} (hI : Backend.Reliable weighted I)
    (he : s.Encodes r.lattice encoded e) (hclosed : s.Closed) (hs : s.Within r.lattice)
    (hl : r.lattice.qualifiers ≠ []) {st : σ} (hst : I st) (hempty : e.models = ∅)
    (diagnostics : List Diagnostic) (stats : RunStats) :
    ∃ failure core, (r.finish s diagnostics stats e st).1 = .error failure ∧
      failure.error = .unsatisfiable core ∧
      s.IsConflict r.lattice core := by
  have hcounted : (fun c : Counted σ => I c.solver) ⟨st, 0⟩ := hst
  obtain ⟨core, st', hsearch, hcore⟩ :=
    search_conflict (Counted.reliable hI) he hclosed hs hl hcounted hempty
  simp only [finish, hsearch]
  exact ⟨_, core, rfl, rfl, hcore⟩

/-- What is reported of a conflict is one, down to the constraints that are all needed for it. Where
simplification succeeds and no choice of qualifiers satisfies the active constraints, solving fails
with the numbers of active constraints, in order and wishes apart, that no choice satisfies
together, while the others can be satisfied without any one of them. -/
theorem solve_conflict (r : Inference) {d : LatticeDescription}
    (hload : Lattice.load d = .ok r.lattice) (g : Generated)
    (hbuilt : g.store.Built (· = r.lattice)) (hwithin : g.store.Within r.lattice)
    {report : SimplifyReport} {s : ConstraintStore}
    (hsimplify : g.store.simplify r.lattice = (.ok report, s))
    (hnone : g.store.solutions r.lattice = ∅)
    (hdot : ∀ path, r.config.dumpDot = some path → r.refusal? path = none)
    (hcnf : ∀ path, r.config.dumpCnf = some path → r.refusal? path = none)
    (htime : r.config.solverTimeBudget = none) {solver : DiagramSolver} (hsolver : solver.Reachable)
    (hnodes : solver.config.nodeLimit = none) :
    ∃ failure core, (r.solve g solver).1.answer = .error failure ∧
      failure.error = .unsatisfiable core ∧ core ≠ [] ∧
      (core.Pairwise fun id id' => id.index < id'.index) ∧
      (∀ id ∈ core, ∃ c, (id, c) ∈ s.active ∧ c.isSoft = false) ∧ ¬s.Compatible r.lattice core ∧
      ∀ id ∈ core, s.Compatible r.lattice (core.filter (· ≠ id)) := by
  have hl := Lattice.load_bounded hload
  have hne := List.ne_nil_of_mem hl.bottom_mem
  obtain ⟨hsimplified, -⟩ := ConstraintStore.simplify_spec hl (hbuilt.settled hl)
  rw [hsimplify] at hsimplified
  have hclosed := hsimplified.settled.closed
  obtain ⟨e, hencode, he⟩ := ConstraintStore.encode_spec (l := r.lattice) hclosed
    (solver.config.weighted && r.config.softConstraints)
  have hempty : e.models = ∅ := by
    refine Set.eq_empty_iff_forall_notMem.mpr fun a ha => ?_
    obtain ⟨hfills, hall⟩ := (hsimplified.bijOn_reading hl hwithin he).mapsTo ha
    have hmem : e.reading r.lattice a ∈ g.store.solutions r.lattice :=
      ⟨hfills, fun x hx => hall _ (ConstraintStore.active_constraints hx)⟩
    rw [hnone] at hmem
    exact hmem
  have hunlimited : DiagramSolver.Unlimited solver.config.weighted
      (Backend.setTimeBudget r.config.solverTimeBudget solver) :=
    (hsolver.setTimeBudget r.config.solverTimeBudget).unlimited hnodes htime
  obtain ⟨graphs, hgraphs⟩ := exists_dump hdot (s.graph r.lattice (fun _ => none) {})
  obtain ⟨problems, hproblems⟩ := exists_dump hcnf e.cnf.wcnf
  obtain ⟨failure, core, hfinish, hfailure, hcore⟩ :=
    finish_conflict (DiagramSolver.reliable _) he hclosed
    (hsimplified.within hwithin) hne hunlimited hempty g.diagnostics
      (encodingStats (initialStats g) s report e)
  refine ⟨failure, core, ?_, hfailure, ?_, hcore.increasing, hcore.active, hcore.conflict.holds,
    fun id hid => not_not.mp (hcore.conflict.needed id hid)⟩
  · simp only [solve, hsimplify, hgraphs, (DiagramSolver.reliable _).weighted_eq hunlimited,
      hencode, hproblems]
    exact hfinish
  · rintro rfl
    exact hcore.conflict.holds (s.compatible_nil hne)

/-- Three slots that are to differ from each other, and two constraints that are no obstacle. -/
def triangleUnit : UnitConstraints where
  unit := "unit"
  slots :=
    ⟨#[⟨⟨"unit", "first", .field⟩, .inferred none⟩, ⟨⟨"unit", "second", .field⟩, .inferred none⟩,
    ⟨⟨"unit", "third", .field⟩, .inferred none⟩]⟩
  constraints := [(.inequality ⟨0⟩ ⟨1⟩, ⟨"unit", "use", .assignment⟩),
    (.subtype ⟨0⟩ ⟨2⟩, ⟨"unit", "use", .assignment⟩),
    (.preference ⟨1⟩ ⟨0⟩ 1, ⟨"unit", "second", .preference⟩),
    (.inequality ⟨1⟩ ⟨2⟩, ⟨"unit", "use", .assignment⟩),
    (.inequality ⟨2⟩ ⟨0⟩, ⟨"unit", "use", .assignment⟩)]

def triangleStore : ConstraintStore where
  slots := triangleUnit.slots
  entries := #[⟨.inequality ⟨0⟩ ⟨1⟩, [⟨"unit", "use", .assignment⟩], .active⟩,
    ⟨.subtype ⟨0⟩ ⟨2⟩, [⟨"unit", "use", .assignment⟩], .active⟩,
    ⟨.preference ⟨1⟩ ⟨0⟩ 1, [⟨"unit", "second", .preference⟩], .active⟩,
    ⟨.inequality ⟨1⟩ ⟨2⟩, [⟨"unit", "use", .assignment⟩], .active⟩,
    ⟨.inequality ⟨0⟩ ⟨2⟩, [⟨"unit", "use", .assignment⟩], .active⟩]

/-- Two qualifiers are too few for three slots that differ. -/
theorem triangleStore_solutions : triangleStore.solutions ConstraintStore.twoLevels = ∅ := by
  refine Set.eq_empty_iff_forall_notMem.mpr fun solution ⟨hfills, hactive⟩ => ?_
  have hslot : ∀ i ∈ triangleStore.variableSlots, ∃ n < 2,
      solution.value triangleStore i = some ⟨n⟩ := by
    intro i hi
    obtain ⟨q, hq, hget⟩ := hfills.exists_get? hi
    exact ⟨q.index, Lattice.mem_qualifiers.mp hq, (hfills.value_inferred hi).trans hget⟩
  obtain ⟨a, ha, hfirst⟩ := hslot ⟨0⟩ (by decide)
  obtain ⟨b, hb, hsecond⟩ := hslot ⟨1⟩ (by decide)
  obtain ⟨c, hc, hthird⟩ := hslot ⟨2⟩ (by decide)
  have hab := hactive (⟨0⟩, .inequality ⟨0⟩ ⟨1⟩) (by decide)
  have hbc := hactive (⟨3⟩, .inequality ⟨1⟩ ⟨2⟩) (by decide)
  have hac := hactive (⟨4⟩, .inequality ⟨0⟩ ⟨2⟩) (by decide)
  simp [Constraint.holds, hfirst, hsecond, hthird] at hab hbc hac
  omega

open ConstraintStore in
theorem solve_conflict_triangle : ∃ failure core,
    (solve ⟨⟨twoLevels, [], [], []⟩, {}, fun _ => none⟩ { store := triangleStore }
      (DiagramSolver.new { nodeLimit := none })).1.answer = .error failure ∧
    failure.error = .unsatisfiable core ∧ ¬triangleStore.Compatible twoLevels core ∧
    ∀ id ∈ core, triangleStore.Compatible twoLevels (core.filter (· ≠ id)) := by
  have hload : Lattice.load ⟨"levels", ["low", "high"], [("low", "high")], none, none⟩ =
      .ok twoLevels := by cbv
  have habsorb : ({} : ConstraintStore).absorb triangleUnit =
      .ok ([⟨0⟩, ⟨1⟩, ⟨2⟩], triangleStore) := by cbv
  have hsimplify : triangleStore.simplify twoLevels = (.ok {}, triangleStore) := by cbv
  obtain ⟨failure, core, hanswer, hfailure, -, -, -, hconflict, hneeded⟩ :=
    solve_conflict ⟨⟨twoLevels, [], [], []⟩, {}, fun _ => none⟩ hload { store := triangleStore }
      (.absorb .empty habsorb) (by decide) hsimplify triangleStore_solutions (by rintro _ ⟨⟩)
        (by rintro _ ⟨⟩) rfl
      (.new { nodeLimit := none }) rfl
  exact ⟨failure, core, hanswer, hfailure, hconflict, hneeded⟩

end Qualify.Inference
