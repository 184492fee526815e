import Qualify.Inference.Run
import Qualify.Proofs.Encoding.Conflict
import Qualify.Proofs.Encoding.TieBreak
import Qualify.Proofs.Inference.Preservation

namespace Qualify

theorem bind_of_ok {ε σ α β : Type} {x : ExceptT ε (StateM σ) α} {f : α → ExceptT ε (StateM σ) β}
    {st st' : σ} {a : α} (h : x st = (.ok a, st')) : (x >>= f) st = f a st' := by
  rw [bind_run, h]

/-- A model that a weighted solver may answer with: its cost is that of its soft clauses, and the
least one. -/
structure Encoding.Optimal (e : Encoding) (weighted : Bool) (m : Model) : Prop where
  mem_models : m.assignment ∈ e.models
  cost_eq : weighted = true → m.cost = e.cnf.softCost m.assignment
  cost_le : weighted = true → totalWeight e.cnf.soft.toList < 2 ^ 64 →
    ∀ assignment ∈ e.models, m.cost ≤ e.cnf.softCost assignment

/-- An optimal model is read as a solution of least regret. -/
theorem Encoding.Optimal.regret_least {l : Lattice} {s s' : ConstraintStore} {e : Encoding}
    {m : Model} (hm : e.Optimal true m) (hs : s.Simplified l s') (hl : l.Bounded)
    (hwithin : s.Within l) (he : s'.Encodes l true e)
    (hnested : ∀ c ∈ s.constraints, ∀ x ∈ c.inner, x.isSoft = false)
    (hsum : Weight.sum (s.constraints.filterMap Constraint.weight?) < 2 ^ 64) :
    m.cost.toNat = s.regret (e.reading l m.assignment) ∧
      ∀ solution, s.SolvedBy l solution → m.cost.toNat ≤ s.regret solution := by
  have hexact : ∀ assignment ∈ e.models,
      (e.cnf.softCost assignment).toNat = s.regret (e.reading l assignment) :=
    fun _ => hs.toNat_softCost hwithin he hnested hsum
  have htotal : totalWeight e.cnf.soft.toList < 2 ^ 64 := by
    refine lt_of_le_of_lt he.totalWeight_le ?_
    rwa [hs.weights_eq hnested fun c => .inr rfl]
  refine ⟨by rw [hm.cost_eq rfl, hexact _ hm.mem_models], fun solution hsol => ?_⟩
  obtain ⟨assignment, hmodel, rfl⟩ := (hs.bijOn_reading hl hwithin he).surjOn hsol
  rw [← hexact _ hmodel]
  exact UInt64.le_iff_toNat_le.mp (hm.cost_le rfl htotal assignment hmodel)

namespace Inference

variable {r : Inference} {s : ConstraintStore} {e : Encoding}

section Search

theorem calling_of_ok {σ α : Type} {name : String} {run : Solving σ α} {st st' : σ} {a : α}
    (h : run st = (.ok a, st')) : calling name run st = (.ok a, st') := by
  simp only [calling, h]
  rfl

variable {σ : Type} [Backend σ] {weighted encoded : Bool} {I : σ → Prop}

/-- Where there is no model, the search ends with a conflict. -/
theorem search_conflict (hI : Backend.Reliable weighted I) (he : s.Encodes r.lattice encoded e)
    (hclosed : s.Closed) (hs : s.Within r.lattice) (hl : r.lattice.qualifiers ≠ []) {st : σ}
    (hst : I st) (hempty : e.models = ∅) :
    ∃ core st', r.search s e st = (.error (.unsatisfiable core), st') ∧
      s.IsConflict r.lattice core := by
  obtain ⟨o, st₁, hsolve, hanswers, hst₁⟩ :=
    (hI.solve_meets hst he.bounded (List.forall_mem_nil _)).exists_eq
  cases o with
  | sat m =>
    have hmem : m.assignment ∈ e.models := ⟨hanswers.1, hanswers.2.1.1⟩
    rw [hempty] at hmem
    exact hmem.elim
  | unsat core =>
    obtain ⟨ks, rfl, hks⟩ := hI.solve_core hst he.bounded hsolve
    obtain ⟨ids, st₂, hmin, hids, -⟩ :=
      (Encoding.minimize_meets hI he hclosed hs hl hks.conflict.holds hst₁).exists_eq
    have hsearch : r.search s e st = _ :=
        bind_of_ok (x := calling (Backend.name st) (Backend.solve e.cnf [])) (calling_of_ok hsolve)
    exact ⟨ids, st₂, hsearch.trans (bind_of_ok (calling_of_ok hmin)), hids⟩

/-- The search ends with an optimal model, or with a conflict if there is none. -/
theorem search_cases (hI : Backend.Reliable weighted I) (he : s.Encodes r.lattice encoded e)
    (hclosed : s.Closed) (hs : s.Within r.lattice) (hl : r.lattice.qualifiers ≠ []) {st : σ}
    (hst : I st) :
    (∃ m st', r.search s e st = (.ok (e.reading r.lattice m.assignment, m.cost), st') ∧
      e.Optimal weighted m) ∨
      ∃ core st', r.search s e st = (.error (.unsatisfiable core), st') ∧ e.models = ∅ := by
  rcases e.models.eq_empty_or_nonempty with hempty | ⟨a, ha⟩
  · obtain ⟨core, st', hsearch, -⟩ := search_conflict hI he hclosed hs hl hst hempty
    exact .inr ⟨core, st', hsearch, hempty⟩
  · obtain ⟨o, st₁, hsolve, hanswers, hst₁⟩ :=
      (hI.solve_meets hst he.bounded (List.forall_mem_nil _)).exists_eq
    cases o with
    | unsat core => exact absurd ⟨ha.2, List.forall_mem_nil _⟩ (hanswers a)
    | sat m =>
      have hone : ∀ a ∈ e.models, e.OneHot r.lattice a :=
        fun a ha => ((he.evaluate_iff hclosed hs).mp ha.2).1
      obtain ⟨m', st₂, htie, hm', -⟩ := (Encoding.tieBreak_meets hI he hone r.config.tieBreak
        (Encoding.candidate_of_answers hanswers UInt64.le_rfl) hst₁).exists_eq
      have hdecode := he.decode_eq hclosed hs hm'.mem_models.1.ge hm'.mem_models.2 m'.cost
      refine .inl ⟨m', st₂, ?_, hm'.mem_models, hm'.cost_eq, fun hw hsum assignment ha => ?_⟩
      · have hsearch : r.search s e st = _ :=
            bind_of_ok (x := calling (Backend.name st) (Backend.solve e.cnf []))
            (calling_of_ok hsolve)
        refine (hsearch.trans (bind_of_ok (calling_of_ok htie))).trans ?_
        simp only [hdecode]
        rfl
      · -- a tie-break never raises the cost, and the first model has the least
        have hleast := hanswers.2.2
        rw [if_pos hw] at hleast
        exact UInt64.le_trans hm'.cost_le (hleast.2 hsum assignment ⟨ha.2, List.forall_mem_nil _⟩)

theorem finish_cases (hI : Backend.Reliable weighted I) (he : s.Encodes r.lattice encoded e)
    (hclosed : s.Closed) (hs : s.Within r.lattice) (hl : r.lattice.qualifiers ≠ []) {st : σ}
    (hst : I st) (diagnostics : List Diagnostic) (stats : RunStats) :
    (∃ result m, (r.finish s diagnostics stats e st).1 = .ok result ∧ e.Optimal weighted m ∧
      result.store = s ∧
        result.solution = e.reading r.lattice m.assignment ∧ result.stats.cost = m.cost) ∨
      ∃ failure core, (r.finish s diagnostics stats e st).1 = .error failure ∧ e.models = ∅ ∧
        failure.error = .unsatisfiable core := by
  unfold finish
  have hcounted : (fun c : Counted σ => I c.solver) ⟨st, 0⟩ := hst
  rcases search_cases (Counted.reliable hI) he hclosed hs hl hcounted with
    ⟨m, st', hsearch, hm⟩ | ⟨core, st', hsearch, hempty⟩
  · simp only [hsearch]
    exact .inl ⟨_, m, rfl, hm, rfl, rfl, rfl⟩
  · simp only [hsearch]
    exact .inr ⟨_, core, rfl, hempty, rfl⟩

end Search

/-- The answers of a run on a store: a contradiction of the fixed slots, or what the search for
models of the simplified store gave. -/
theorem solve_cases {σ : Type} [Backend σ] {weighted : Bool} {I : σ → Prop}
    (hI : Backend.Reliable weighted I) {g : Generated} (hl : r.lattice.Bounded)
    (hsettled : g.store.Settled r.lattice) (hwithin : g.store.Within r.lattice)
    (hdot : r.config.dumpDot = none) (hcnf : r.config.dumpCnf = none) {st : σ}
    (hst : I (Backend.setTimeBudget r.config.solverTimeBudget st)) :
    (∃ failure k, (r.solve g st).1.answer = .error failure ∧ failure.error = .contradiction k ∧
        ¬∃ solution, g.store.SolvedBy r.lattice solution) ∨
      ∃ s e, g.store.Simplified r.lattice s ∧
        s.Encodes r.lattice (weighted && r.config.softConstraints) e ∧
        ((∃ result m, (r.solve g st).1.answer = .ok result ∧ e.Optimal weighted m ∧
          result.store = s ∧
            result.solution = e.reading r.lattice m.assignment ∧ result.stats.cost = m.cost) ∨
          ∃ failure core, (r.solve g st).1.answer = .error failure ∧ e.models = ∅ ∧
            failure.error = .unsatisfiable core) := by
  obtain ⟨hsimplified, herror⟩ := ConstraintStore.simplify_spec hl hsettled
  unfold solve
  rcases hsimplify : g.store.simplify r.lattice with ⟨k | report, s⟩ <;>
    rw [hsimplify] at hsimplified herror
  · obtain ⟨c, hc, hverdict⟩ := herror k rfl
    -- the constraint that the fixed slots violate follows from those of the store
    refine .inl ⟨_, k, rfl, rfl, fun ⟨solution, hfills, hall⟩ => ?_⟩
    exact hsimplified.verdict_ne_violated hl (hfills.assigns hwithin) hall hc hverdict
  · have hclosed := hsimplified.settled.closed
    obtain ⟨e, hencode, he⟩ := ConstraintStore.encode_spec (l := r.lattice) hclosed
      (weighted && r.config.softConstraints)
    refine .inr ⟨s, e, hsimplified, he, ?_⟩
    simp only [dump, hdot, hcnf, hI.weighted_eq hst, hencode]
    exact finish_cases hI he hclosed (hsimplified.within hwithin)
      (List.ne_nil_of_mem hl.bottom_mem) hst _ _

/-- Solving is sound, complete and optimal. It succeeds exactly if the constraints of the store have
a solution, it then answers one, of least regret where preferences are weighed, and it fails with a
conflict only. -/
theorem solve_correct (r : Inference) {d : LatticeDescription}
    (hload : Lattice.load d = .ok r.lattice) (g : Generated)
    (hbuilt : g.store.Built (· = r.lattice)) (hwithin : g.store.Within r.lattice)
    (hdot : r.config.dumpDot = none) (hcnf : r.config.dumpCnf = none)
    (htime : r.config.solverTimeBudget = none) {solver : DiagramSolver} (hsolver : solver.Reachable)
    (hnodes : solver.config.nodeLimit = none) :
    ((∃ result, (r.solve g solver).1.answer = .ok result) ↔
      ∃ solution, g.store.SolvedBy r.lattice solution) ∧
      (∀ result, (r.solve g solver).1.answer = .ok result →
        g.store.SolvedBy r.lattice result.solution ∧
        (∀ c ∈ result.store.constraints,
          c.holds r.lattice (result.solution.value result.store) = some true) ∧
        (solver.config.weighted = true → r.config.softConstraints = true →
          (∀ c ∈ g.store.constraints, ∀ x ∈ c.inner, x.isSoft = false) →
          Weight.sum (g.store.constraints.filterMap Constraint.weight?) < 2 ^ 64 →
          result.stats.cost.toNat = g.store.regret result.solution ∧
            ∀ solution, g.store.SolvedBy r.lattice solution →
              result.stats.cost.toNat ≤ g.store.regret solution)) ∧
      ∀ failure, (r.solve g solver).1.answer = .error failure →
        (∃ k, failure.error = .contradiction k) ∨ ∃ core, failure.error = .unsatisfiable core := by
  have hl := Lattice.load_bounded hload
  have hunlimited : DiagramSolver.Unlimited solver.config.weighted
      (Backend.setTimeBudget r.config.solverTimeBudget solver) := by
    refine ⟨hsolver.valid, ?_, rfl⟩
    rw [htime]
    rintro (h | h)
    · exact h rfl
    · exact h hnodes
  rcases solve_cases (DiagramSolver.reliable _) hl (hbuilt.settled hl) hwithin hdot hcnf
      hunlimited with
    ⟨failure, k, hanswer, hk, hnone⟩
      | ⟨s, e, hs, he, ⟨result, m, hanswer, hm, hstore, hsolution, hcost⟩ |
      ⟨failure, core, hanswer, hempty, hcore⟩⟩
  · rw [hanswer]
    refine ⟨⟨nofun, fun h => absurd h hnone⟩, nofun, ?_⟩
    rintro _ ⟨⟩
    exact .inl ⟨k, hk⟩
  · have hsolved := (hs.bijOn_reading hl hwithin he).mapsTo hm.mem_models
    rw [← hsolution] at hsolved
    rw [hanswer]
    refine ⟨⟨fun _ => ⟨_, hsolved⟩, fun _ => ⟨result, rfl⟩⟩, ?_, nofun⟩
    rintro _ ⟨⟩
    refine ⟨hsolved, fun c hc => ?_, fun hw hsoft hnested hsum => ?_⟩
    · rw [hstore] at hc ⊢
      rw [hs.value_eq]
      exact hs.implied _ (hsolved.1.assigns hwithin) hsolved.2 c hc
    · rw [hw, hsoft] at he
      rw [hw] at hm
      rw [hcost, hsolution]
      exact hm.regret_least hs hl hwithin he hnested hsum
  · have hnone : ¬∃ solution, g.store.SolvedBy r.lattice solution := by
      rintro ⟨solution, hsol⟩
      obtain ⟨assignment, hmodel, -⟩ := (hs.bijOn_reading hl hwithin he).surjOn hsol
      rw [hempty] at hmodel
      exact hmodel
    rw [hanswer]
    refine ⟨⟨nofun, fun h => absurd h hnone⟩, nofun, ?_⟩
    rintro _ ⟨⟩
    exact .inr ⟨core, hcore⟩

/-- The wish of less weight stays unmet. -/
theorem solve_correct_conditional : ∃ result,
    (solve ⟨⟨ConstraintStore.twoLevels, [], [], []⟩, {}, fun _ => none⟩
      { store := ConstraintStore.conditionalStore }
      (DiagramSolver.new { nodeLimit := none })).1.answer = .ok result ∧
    ConstraintStore.conditionalStore.SolvedBy ConstraintStore.twoLevels result.solution ∧
    result.stats.cost.toNat ≤ 2 := by
  have hload : Lattice.load ⟨"levels", ["low", "high"], [("low", "high")], none, none⟩ =
      .ok ConstraintStore.twoLevels := by cbv
  have habsorb : ({} : ConstraintStore).absorb ConstraintStore.conditionalUnit =
      .ok ([⟨0⟩, ⟨1⟩, ⟨2⟩], ConstraintStore.conditionalStore) := by cbv
  have hsolved : ConstraintStore.conditionalStore.SolvedBy ConstraintStore.twoLevels
      ⟨[(⟨0⟩, ⟨1⟩), (⟨1⟩, ⟨0⟩)]⟩ := by
    refine ⟨⟨by decide, by decide⟩, by decide⟩
  obtain ⟨hiff, hsound, -⟩ :=
    solve_correct ⟨⟨ConstraintStore.twoLevels, [], [], []⟩, {}, fun _ => none⟩ hload
    { store := ConstraintStore.conditionalStore } (.absorb .empty habsorb) (by decide) rfl rfl rfl
    (.new { nodeLimit := none }) rfl
  obtain ⟨result, hanswer⟩ := hiff.mpr ⟨_, hsolved⟩
  obtain ⟨hresult, -, hcost⟩ := hsound result hanswer
  refine ⟨result, hanswer, hresult, ?_⟩
  exact ((hcost rfl rfl (by decide) (by decide)).2 _ hsolved).trans (by decide)

end Inference

end Qualify
