import Qualify.Proofs.Solver.Query

namespace Qualify.DiagramSolver

/-- A problem kept from an earlier call has its values in the diagram. -/
def Kept (s : DiagramSolver) : Prop :=
  ∀ k, s.compiled = some k → k.Exact s.config.weighted s.diagram

/-- After a call on the problem `cnf`, whatever became of it, no other problem is kept. -/
structure After (c : Config) (cnf : Cnf) (s : DiagramSolver) : Prop where
  config : s.config = c
  compiled : ∀ k, s.compiled = some k → k.cnf = cnf ∧ k.Exact c.weighted s.diagram

theorem After.kept {c : Config} {cnf : Cnf} {s : DiagramSolver} (h : After c cnf s) : s.Kept :=
  fun k hk => h.config ▸ (h.compiled k hk).2

section Calls

variable {s : DiagramSolver} (hs : s.Kept) (cnf : Cnf)
include hs

/-- What a query on the compiled problem gives, a call gives. It fails only at a limit. -/
theorem solve_meets (assumed : List Lit) {Q : Outcome → Prop}
    (hquery : ∀ k d, k.cnf = cnf → k.Exact s.config.weighted d →
      Keeps s.config (query s.config k assumed) d Q) :
    Solving.Meets (solve cnf assumed) s (fun o s' => Q o ∧ After s.config cnf s')
      (fun s' => s.config.Limited ∧ After s.config cnf s') := by
  obtain ⟨c, diagram, compiled, calls⟩ := s
  have hprepare := prepare_gives cnf hs 0
  unfold Solving.Meets solve at *
  rcases hp : prepare c compiled cnf ⟨diagram, 0⟩ with ⟨e | k, w⟩ <;> rw [hp] at hprepare
  · -- a call that fails keeps no problem
    simp only [hp]
    exact ⟨hprepare.1, rfl, nofun⟩
  · obtain ⟨hcnf, hk⟩ := hprepare
    have hquery := hquery k w.diagram hcnf hk w.checks
    unfold Solving.Meets at hquery
    rcases hq : query c k assumed w with ⟨outcome, w₁⟩
    rw [hq] at hquery
    have hk₁ : k.Exact c.weighted w₁.diagram := by
      rcases outcome with e | o
      · exact hk.grow hquery.2
      · exact hk.grow hquery.1
    have htidy := tidy_gives hk₁ w₁.checks
    unfold Solving.Meets at htidy
    rcases ht : tidy c k w₁ with ⟨e | k', w'⟩ <;> rw [ht] at htidy
    · simp only [hp, hq, ht]
      exact ⟨htidy.1, rfl, nofun⟩
    · have hafter : After c cnf ⟨c, w'.diagram, some k', calls + 1⟩ := by
        refine ⟨rfl, fun k₂ hk₂ => ?_⟩
        obtain rfl := Option.some.inj hk₂
        exact ⟨htidy.1.trans hcnf, htidy.2⟩
      simp only [hp, hq, ht]
      rcases outcome with e | o
      · exact ⟨hquery.1, hafter⟩
      · exact ⟨hquery.2, hafter⟩

theorem countModels_meets {Q : Nat → Prop}
    (hcount : ∀ (k : Compiled) (d : Diagram), k.cnf = cnf → k.Exact s.config.weighted d →
      Q (d.countModels cnf.numVars k.hard)) :
    Solving.Meets (countModels cnf) s (fun n s' => Q n ∧ After s.config cnf s')
      (fun s' => s.config.Limited ∧ After s.config cnf s') := by
  obtain ⟨c, diagram, compiled, calls⟩ := s
  have hprepare := prepare_gives cnf hs 0
  unfold Solving.Meets countModels at *
  rcases hp : prepare c compiled cnf ⟨diagram, 0⟩ with ⟨e | k, w⟩ <;> rw [hp] at hprepare
  · simp only [hp]
    exact ⟨hprepare.1, rfl, nofun⟩
  · simp only [hp]
    refine ⟨hcount k w.diagram hprepare.1 hprepare.2, rfl, fun k₁ hk₁ => ?_⟩
    obtain rfl := Option.some.inj hk₁
    exact hprepare

end Calls

/-- A problem kept from an earlier call is kept faithfully. -/
def Valid (s : DiagramSolver) : Prop :=
  ∀ k, s.compiled = some k → k.cnf.Bounded ∧ k.Exact s.config.weighted s.diagram

theorem valid_new (config : Config) : (new config).Valid := nofun

theorem Valid.kept {s : DiagramSolver} (h : s.Valid) : s.Kept := fun k hk => (h k hk).2

theorem After.valid {c : Config} {cnf : Cnf} {s : DiagramSolver} (h : After c cnf s)
    (hcnf : cnf.Bounded) : s.Valid :=
  fun k hk => ⟨(h.compiled k hk).1 ▸ hcnf, h.kept k hk⟩

/-- A call leaves a valid solver, also where it fails. It fails only at a limit. -/
theorem solve_cases {s : DiagramSolver} (hs : s.Valid) {cnf : Cnf} (hcnf : cnf.Bounded)
    (assumed : List Lit) :
    (solve cnf assumed s).2.Valid ∧ (solve cnf assumed s).2.config = s.config ∧
      ((∃ e, (solve cnf assumed s).1 = .error e ∧ s.config.Limited) ∨
        ∃ o, (solve cnf assumed s).1 = .ok o ∧
        ((∀ l ∈ assumed, l.var.number ≤ cnf.numVars) →
          o.Answers s.config.weighted cnf assumed)) := by
  have h := solve_meets hs.kept cnf assumed (Q := fun o =>
      (∀ l ∈ assumed, l.var.number ≤ cnf.numVars) → o.Answers s.config.weighted cnf assumed)
        fun k d hk hexact => by
    subst hk
    exact query_gives (hexact.faithful hcnf) hcnf assumed
  unfold Solving.Meets at h
  rcases hsolve : solve cnf assumed s with ⟨e | o, s'⟩ <;> rw [hsolve] at h
  · exact ⟨h.2.valid hcnf, h.2.config, .inl ⟨e, rfl, h.1⟩⟩
  · exact ⟨h.2.valid hcnf, h.2.config, .inr ⟨o, rfl, h.1⟩⟩

/-- A call without assumptions names the clauses in conflict. -/
theorem solve_core {s s' : DiagramSolver} (hs : s.Kept) {cnf : Cnf} (hcnf : cnf.Bounded)
    {core : Option (List Nat)} (h : solve cnf [] s = (.ok (.unsat core), s')) :
    ∃ ks, core = some ks ∧ cnf.IsFirstCore ks := by
  have hsolve := solve_meets hs cnf []
      (Q := fun o => ∀ core, o = .unsat core → ∃ ks, core = some ks ∧ cnf.IsFirstCore ks)
        fun k d hk hexact n => by
    subst hk
    have hquery := query_gives (hexact.faithful hcnf) hcnf [] n
    unfold Solving.Meets at hquery ⊢
    rcases hq : query s.config k [] ⟨d, n⟩ with ⟨e | o, w⟩ <;> rw [hq] at hquery
    · exact hquery
    · refine ⟨hquery.1, ?_⟩
      rintro core rfl
      exact query_core (hexact.faithful hcnf) hcnf hq
  rw [Solving.Meets, h] at hsolve
  exact hsolve.1 core rfl

theorem countModels_valid {s : DiagramSolver} (hs : s.Valid) {cnf : Cnf} (hcnf : cnf.Bounded) :
    (countModels cnf s).2.Valid := by
  have h := countModels_meets hs.kept cnf (Q := fun _ => True) fun _ _ _ _ => trivial
  unfold Solving.Meets at h
  rcases hcount : countModels cnf s with ⟨e | n, s'⟩ <;> rw [hcount] at h <;> exact h.2.valid hcnf

/-- The states of a solver after any calls on problems that were built clause by clause, whatever
became of them. -/
inductive Reachable : DiagramSolver → Prop where
  | new (config : Config) : Reachable (new config)
  | solve {s : DiagramSolver} {cnf : Cnf} (assumed : List Lit) : Reachable s → cnf.Built →
      Reachable (solve cnf assumed s).2
  | countModels {s : DiagramSolver} {cnf : Cnf} : Reachable s → cnf.Built →
    Reachable (countModels cnf s).2
  | setTimeBudget {s : DiagramSolver} (budget : Option Nat) : Reachable s →
    Reachable (setTimeBudget budget s)

theorem Reachable.valid {s : DiagramSolver} (h : s.Reachable) : s.Valid := by
  induction h with
  | new config => exact valid_new config
  | solve assumed _ hcnf ih => exact (solve_cases ih hcnf.bounded assumed).1
  | countModels _ hcnf ih => exact countModels_valid ih hcnf.bounded
  | setTimeBudget budget _ ih => exact ih

/-- Without limits every call ends with the right outcome: unsatisfiable exactly if nothing is
allowed, and otherwise an allowed assignment, at least cost if the solver is weighted. -/
theorem solve_optimal {s : DiagramSolver} (hs : s.Reachable) (hnodes : s.config.nodeLimit = none)
    (htime : s.config.timeBudget = none) {cnf : Cnf} (hcnf : cnf.Built) {assumed : List Lit}
    (hassumed : ∀ l ∈ assumed, l.var.number ≤ cnf.numVars) :
    ∃ o s', solve cnf assumed s = (.ok o, s') ∧
      ((∃ core, o = .unsat core) ↔ ¬∃ assignment, cnf.Allows assumed assignment) ∧
      ∀ m, o = .sat m → m.assignment.size = cnf.numVars ∧ cnf.Allows assumed m.assignment ∧
        (s.config.weighted = true → totalWeight cnf.soft.toList < 2 ^ 64 →
          m.cost = cnf.softCost m.assignment ∧
            ∀ assignment, cnf.Allows assumed assignment → m.cost ≤ cnf.softCost assignment) ∧
        (s.config.weighted = false → m.cost = 0) := by
  obtain ⟨-, -, hout⟩ := solve_cases hs.valid hcnf.bounded assumed
  rcases hout with ⟨e, -, hl⟩ | ⟨o, ho, hanswers⟩
  · exact absurd hl (by simp [Config.Limited, hnodes, htime])
  · refine ⟨o, (solve cnf assumed s).2, Prod.ext ho rfl, ?_⟩
    have hanswers := hanswers hassumed
    cases o with
    | unsat core =>
      exact ⟨⟨fun _ ⟨assignment, h⟩ => hanswers assignment h, fun _ => ⟨core, rfl⟩⟩, nofun⟩
    | sat m =>
      obtain ⟨hsize, hallows, hcost⟩ := hanswers
      refine ⟨⟨nofun, fun h => absurd ⟨_, hallows⟩ h⟩, ?_⟩
      rintro _ ⟨⟩
      refine ⟨hsize, hallows, fun hw hsum => ?_, fun hw => ?_⟩
      · rw [if_pos hw] at hcost
        exact ⟨hcost.1, hcost.2 hsum⟩
      · rwa [if_neg (by simp [hw])] at hcost

/-- One hard clause, and soft clauses of one, two and no literals. -/
def mixedSofts : Cnf :=
  (((Cnf.addHard { numVars := 2 } [⟨1, by decide⟩, ⟨2, by decide⟩]).addSoft [⟨-1, by decide⟩]
    3).addSoft [⟨1, by decide⟩, ⟨-2, by decide⟩] 5).addSoft [] 7

theorem solve_optimal_mixedSofts :
    ∃ m s', solve mixedSofts [⟨2, by decide⟩] (new { nodeLimit := none }) = (.ok (.sat m), s') ∧
      m.assignment.size = 2 ∧ m.cost ≤ 10 := by
  have hbuilt : mixedSofts.Built := .addSoft _ _ (.addSoft _ _ (.addSoft _ _ (.addHard _ (.new 2))))
  have hassumed : ∀ l ∈ [(⟨2, by decide⟩ : Lit)], l.var.number ≤ mixedSofts.numVars := by decide
  obtain ⟨o, s', hsolve, hunsat, hsat⟩ :=
    solve_optimal (.new { nodeLimit := none }) rfl rfl hbuilt hassumed
  have hallows : mixedSofts.Allows [⟨2, by decide⟩] #[true, true] := ⟨by cbv, by decide⟩
  cases o with
  | unsat core => exact absurd ⟨_, hallows⟩ (hunsat.mp ⟨core, rfl⟩)
  | sat m =>
    obtain ⟨hsize, -, hcost, -⟩ := hsat m rfl
    exact ⟨m, s', hsolve, hsize, (hcost rfl (by decide)).2 #[true, true] hallows⟩

end Qualify.DiagramSolver
