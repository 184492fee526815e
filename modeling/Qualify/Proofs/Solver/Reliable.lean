import Qualify.Solver.Counted
import Qualify.Proofs.Solver.Correct

namespace Qualify

theorem Solving.Meets.exists_eq {σ α : Type} {x : Solving σ α} {s : σ} {Q : α → σ → Prop}
    (h : Meets x s Q fun _ => False) : ∃ a s', x s = (.ok a, s') ∧ Q a s' := by
  unfold Meets at h
  rcases hx : x s with ⟨e | a, s'⟩ <;> rw [hx] at h
  · exact h.elim
  · exact ⟨a, s', rfl, h⟩

/-- In the states `I` a solver answers every problem rightly, and it stays in them. Without
assumptions it also names the clauses in conflict. -/
structure Backend.Reliable {σ : Type} [Backend σ] (weighted : Bool) (I : σ → Prop) : Prop where
  weighted_eq : ∀ {s : σ}, I s → (Backend.capabilities s).weighted = weighted
  solve_meets : ∀ {s : σ}, I s → ∀ {cnf : Cnf}, cnf.Bounded → ∀ {assumed : List Lit},
    (∀ l ∈ assumed, l.var.number ≤ cnf.numVars) →
    Solving.Meets (Backend.solve cnf assumed) s (fun o s' => o.Answers weighted cnf assumed ∧ I s')
      fun _ => False
  solve_core : ∀ {s s' : σ}, I s → ∀ {cnf : Cnf}, cnf.Bounded → ∀ {core : Option (List Nat)},
    Backend.solve cnf [] s = (.ok (.unsat core), s') → ∃ ks, core = some ks ∧ cnf.IsCore ks

/-- A solver whose calls are counted is as reliable as it is alone. -/
theorem Counted.reliable {σ : Type} [Backend σ] {weighted : Bool} {I : σ → Prop}
    (h : Backend.Reliable weighted I) :
    Backend.Reliable weighted fun c : Counted σ => I c.solver where
  weighted_eq hc := h.weighted_eq hc
  solve_meets {c} hc cnf hcnf assumed hassumed := by
    obtain ⟨o, s', hsolve, ho⟩ := (h.solve_meets hc hcnf hassumed).exists_eq
    show Solving.Meets (Counted.solve cnf assumed) c _ _
    simp only [Solving.Meets, Counted.solve, hsolve]
    exact ho
  solve_core {c c'} hc cnf hcnf core hsolve := by
    have hcounted : Counted.solve cnf [] c = (.ok (.unsat core), c') := hsolve
    have hinner : Backend.solve cnf [] c.solver = (.ok (.unsat core), c'.solver) := by
      refine Prod.ext ?_ ?_
      · exact congrArg (fun r => r.1) hcounted
      · exact congrArg (fun r => r.2.solver) hcounted
    exact h.solve_core hc hcnf hinner

namespace DiagramSolver

/-- The states of a solver that never runs into a limit. -/
def Unlimited (weighted : Bool) (s : DiagramSolver) : Prop :=
  s.Valid ∧ ¬s.config.Limited ∧ s.config.weighted = weighted

theorem Reachable.unlimited {s : DiagramSolver} (hs : s.Reachable)
    (hnodes : s.config.nodeLimit = none) (htime : s.config.timeBudget = none) :
    Unlimited s.config.weighted s :=
  ⟨hs.valid, by simp [Config.Limited, hnodes, htime], rfl⟩

theorem reliable (weighted : Bool) : Backend.Reliable weighted (Unlimited weighted) where
  weighted_eq hs := hs.2.2
  solve_meets {s} hs cnf hcnf assumed hassumed := by
    obtain ⟨hvalid, hlimit, rfl⟩ := hs
    obtain ⟨hvalid', hconfig, hout⟩ := solve_cases hvalid hcnf assumed
    show Solving.Meets (solve cnf assumed) s _ _
    rcases hsolve : solve cnf assumed s with ⟨result, s'⟩
    rw [hsolve] at hvalid' hconfig hout
    rcases hout with ⟨e, -, hl⟩ | ⟨o, ho, hanswers⟩
    · exact absurd hl hlimit
    · simp only at ho
      subst ho
      simp only [Solving.Meets, hsolve]
      exact ⟨hanswers hassumed, hvalid', hconfig ▸ hlimit, congrArg Config.weighted hconfig⟩
  solve_core hs _ hcnf _ hsolve := by
    obtain ⟨ks, hcore, hks⟩ := solve_core hs.1.kept hcnf hsolve
    exact ⟨ks, hcore, hks.toIsCore⟩

end DiagramSolver

end Qualify
