import Qualify.Proofs.Solver.History

namespace Qualify

namespace Cnf

def SatisfiableAt (f : Cnf) (ks : List Nat) : Prop :=
  ∃ m : Array Bool, m.size = f.numVars ∧ ∀ c ∈ f.clausesAt ks, Clause.satisfied c m = true

theorem Bounded.satisfiableAt_iff {f : Cnf} (hf : f.Bounded) (ks : List Nat) :
    f.SatisfiableAt ks ↔ Clause.Consistent (f.clausesAt ks) := by
  constructor
  · rintro ⟨m, -, hm⟩
    exact ⟨valuation m, hm⟩
  · rintro ⟨a, ha⟩
    obtain ⟨m, hsize, hm⟩ := exists_valuation_eq a f.numVars
    refine ⟨m, hsize, fun c hc => ?_⟩
    obtain ⟨k, -, hk⟩ := List.mem_filterMap.mp hc
    rw [Clause.satisfied_eq, ← ha c hc]
    exact Clause.eval_congr fun l hl => hm _ l.var.positive
      (hf.hard c (Array.mem_of_getElem? hk) l hl)

/-- Hard clauses that cannot be satisfied together, though all of them but any one can. They span
the first conflict: the clauses before the last of them can be satisfied, and so can those after the
first up to the last. -/
structure MinimalCore (f : Cnf) (ks : List Nat) : Prop where
  ne_nil : ks ≠ []
  increasing : ks.Pairwise (· < ·)
  bounded : ∀ k ∈ ks, k < f.hard.size
  unsatisfiable : ¬f.SatisfiableAt ks
  minimal : ∀ k ∈ ks, f.SatisfiableAt (ks.filter (· ≠ k))
  spans : ∃ first last, IsLeast {k | k ∈ ks} first ∧ IsGreatest {k | k ∈ ks} last ∧
    IsLeast {k | ¬f.SatisfiableAt (List.range' 0 (k + 1))} last ∧
    IsGreatest {k | ¬f.SatisfiableAt (List.range' k (last + 1 - k))} first

theorem IsFirstCore.minimalCore {f : Cnf} (hf : f.Bounded) {ks : List Nat} (h : f.IsFirstCore ks) :
    f.MinimalCore ks where
  ne_nil := by
    rintro rfl
    exact h.conflict.holds ⟨fun _ => false, List.forall_mem_nil _⟩
  increasing := h.increasing
  bounded := h.bounded
  unsatisfiable := (hf.satisfiableAt_iff ks).not.mpr h.conflict.holds
  minimal k hk := (hf.satisfiableAt_iff _).mpr (not_not.mp (h.conflict.needed k hk))
  spans := by simpa only [hf.satisfiableAt_iff] using h.spans

end Cnf

namespace DiagramSolver

theorem solve_unsatisfiable {s : DiagramSolver} (hs : s.Kept) (hfree : ¬s.config.Limited)
    {cnf : Cnf} (hcnf : cnf.Bounded) (hunsat : ∀ m, cnf.evaluate m = false) :
    ∃ core, (solve cnf [] s).1 = .ok (.unsat core) := by
  have h := solve_meets hs cnf [] (Q := fun o => o.Answers s.config.weighted cnf [])
      fun k d hk hexact => by
    subst hk
    exact (query_gives (hexact.faithful hcnf) hcnf []).mono
      (fun o d' h => ⟨h.1, h.2 (List.forall_mem_nil _)⟩) fun _ => id
  unfold Solving.Meets at h
  rcases hsolve : solve cnf [] s with ⟨e | o, s'⟩ <;> rw [hsolve] at h
  · exact absurd h.1 hfree
  · cases o with
    | unsat core => exact ⟨core, rfl⟩
    | sat m =>
      obtain ⟨-, hallows, -⟩ := h.1
      exact absurd hallows.1 (Bool.eq_false_iff.mp (hunsat m.assignment))

/-- Whatever happened to a solver before, it answers that a problem is unsatisfiable only with a
minimal core, and it does so for every unsatisfiable problem unless a limit stops it. -/
theorem solve_minimalCore (config : Config) (events : List Event) (cnf : Cnf) (hcnf : cnf.Built) :
    let s := events.foldl Event.apply (new config)
    (∀ core, (solve cnf [] s).1 = .ok (.unsat core) → ∃ ks, core = some ks ∧ cnf.MinimalCore ks) ∧
      (¬s.config.Limited → (∀ m, cnf.evaluate m = false) →
        ∃ ks, (solve cnf [] s).1 = .ok (.unsat (some ks))) := by
  intro s
  have hkept : s.Kept := (foldl_apply_kept events (s := new config) nofun).1
  constructor
  · intro core h
    obtain ⟨ks, hcore, hks⟩ := solve_core hkept hcnf.bounded (Prod.ext h rfl)
    exact ⟨ks, hcore, hks.minimalCore hcnf.bounded⟩
  · intro hfree hunsat
    obtain ⟨core, h⟩ := solve_unsatisfiable hkept hfree hcnf.bounded hunsat
    obtain ⟨ks, rfl, -⟩ := solve_core hkept hcnf.bounded (Prod.ext h rfl)
    exact ⟨ks, h⟩

/-- The clauses 1, 3 and 4 are in conflict, and later the clauses 4 and 5. -/
def twoConflicts : Cnf :=
  let x : Var := ⟨1, Nat.one_pos⟩
  let y : Var := ⟨2, Nat.two_pos⟩
  ([[x.neg, y.neg], [x.pos, y.pos], [y.neg, x.neg], [x.pos, y.neg], [x.neg], [x.pos]].foldl
    Cnf.addHard {}).addSoft [y.pos] 2

/-- The first conflict is reported, though the other one has fewer clauses. -/
theorem solve_minimalCore_twoConflicts :
    let cramped : Config := { sizing := ⟨1, 1⟩, nodeLimit := some 9, collectAbove := 1 }
    (solve twoConflicts [] ([.countModels onePair].foldl Event.apply (new cramped))).1 =
        .ok (.unsat (some [1, 3, 4])) ∧
      twoConflicts.MinimalCore [1, 3, 4] := by
  intro cramped
  have hbuilt : twoConflicts.Built :=
    .addSoft _ _
      (.addHard _ (.addHard _ (.addHard _ (.addHard _ (.addHard _ (.addHard _ (.new 0)))))))
  have hsolve : (solve twoConflicts [] ([.countModels onePair].foldl Event.apply (new cramped))).1 =
      .ok (.unsat (some [1, 3, 4])) := by cbv
  obtain ⟨_, ⟨⟩, hcore⟩ :=
    (solve_minimalCore cramped [.countModels onePair] twoConflicts hbuilt).1 _ hsolve
  exact ⟨hsolve, hcore⟩

end DiagramSolver

end Qualify
