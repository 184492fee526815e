import Qualify.Solver.DiagramSolver
import Qualify.Proofs.Diagram.Conditional
import Qualify.Proofs.Diagram.Collection

namespace Qualify

/-- A state outlives a failure. -/
theorem bind_run {ε σ α β : Type} (x : ExceptT ε (StateM σ) α) (f : α → ExceptT ε (StateM σ) β)
    (s : σ) :
    (x >>= f) s = match x s with
      | (.ok a, s') => f a s'
      | (.error e, s') => (.error e, s') := by
  change ExceptT.bindCont f (x s).1 (x s).2 = _
  rcases x s with ⟨_ | a, s'⟩ <;> rfl

namespace Solving

variable {σ α β : Type}

/-- From the state `s` on, `x` ends in `Q` with a result, or fails in `E`. -/
def Meets (x : Solving σ α) (s : σ) (Q : α → σ → Prop) (E : σ → Prop) : Prop :=
  match x s with
  | (.ok a, s') => Q a s'
  | (.error _, s') => E s'

variable {x : Solving σ α} {s : σ} {Q Q' : α → σ → Prop} {E E' : σ → Prop}

theorem Meets.pure {a : α} (h : Q a s) : Meets (Pure.pure a) s Q E := h

theorem Meets.mono (h : Meets x s Q E) (hQ : ∀ a s', Q a s' → Q' a s') (hE : ∀ s', E s' → E' s') :
    Meets x s Q' E' := by
  unfold Meets at *
  split at h
  · exact hQ _ _ h
  · exact hE _ h

theorem Meets.bind {f : α → Solving σ β} {R : β → σ → Prop} (h : Meets x s Q E)
    (hf : ∀ a s', Q a s' → Meets (f a) s' R E) : Meets (x >>= f) s R E := by
  unfold Meets at h ⊢
  rw [bind_run]
  rcases hx : x s with ⟨_ | a, s'⟩ <;> rw [hx] at h
  · exact h
  · exact hf a s' h

end Solving

namespace DiagramSolver

def Config.Limited (c : Config) : Prop := c.timeBudget ≠ none ∨ c.nodeLimit ≠ none

/-- From the diagram `d` on, `x` ends in `Q` with a result. It fails only at a limit, and then in
`E`. -/
def Gives {α : Type} (c : Config) (x : Work α) (d : Diagram) (Q : α → Diagram → Prop)
    (E : Diagram → Prop) : Prop :=
  ∀ n, Solving.Meets x ⟨d, n⟩ (fun a w => Q a w.diagram) (fun w => c.Limited ∧ E w.diagram)

namespace Gives

variable {c : Config} {α β : Type} {x : Work α} {d : Diagram} {Q Q' : α → Diagram → Prop}
  {E E' : Diagram → Prop}

theorem pure {a : α} (h : Q a d) : Gives c (Pure.pure a) d Q E := fun _ => .pure h

theorem mono (h : Gives c x d Q E) (hQ : ∀ a d', Q a d' → Q' a d') (hE : ∀ d', E d' → E' d') :
    Gives c x d Q' E' :=
  fun n => (h n).mono (fun a w => hQ a w.diagram) fun w hw => ⟨hw.1, hE w.diagram hw.2⟩

theorem bind {f : α → Work β} {R : β → Diagram → Prop} (h : Gives c x d Q E)
    (hf : ∀ a d', Q a d' → Gives c (f a) d' R E) : Gives c (x >>= f) d R E :=
  fun n => (h n).bind fun a w hw => hf a w.diagram hw w.checks

section Steps

variable {f : α → Work β} {R : β → Diagram → Prop}

theorem withDiagram {run : Diagram → Option (α × Diagram)} {r : α × Diagram} (hr : run d = some r)
    (h : Gives c (f r.1) r.2 R E) : Gives c (DiagramSolver.withDiagram run >>= f) d R E := by
  refine bind (Q := fun a d' => (a, d') = r) (fun n => ?_) fun a d' ha => ?_
  · rw [Solving.Meets, DiagramSolver.withDiagram]
    simp only [hr]
  · subst ha
    exact h

theorem updateDiagram {run : Diagram → α × Diagram} (h : Gives c (f (run d).1) (run d).2 R E) :
    Gives c (DiagramSolver.updateDiagram run >>= f) d R E :=
  withDiagram rfl h

theorem nodeCount {f : Nat → Work β} (h : ∀ n, Gives c (f n) d R E) :
    Gives c (DiagramSolver.nodeCount >>= f) d R E :=
  bind (Q := fun _ d' => d' = d) (fun _ => rfl) fun n _ hd => hd ▸ h n

theorem needsCollection {live : Nat} {f : Bool → Work β} (h : ∀ b, Gives c (f b) d R E) :
    Gives c (DiagramSolver.needsCollection c live >>= f) d R E :=
  bind (Q := fun _ d' => d' = d) (fun _ => rfl) fun b _ hd => hd ▸ h b

theorem checkLimits {f : Unit → Work β} (hE : E d) (h : Gives c (f ()) d R E) :
    Gives c (DiagramSolver.checkLimits c >>= f) d R E := by
  refine bind (Q := fun _ d' => d' = d) (fun n => ?_) fun _ _ hd => hd ▸ h
  simp only [Solving.Meets, DiagramSolver.checkLimits]
  by_cases hc : c.Limited
  · split_ifs
    · exact ⟨hc, hE⟩
    · exact ⟨hc, hE⟩
    · rfl
  · obtain ⟨htime, hnodes⟩ := not_or.mp hc
    simp [not_not.mp htime, not_not.mp hnodes]

end Steps

end Gives

def Grown (d d' : Diagram) : Prop := d'.Sound ∧ d.Extends d'

end DiagramSolver

end Qualify
