import Mathlib
import Qualify.Formula.Basic

namespace Qualify

namespace Lit

def eval (a : Nat → Bool) (l : Lit) : Bool := a l.var.number == l.isPositive

theorem isNegated_eq (l : Lit) : l.isNegated = !l.isPositive := by
  have := l.nonzero
  simp only [isNegated, isPositive, ← decide_not, decide_eq_decide]
  omega

theorem eval_eq_xor (a : Nat → Bool) (l : Lit) : l.eval a = (a l.var.number ^^ l.isNegated) := by
  rw [eval, isNegated_eq]
  cases a l.var.number <;> cases l.isPositive <;> rfl

/-- A literal is its variable and its sign. -/
theorem eq_iff {l l' : Lit} : l = l' ↔ l.var = l'.var ∧ l.isPositive = l'.isPositive := by
  refine ⟨fun h => by simp [h], fun ⟨hv, hp⟩ => ?_⟩
  have hn : l.signed.natAbs = l'.signed.natAbs := congrArg Var.number hv
  have hs : 0 < l.signed ↔ 0 < l'.signed := by simpa [isPositive] using hp
  have := l.nonzero
  have := l'.nonzero
  obtain ⟨s, h⟩ := l
  obtain ⟨s', h'⟩ := l'
  simp only [mk.injEq] at *
  omega

@[simp] theorem var_opposite (l : Lit) : l.opposite.var = l.var := by simp [var, opposite]

@[simp] theorem isPositive_opposite (l : Lit) : l.opposite.isPositive = !l.isPositive := by
  have := l.nonzero
  have hs : l.opposite.signed = -l.signed := rfl
  rw [isPositive, isPositive, ← decide_not, decide_eq_decide, hs]
  omega

@[simp] theorem eval_opposite (a : Nat → Bool) (l : Lit) : l.opposite.eval a = !l.eval a := by
  simp only [eval, var_opposite, isPositive_opposite]
  cases a l.var.number <;> cases l.isPositive <;> rfl

/-- Two literals of one variable are equal or opposite. -/
theorem eq_or_opposite {l l' : Lit} (h : l.var = l'.var) : l = l' ∨ l = l'.opposite := by
  rw [eq_iff, eq_iff, var_opposite, isPositive_opposite]
  cases l.isPositive <;> cases l'.isPositive <;> simp [h]

theorem eval_congr {a b : Nat → Bool} {l : Lit} (h : a l.var.number = b l.var.number) :
    l.eval a = l.eval b := by
  rw [eval, eval, h]

end Lit

namespace Var

@[simp] theorem var_pos (v : Var) : v.pos.var = v := by simp [pos, Lit.var]

@[simp] theorem isPositive_pos (v : Var) : v.pos.isPositive = true := by
  simp [pos, Lit.isPositive, v.positive]

@[simp] theorem var_neg (v : Var) : v.neg.var = v := by simp [neg]

@[simp] theorem isPositive_neg (v : Var) : v.neg.isPositive = false := by simp [neg]

end Var

def valuation (assignment : Array Bool) (v : Nat) : Bool := assignment.getD (v - 1) false

theorem valuation_succ {assignment : Array Bool} {i : Nat} (hi : i < assignment.size) :
    valuation assignment (i + 1) = assignment[i] := by
  simp [valuation, hi]

/-- Any values of finitely many variables can be written down as an assignment. -/
theorem exists_valuation_eq (a : Nat → Bool) (n : Nat) :
    ∃ m : Array Bool, m.size = n ∧ ∀ v, 0 < v → v ≤ n → valuation m v = a v := by
  refine ⟨((List.range n).map fun k => a (k + 1)).toArray, by simp, fun v hv hle => ?_⟩
  obtain ⟨k, rfl⟩ : ∃ k, v = k + 1 := ⟨v - 1, by omega⟩
  simp [valuation, show k < n by omega]

theorem eq_of_valuation_eq {m m' : Array Bool} (hsize : m.size = m'.size)
    (h : ∀ v, 0 < v → v ≤ m.size → valuation m v = valuation m' v) : m = m' := by
  apply Array.ext hsize
  intro i hi hi'
  rw [← valuation_succ hi, ← valuation_succ hi', h (i + 1) (Nat.succ_pos i) hi]

theorem Lit.holds_eq (l : Lit) (assignment : Array Bool) :
    l.holds assignment = l.eval (valuation assignment) := rfl

namespace Clause

def eval (a : Nat → Bool) (c : Clause) : Bool := c.any (·.eval a)

theorem satisfied_eq (c : Clause) (assignment : Array Bool) :
    satisfied c assignment = eval (valuation assignment) c := rfl

theorem eval_congr {a b : Nat → Bool} {c : Clause} (h : ∀ l ∈ c, a l.var.number = b l.var.number) :
    eval a c = eval b c := by
  unfold eval
  rw [Bool.eq_iff_iff, List.any_eq_true, List.any_eq_true]
  exact exists_congr fun l => and_congr_right fun hl => by rw [Lit.eval_congr (h l hl)]

theorem all_eval_congr {a b : Nat → Bool} {ls : List Lit}
    (h : ∀ l ∈ ls, a l.var.number = b l.var.number) :
    ls.all (·.eval a) = ls.all (·.eval b) := by
  rw [Bool.eq_iff_iff, List.all_eq_true, List.all_eq_true]
  exact forall_congr' fun l => forall_congr' fun hl => by rw [Lit.eval_congr (h l hl)]

theorem le_maxVar {c : Clause} {l : Lit} (hl : l ∈ c) : l.var.number ≤ c.maxVar := by
  have hfold : ∀ (c : Clause) (m : Nat), m ≤ c.foldl (fun m l => max m l.var.number) m ∧
      ∀ l ∈ c, l.var.number ≤ c.foldl (fun m l => max m l.var.number) m := by
    intro c
    induction c with
    | nil => simp
    | cons l' c ih =>
      intro m
      obtain ⟨hm, hall⟩ := ih (max m l'.var.number)
      exact ⟨(le_max_left _ _).trans hm,
        List.forall_mem_cons.mpr ⟨(le_max_right _ _).trans hm, hall⟩⟩
  exact (hfold c 0).2 l hl

end Clause

namespace Cnf

def eval (a : Nat → Bool) (f : Cnf) : Bool := f.hard.toList.all (Clause.eval a)

theorem evaluate_eq (f : Cnf) (assignment : Array Bool) :
    f.evaluate assignment = f.eval (valuation assignment) := by
  rw [evaluate, eval, Array.all_toList]
  rfl

/-- What can be made by adding variables and clauses to a problem without clauses. -/
inductive Built : Cnf → Prop where
  | new (n : Nat) : Built { numVars := n }
  | newVar {f : Cnf} : Built f → Built f.newVar.2
  | addHard {f : Cnf} (c : Clause) : Built f → Built (f.addHard c)
  | addSoft {f : Cnf} (c : Clause) (w : Weight) : Built f → Built (f.addSoft c w)

structure Bounded (f : Cnf) : Prop where
  hard : ∀ c ∈ f.hard, ∀ l ∈ c, l.var.number ≤ f.numVars
  soft : ∀ s ∈ f.soft, ∀ l ∈ s.lits, l.var.number ≤ f.numVars

theorem Built.bounded {f : Cnf} (h : f.Built) : f.Bounded := by
  induction h with
  | new n => exact ⟨by simp, by simp⟩
  | newVar _ ih =>
    exact ⟨fun c hc l hl => (ih.hard c hc l hl).trans (Nat.le_succ _),
      fun s hs l hl => (ih.soft s hs l hl).trans (Nat.le_succ _)⟩
  | addHard c _ ih =>
    refine ⟨fun c' hc l hl => ?_, fun s hs l hl => (ih.soft s hs l hl).trans (le_max_left _ _)⟩
    rcases Array.mem_push.mp hc with hc | rfl
    · exact (ih.hard c' hc l hl).trans (le_max_left _ _)
    · exact (Clause.le_maxVar hl).trans (le_max_right _ _)
  | addSoft c w _ ih =>
    refine ⟨fun c' hc l hl => (ih.hard c' hc l hl).trans (le_max_left _ _), fun s hs l hl => ?_⟩
    rcases Array.mem_push.mp hs with hs | rfl
    · exact (ih.soft s hs l hl).trans (le_max_left _ _)
    · exact (Clause.le_maxVar hl).trans (le_max_right _ _)

theorem Bounded.eval_congr {f : Cnf} (hf : f.Bounded) {a b : Nat → Bool}
    (h : ∀ v, 0 < v → v ≤ f.numVars → a v = b v) :
    f.eval a = f.eval b := by
  rw [eval, eval, Bool.eq_iff_iff, List.all_eq_true, List.all_eq_true]
  refine forall₂_congr fun c hc => ?_
  rw [Clause.eval_congr fun l hl => h _ l.var.positive
    (hf.hard c (Array.mem_toList_iff.mp hc) l hl)]

theorem Bounded.exists_evaluate {f : Cnf} (hf : f.Bounded) {a : Nat → Bool} (ha : f.eval a = true) :
    ∃ assignment, f.evaluate assignment = true := by
  obtain ⟨m, -, hm⟩ := exists_valuation_eq a f.numVars
  exact ⟨m, by rw [evaluate_eq, ← ha, hf.eval_congr hm]⟩

end Cnf

end Qualify
