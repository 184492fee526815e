import Qualify.Encoding.Basic
import Qualify.Proofs.Formula
import Qualify.Proofs.Store.Growth

namespace Qualify

namespace Term

def eval (a : Nat → Bool) : Term → Bool
  | known b => b
  | lit l => l.eval a

variable (a : Nat → Bool)

@[simp] theorem eval_negate (t : Term) : t.negate.eval a = !t.eval a := by
  cases t with
  | known b => rfl
  | lit l => exact Lit.eval_opposite a l

theorem clauseFrom?_eval (ts : List Term) (clause : Clause) :
    (clauseFrom? clause ts).all (Clause.eval a) = (Clause.eval a clause || ts.any (eval a)) := by
  induction ts generalizing clause with
  | nil => simp [clauseFrom?]
  | cons t ts ih =>
    rw [List.any_cons]
    match t with
    | known true => simp [clauseFrom?, eval]
    | known false => simp [clauseFrom?, eval, ih]
    | lit l =>
      rw [clauseFrom?, eval]
      split
      case isTrue hopposite =>
        -- the clause has been true in any case since the opposite literal joined it
        have htrue : l.eval a = false → Clause.eval a clause = true := fun hl =>
          List.any_eq_true.mpr ⟨l.opposite, by simpa using hopposite,
            by rw [Lit.eval_opposite, hl]; rfl⟩
        cases hl : l.eval a <;> simp [hl, htrue]
      case isFalse =>
        split
        case isTrue hmem =>
          have htrue : l.eval a = true → Clause.eval a clause = true := fun hl =>
            List.any_eq_true.mpr ⟨l, by simpa using hmem, hl⟩
          cases hl : l.eval a <;> simp [hl, htrue, ih]
        case isFalse => simp [ih, Clause.eval, List.any_append, Bool.or_assoc]

/-- A clause says what its terms say, and it is left out only where it is true in any case. -/
theorem clause?_eval (ts : List Term) : (clause? ts).all (Clause.eval a) = ts.any (eval a) := by
  rw [clause?, clauseFrom?_eval]
  rfl

end Term

namespace ConstraintStore

variable {s : ConstraintStore} {l : Lattice} {m : VarMap} {a : Nat → Bool}

/-- The terms of the slot say that it has the qualifier `x` of the lattice. -/
def Reads (s : ConstraintStore) (l : Lattice) (m : VarMap) (a : Nat → Bool) (i : SlotId)
    (x : Qualifier) : Prop :=
  x ∈ l.qualifiers ∧ ∀ q, (s.hasQualifier m i q).eval a = decide (x = q)

theorem Reads.unique {i : SlotId} {x y : Qualifier} (hx : Reads s l m a i x)
    (hy : Reads s l m a i y) : x = y := by
  have h := (hx.2 y).symm.trans (hy.2 y)
  simpa using h

theorem excluding_eval {i j : SlotId} {x y p q : Qualifier} (hx : Reads s l m a i x)
    (hy : Reads s l m a j y) {ts : List Term} (h : s.excluding m i j p q = some ts) :
    ts.any (Term.eval a) = !(decide (x = p) && decide (y = q)) := by
  unfold excluding at h
  split at h
  case isTrue =>
    cases h
    simp [hx.2, hy.2, Bool.not_and]
  case isFalse hij =>
    -- one slot has one qualifier, so that only equal ones need to be excluded
    obtain rfl := not_not.mp hij
    obtain rfl := hx.unique hy
    split at h
    case isTrue hpq =>
      cases h
      simp [hx.2, hpq]
    case isFalse => cases h

theorem exists_excluding {i j : SlotId} {x y : Qualifier} (hx : Reads s l m a i x)
    (hy : Reads s l m a j y) :
    ∃ ts, s.excluding m i j x y = some ts := by
  unfold excluding
  split
  case isTrue => exact ⟨_, rfl⟩
  case isFalse hij =>
    obtain rfl := not_not.mp hij
    exact ⟨_, if_pos (hx.unique hy)⟩

theorem mem_forbid {gate : List Term} {i j : SlotId} {allowed : Qualifier → Qualifier → Bool}
    {c : Clause} :
    c ∈ s.forbid l m gate i j allowed ↔
      ∃ p ∈ l.qualifiers, ∃ q ∈ l.qualifiers, allowed p q = false ∧
      ∃ ts, s.excluding m i j p q = some ts ∧ Term.clause? (gate ++ ts) = some c := by
  simp only [forbid, List.mem_flatMap, List.mem_filterMap]
  refine exists_congr fun p => and_congr_right fun _ => exists_congr fun q => and_congr_right
    fun _ => ?_
  cases allowed p q <;> simp [Option.bind_eq_some_iff]

/-- Under the gate, the clauses say that the pair of qualifiers is an allowed one. -/
theorem forbid_eval {gate : List Term} {i j : SlotId} {x y : Qualifier} (hx : Reads s l m a i x)
    (hy : Reads s l m a j y) {allowed : Qualifier → Qualifier → Bool} :
    (∀ c ∈ s.forbid l m gate i j allowed, Clause.eval a c = true) ↔
      gate.any (Term.eval a) = true ∨ allowed x y = true := by
  constructor
  · intro h
    by_contra hnot
    rw [not_or, Bool.not_eq_true, Bool.not_eq_true] at hnot
    -- the clause against the pair at hand is false
    obtain ⟨ts, hts⟩ := exists_excluding hx hy
    have hfalse : (gate ++ ts).any (Term.eval a) = false := by
      simp [List.any_append, hnot.1, excluding_eval hx hy hts]
    have hall := Term.clause?_eval a (gate ++ ts)
    rw [hfalse] at hall
    rcases hc : Term.clause? (gate ++ ts) with _ | c
    · simp [hc] at hall
    · have htrue := h c (mem_forbid.mpr ⟨x, hx.1, y, hy.1, hnot.2, ts, hts, hc⟩)
      simp [hc, htrue] at hall
  · intro h c hc
    obtain ⟨p, -, q, -, hpq, ts, hts, hc⟩ := mem_forbid.mp hc
    have hall := Term.clause?_eval a (gate ++ ts)
    rw [hc, Option.all_some, List.any_append, excluding_eval hx hy hts] at hall
    rw [hall, Bool.or_eq_true]
    refine h.imp_right fun hxy => ?_
    rw [Bool.not_eq_true', ← Bool.not_eq_true, Bool.and_eq_true, decide_eq_true_iff,
      decide_eq_true_iff]
    rintro ⟨rfl, rfl⟩
    rw [hxy] at hpq
    cases hpq

mutual

/-- Under the gate, the clauses of a constraint say that it holds. -/
theorem clauses_eval {value : SlotId → Option Qualifier} (gate : List Term) :
    (c : Constraint SlotId) →
    (∀ i ∈ c.slots, ∃ x, value i = some x ∧ Reads s l m a i x) →
    ((∀ clause ∈ s.clauses l m gate c, Clause.eval a clause = true) ↔
      gate.any (Term.eval a) = true ∨ c.holds l value = some true)
  | .subtype i j, h | .equality i j, h | .inequality i j, h | .comparable i j, h => by
    obtain ⟨x, hx, hreads⟩ := h i (by simp [Constraint.slots])
    obtain ⟨y, hy, hreads'⟩ := h j (by simp [Constraint.slots])
    rw [clauses, forbid_eval hreads hreads']
    simp [Constraint.holds, hx, hy]
  | .preference _ _ _, _ => by simp [clauses, Constraint.holds]
  | .existential i q thens otherwise, h => by
    obtain ⟨x, hx, -, hread⟩ := h i (by simp [Constraint.slots])
    have hthens := clausesOf_eval (gate ++ [(s.hasQualifier m i q).negate]) thens
      fun j hj => h j (by simp [Constraint.slots, hj])
    have hotherwise := clausesOf_eval (gate ++ [s.hasQualifier m i q]) otherwise
      fun j hj => h j (by simp [Constraint.slots, hj])
    rw [clauses, List.forall_mem_append, hthens, hotherwise, Constraint.holds, hx]
    simp only [List.any_append, List.any_cons, List.any_nil, Term.eval_negate, hread, Bool.or_false]
    by_cases hxq : x = q <;> simp [hxq]

theorem clausesOf_eval {value : SlotId → Option Qualifier} (gate : List Term) :
    (cs : List (Constraint SlotId)) →
    (∀ i ∈ Constraint.slotsOf cs, ∃ x, value i = some x ∧ Reads s l m a i x) →
    ((∀ clause ∈ s.clausesOf l m gate cs, Clause.eval a clause = true) ↔
      gate.any (Term.eval a) = true ∨ Constraint.holdsAll l value cs = some true)
  | [], _ => by simp [clausesOf, Constraint.holdsAll]
  | c :: cs, h => by
    have hc := clauses_eval gate c fun i hi => h i (by simp [Constraint.slotsOf, hi])
    have hcs := clausesOf_eval gate cs fun i hi => h i (by simp [Constraint.slotsOf, hi])
    rw [clausesOf, List.forall_mem_append, hc, hcs, ← or_and_left, Constraint.holdsAll_eq_some_true,
      Constraint.holdsAll_eq_some_true, List.forall_mem_cons]

end

end ConstraintStore

end Qualify
