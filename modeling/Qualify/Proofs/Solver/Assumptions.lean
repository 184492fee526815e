import Qualify.Proofs.Solver.History
import Qualify.Proofs.Solver.Reliable

namespace Qualify

/-- The soft clauses and the numbers of their selectors, which start just above `n`. Clauses of one
literal have none. -/
def selectorsFrom (n : Nat) : List SoftClause → List (Option Nat × SoftClause)
  | [] => []
  | ⟨[l], w⟩ :: rest => (none, ⟨[l], w⟩) :: selectorsFrom n rest
  | ⟨lits, w⟩ :: rest => (some (n + 1), ⟨lits, w⟩) :: selectorsFrom (n + 1) rest

namespace Cnf

def selectors (f : Cnf) : List (Option Nat × SoftClause) := selectorsFrom f.numVars f.soft.toList

def lastVar (weighted : Bool) (f : Cnf) : Nat :=
  if weighted then f.numVars + f.soft.toList.countP (fun s => s.lits.length ≠ 1) else f.numVars

/-- The problem where some selectors have values. The clause of one that is true is hard, and no
clause is soft whose selector has a value. -/
def selecting (values : Nat → Option Bool) (f : Cnf) : Cnf :=
  { f with
    hard :=
      f.hard ++ ((f.selectors.filter fun p => p.1.bind values = some true).map (·.2.lits)).toArray
    soft := ((f.selectors.filter fun p => p.1.bind values = none).map (·.2)).toArray }

end Cnf

def Outcome.model? : Outcome → Option Model
  | .sat m => some m
  | .unsat _ => none

section Selectors

theorem selectorsFrom_select {lits : Clause} (hlits : ∀ l, lits ≠ [l]) (n : Nat) (w : Weight)
    (softs : List SoftClause) :
    selectorsFrom n (⟨lits, w⟩ :: softs) = (some (n + 1), ⟨lits, w⟩) ::
      selectorsFrom (n + 1) softs := by
  rw [selectorsFrom]
  exact hlits

theorem map_selectorsFrom (n : Nat) (softs : List SoftClause) :
    (selectorsFrom n softs).map (·.2) = softs := by
  induction softs generalizing n with
  | nil => rfl
  | cons s softs ih =>
    obtain ⟨lits, w⟩ := s
    by_cases hunit : ∃ l, lits = [l]
    · obtain ⟨l, rfl⟩ := hunit
      rw [selectorsFrom, List.map_cons, ih]
    · rw [selectorsFrom_select (fun l hl => hunit ⟨l, hl⟩), List.map_cons, ih]

theorem mem_of_mem_selectors {f : Cnf} {p : Option Nat × SoftClause} (hp : p ∈ f.selectors) :
    p.2 ∈ f.soft := by
  rw [← Array.mem_toList_iff, ← map_selectorsFrom f.numVars f.soft.toList]
  exact List.mem_map_of_mem hp

/-- Selectors can have any values, whatever those of the variables of the problem are. -/
theorem exists_selected (g : SoftClause → Bool) (n : Nat) (softs : List SoftClause)
    (a : Nat → Bool) :
    ∃ b : Nat → Bool, (∀ v ≤ n, b v = a v) ∧ ∀ p ∈ selectorsFrom n softs, ∀ v, p.1 = some v →
      b v = g p.2 := by
  induction softs generalizing n a with
  | nil => exact ⟨a, fun _ _ => rfl, by simp [selectorsFrom]⟩
  | cons s softs ih =>
    obtain ⟨lits, w⟩ := s
    by_cases hunit : ∃ l, lits = [l]
    · obtain ⟨l, rfl⟩ := hunit
      obtain ⟨b, hb, hsel⟩ := ih n a
      refine ⟨b, hb, ?_⟩
      rw [selectorsFrom, List.forall_mem_cons]
      exact ⟨by simp, hsel⟩
    · obtain ⟨b, hb, hsel⟩ := ih (n + 1) (Function.update a (n + 1) (g ⟨lits, w⟩))
      refine ⟨b, fun v hv => ?_, ?_⟩
      · rw [hb v (by omega), Function.update_of_ne (by omega)]
      · rw [selectorsFrom_select (fun l hl => hunit ⟨l, hl⟩), List.forall_mem_cons]
        refine ⟨fun v hv => ?_, hsel⟩
        obtain rfl := Option.some.inj hv
        rw [hb _ (Nat.le_refl _), Function.update_self]

end Selectors

namespace DiagramSolver

open Diagram (valuesOf overlay)

section Scoring

variable {root : (Nat → Bool) → Bool} {gains : Array Gain}

theorem size_scoring (softs : List SoftClause) :
    (scoring softs root gains).2.size = gains.size + softs.countP (fun s => s.lits.length ≠ 1) := by
  induction softs generalizing root gains with
  | nil => rfl
  | cons s softs ih =>
    obtain ⟨lits, w⟩ := s
    by_cases hunit : ∃ l, lits = [l]
    · obtain ⟨l, rfl⟩ := hunit
      rw [scoring, ih, Array.size_modify, List.countP_cons_of_neg (by simp)]
    · have hlength : lits.length ≠ 1 := fun h => hunit (List.length_eq_one_iff.mp h)
      rw [scoring_select softs (fun l hl => hunit ⟨l, hl⟩), ih, Array.size_push,
        List.countP_cons_of_pos (by simpa using hlength)]
      omega

/-- The root holds where no selector is true without its clause. -/
theorem scoring_root_iff (softs : List SoftClause) (a : Nat → Bool) :
    (scoring softs root gains).1 a = true ↔ root a = true ∧
      ∀ p ∈ selectorsFrom gains.size softs, ∀ v,
      p.1 = some v → a v = true → Clause.eval a p.2.lits = true := by
  induction softs generalizing root gains with
  | nil => simp [scoring, selectorsFrom]
  | cons s softs ih =>
    obtain ⟨lits, w⟩ := s
    by_cases hunit : ∃ l, lits = [l]
    · obtain ⟨l, rfl⟩ := hunit
      rw [scoring, ih, Array.size_modify, selectorsFrom, List.forall_mem_cons]
      simp
    · have hguard : Clause.eval a (Var.neg ⟨gains.size + 1, Nat.succ_pos _⟩ :: lits) = true ↔
          (a (gains.size + 1) = true → Clause.eval a lits = true) := by
        cases hsel : a (gains.size + 1) <;> simp [Clause.eval, Lit.eval, hsel]
      rw [scoring_select softs (fun l hl => hunit ⟨l, hl⟩), ih, Array.size_push,
        selectorsFrom_select (fun l hl => hunit ⟨l, hl⟩), List.forall_mem_cons, Bool.and_eq_true,
        hguard, and_assoc]
      simp

/-- Whether a soft clause is paid for: if it has a selector, this is true. -/
def pays (a : Nat → Bool) (p : Option Nat × SoftClause) : Bool :=
  (p.1.map a).getD (Clause.eval a p.2.lits)

def paid (ps : List (Option Nat × SoftClause)) (a : Nat → Bool) : Nat :=
  (ps.map fun p => if pays a p then p.2.weight.toNat else 0).sum

theorem paid_cons (p : Option Nat × SoftClause) (ps : List (Option Nat × SoftClause))
    (a : Nat → Bool) :
    paid (p :: ps) a = (if pays a p then p.2.weight.toNat else 0) + paid ps a := rfl

/-- As long as the weights fit, the gains pay for each clause by itself. -/
theorem Scored.income_scoring {hard : (Nat → Bool) → Bool} {n : Nat} {done : List SoftClause}
    (h : Scored hard n done root gains) (softs : List SoftClause)
    (hsofts : ∀ s ∈ softs, ∀ l ∈ s.lits, l.var.number ≤ n)
    (hsum : totalWeight (done ++ softs) < 2 ^ 64) (a : Nat → Bool) :
    income (DiagramSolver.scoring softs root gains).2 a =
      income gains a + paid (selectorsFrom gains.size softs) a := by
  induction softs generalizing root gains done with
  | nil => rfl
  | cons s softs ih =>
    obtain ⟨hs, hrest⟩ := List.forall_mem_cons.mp hsofts
    obtain ⟨lits, w⟩ := s
    rw [List.append_cons] at hsum
    have hdone : totalWeight done + w.toNat < 2 ^ 64 := by
      rw [← totalWeight_append done lits w]
      refine lt_of_le_of_lt ?_ hsum
      exact Weight.sum_le_of_sublist ((List.sublist_append_left _ _).map _)
    by_cases hunit : ∃ l, lits = [l]
    · obtain ⟨l, rfl⟩ := hunit
      have hl := hs l List.mem_cons_self
      have hi : l.var.index < gains.size := by
        have hpos := l.var.positive
        have := h.size
        unfold Var.index
        omega
      rw [DiagramSolver.scoring, ih (h.unit hl w) hrest hsum, h.income_raise hi hdone,
        Array.size_modify, selectorsFrom, paid_cons]
      simp only [pays, Option.map_none, Option.getD_none, Clause.eval, List.any_cons, List.any_nil,
        Bool.or_false]
      omega
    · have hincome : income (gains.push ⟨0, w⟩) a = income gains a + if a (gains.size + 1) then
          w.toNat else 0 := by
        rw [income, tally_push]
        cases a (gains.size + 1) <;> rfl
      rw [scoring_select softs (fun l hl => hunit ⟨l, hl⟩),
        ih (h.select hs w ⟨gains.size + 1, Nat.succ_pos _⟩ rfl) hrest hsum, hincome,
        Array.size_push, selectorsFrom_select (fun l hl => hunit ⟨l, hl⟩), paid_cons]
      exact Nat.add_assoc _ _ _

end Scoring

section Selecting

variable {values : Nat → Option Bool} {a : Nat → Bool}

theorem overlay_overlay : overlay values (overlay values a) = overlay values a := by
  funext v
  unfold overlay
  cases values v <;> rfl

def claimed (values : Nat → Option Bool) (ps : List (Option Nat × SoftClause)) : Nat :=
  (ps.map fun p => if p.1.bind values = some true then p.2.weight.toNat else 0).sum

theorem satisfiedWeight_filter (q : Option Nat × SoftClause → Bool)
    (ps : List (Option Nat × SoftClause)) :
    satisfiedWeight ((ps.filter q).map (·.2)) a =
      (ps.map fun p => if q p && Clause.eval a p.2.lits then p.2.weight.toNat else 0).sum := by
  induction ps with
  | nil => rfl
  | cons p ps ih =>
    unfold satisfiedWeight at ih ⊢
    cases hq : q p <;> cases heval : Clause.eval a p.2.lits <;> simp [hq, heval, ih]

/-- A selector with a value has it. -/
theorem pays_of_overlay (ha : overlay values a = a) {p : Option Nat × SoftClause} {b : Bool}
    (hp : p.1.bind values = some b) : pays a p = b := by
  obtain ⟨v, hv, hb⟩ := Option.bind_eq_some_iff.mp hp
  rw [pays, hv, Option.map_some, Option.getD_some, ← ha, overlay, hb, Option.getD_some]

/-- If no selector is true without its clause, no more is paid than the open clauses earn. -/
theorem paid_le (ha : overlay values a = a) {ps : List (Option Nat × SoftClause)}
    (hguard : ∀ p ∈ ps, ∀ v, p.1 = some v → a v = true → Clause.eval a p.2.lits = true) :
    paid ps a ≤ satisfiedWeight ((ps.filter fun p => p.1.bind values = none).map (·.2)) a +
      claimed values ps := by
  rw [satisfiedWeight_filter, claimed, paid, ← List.sum_map_add]
  apply List.sum_le_sum
  intro p hp
  cases hval : p.1.bind values with
  | some b => cases b <;> simp [pays_of_overlay ha hval]
  | none =>
    have hpays : pays a p = true → Clause.eval a p.2.lits = true := by
      unfold pays
      cases hsel : p.1 with
      | none => exact id
      | some v => exact hguard p hp v hsel
    cases hpay : pays a p with
    | false => simp
    | true => simp [hpays hpay]

/-- If the selectors of open clauses are true whenever these are, no less is paid. -/
theorem le_paid (ha : overlay values a = a) {ps : List (Option Nat × SoftClause)}
    (hopen : ∀ p ∈ ps, ∀ v, p.1 = some v → values v = none → Clause.eval a p.2.lits = true →
      a v = true) :
    satisfiedWeight ((ps.filter fun p => p.1.bind values = none).map (·.2)) a + claimed values ps ≤
      paid ps a := by
  rw [satisfiedWeight_filter, claimed, paid, ← List.sum_map_add]
  apply List.sum_le_sum
  intro p hp
  cases hval : p.1.bind values with
  | some b => cases b <;> simp [pays_of_overlay ha hval]
  | none =>
    have hpays : Clause.eval a p.2.lits = true → pays a p = true := by
      unfold pays
      cases hsel : p.1 with
      | none => exact id
      | some v =>
        rw [hsel, Option.bind_some] at hval
        exact hopen p hp v hsel hval
    cases heval : Clause.eval a p.2.lits with
    | false => simp
    | true => simp [hpays heval]

end Selecting

section Answers

variable {f : Cnf}

theorem scoringOf_root_iff {a : Nat → Bool} :
    (scoringOf f).1 a = true ↔ f.eval a = true ∧ ∀ p ∈ f.selectors, ∀ v,
    p.1 = some v → a v = true → Clause.eval a p.2.lits = true := by
  rw [scoringOf, scoring_root_iff, Array.size_replicate]
  rfl

theorem allows_selecting_iff {values : Nat → Option Bool} {ls : List Lit}
    {assignment : Array Bool} :
    (f.selecting values).Allows ls assignment ↔ f.Allows ls assignment ∧ ∀ p ∈ f.selectors,
      p.1.bind values = some true → Clause.eval (valuation assignment) p.2.lits = true := by
  have heval : (f.selecting values).evaluate assignment = true ↔ f.evaluate assignment = true ∧
      ∀ p ∈ f.selectors, p.1.bind values = some true →
          Clause.eval (valuation assignment) p.2.lits = true := by
    rw [Cnf.evaluate_eq, Cnf.evaluate_eq, Cnf.eval, Cnf.eval, Cnf.selecting, Array.toList_append,
      List.all_append, Bool.and_eq_true]
    simp only [List.all_map, List.all_filter, List.all_eq_true, Function.comp_apply,
      Bool.or_eq_true, Bool.not_eq_true', decide_eq_false_iff_not, ← imp_iff_not_or]
  rw [Cnf.Allows, Cnf.Allows, heval, and_right_comm]

variable (hf : f.Bounded) {assumed : List Lit} (hc : Lit.Consistent assumed)

include hf hc

/-- An assignment that is allowed together with the selectors reaches the root. Those that are left
free are true exactly if their clauses are. -/
theorem exists_root_of_selecting {assignment : Array Bool}
    (h : (f.selecting (valuesOf assumed)).Allows (assumed.filter (·.var.number ≤ f.numVars))
      assignment) :
    ∃ b, overlay (valuesOf assumed) b = b ∧
      (∀ v, 0 < v → v ≤ f.numVars → b v = valuation assignment v) ∧
      (scoringOf f).1 b = true ∧ ∀ p ∈ f.selectors, ∀ v, p.1 = some v → valuesOf assumed v = none →
        b v = Clause.eval (valuation assignment) p.2.lits := by
  obtain ⟨hallows, hclaimed⟩ := allows_selecting_iff.mp h
  obtain ⟨b, hb, hsel⟩ := exists_selected (fun s => Clause.eval (valuation assignment) s.lits)
    f.numVars f.soft.toList (valuation assignment)
  have hold : ∀ v, 0 < v → v ≤ f.numVars →
      overlay (valuesOf assumed) b v = valuation assignment v := by
    intro v hv hvn
    rw [overlay, hb v hvn]
    by_cases hex : ∃ l ∈ assumed, l.var.number = v
    · obtain ⟨l, hl, rfl⟩ := hex
      have hholds := hallows.2 l (List.mem_filter.mpr ⟨hl, by simpa using hvn⟩)
      rw [Lit.holds_eq] at hholds
      rw [Diagram.valuesOf_of_mem hc hl]
      exact (eq_of_beq hholds).symm
    · rw [Diagram.valuesOf_eq_none fun l hl hlv => hex ⟨l, hl, hlv⟩]
      rfl
  have hfree : ∀ p ∈ f.selectors, ∀ v, p.1 = some v → valuesOf assumed v = none →
      overlay (valuesOf assumed) b v = Clause.eval (valuation assignment) p.2.lits := by
    intro p hp v hv hnone
    rw [overlay, hnone, Option.getD_none, hsel p hp v hv]
  refine ⟨overlay (valuesOf assumed) b, overlay_overlay, hold,
    scoringOf_root_iff.mpr ⟨?_, fun p hp v hv htrue => ?_⟩, hfree⟩
  · rw [hf.eval_congr hold, ← Cnf.evaluate_eq]
    exact hallows.1
  · rw [Clause.eval_congr fun l hl => hold _ l.var.positive
      (hf.soft _ (mem_of_mem_selectors hp) l hl)]
    cases hval : valuesOf assumed v with
    | none => rw [← hfree p hp v hv hval, htrue]
    | some x =>
      rw [overlay, hval, Option.getD_some] at htrue
      exact hclaimed p hp (by rw [hv, Option.bind_some, hval, htrue])

theorem allows_selecting_of_root {a : Nat → Bool}
    (ha : (scoringOf f).1 (overlay (valuesOf assumed) a) = true) {assignment : Array Bool}
    (hv : ∀ v, 0 < v → v ≤ f.numVars → valuation assignment v = overlay (valuesOf assumed) a v) :
    (f.selecting (valuesOf assumed)).Allows (assumed.filter (·.var.number ≤ f.numVars))
      assignment := by
  obtain ⟨heval, hguard⟩ := scoringOf_root_iff.mp ha
  refine allows_selecting_iff.mpr ⟨⟨?_, fun l hl => ?_⟩, fun p hp hclaimed => ?_⟩
  · rw [Cnf.evaluate_eq, hf.eval_congr hv, heval]
  · obtain ⟨hmem, hle⟩ := List.mem_filter.mp hl
    rw [Lit.holds_eq, Lit.eval_congr (hv _ l.var.positive (by simpa using hle))]
    exact Diagram.eval_overlay_valuesOf hc a hmem
  · rw [Clause.eval_congr fun l hl => hv _ l.var.positive
      (hf.soft _ (mem_of_mem_selectors hp) l hl)]
    obtain ⟨v, hsel, hval⟩ := Option.bind_eq_some_iff.mp hclaimed
    exact hguard p hp v hsel (by rw [overlay, hval, Option.getD_some])

omit hc in
theorem selecting_bounded (values : Nat → Option Bool) :
    ∀ s ∈ (f.selecting values).soft.toList, ∀ l ∈ s.lits, l.var.number ≤ f.numVars := by
  intro s hs
  obtain ⟨p, hp, rfl⟩ := List.mem_map.mp hs
  exact hf.soft _ (mem_of_mem_selectors (List.mem_filter.mp hp).1)

omit hc in
/-- What the gains pay, clause by clause. -/
theorem income_scoringOf (hsum : totalWeight f.soft.toList < 2 ^ 64) (a : Nat → Bool) :
    income (scoringOf f).2 a = paid f.selectors a := by
  have hstart : income (Array.replicate f.numVars ⟨0, 0⟩) a = 0 :=
    tally_replicate _ _ fun i => by cases a (i + 1) <;> rfl
  have hincome := (scored_start hf).income_scoring f.soft.toList
    (fun s hs => hf.soft s (Array.mem_toList_iff.mp hs)) hsum a
  rwa [Array.size_replicate, hstart, Nat.zero_add] at hincome

/-- If the restricted root has a model that earns the most, an assignment that is allowed earns at
most as much by the open clauses. -/
theorem selecting_weight_le {m : Nat → Bool}
    (hm : (scoringOf f).1 (overlay (valuesOf assumed) m) = true)
    (hbest : ∀ a, (scoringOf f).1 (overlay (valuesOf assumed) a) = true →
      income (scoringOf f).2 a ≤ income (scoringOf f).2 m)
    (hsum : totalWeight f.soft.toList < 2 ^ 64) {assignment : Array Bool}
    (h : (f.selecting (valuesOf assumed)).Allows (assumed.filter (·.var.number ≤ f.numVars))
      assignment) :
    satisfiedWeight (f.selecting (valuesOf assumed)).soft.toList (valuation assignment) ≤
      satisfiedWeight (f.selecting (valuesOf assumed)).soft.toList
        (overlay (valuesOf assumed) m) := by
  obtain ⟨b, hover, hb, hroot, hopen⟩ := exists_root_of_selecting hf hc h
  have hclause : ∀ p ∈ f.selectors, Clause.eval b p.2.lits =
      Clause.eval (valuation assignment) p.2.lits :=
    fun p hp => Clause.eval_congr
      fun l hl => hb _ l.var.positive (hf.soft _ (mem_of_mem_selectors hp) l hl)
  -- With the values of `m` where literals are assumed, `b` is a model of the restricted root.
  have hswap := income_swap (m := m) (scoringOf f).2 hover
  have hle := hbest (blend (valuesOf assumed) m b) (by rw [overlay_blend hover, hroot])
  have hlower : _ ≤ paid f.selectors b := le_paid hover fun p hp v hv hnone heval => by
    rw [hopen p hp v hv hnone, ← hclause p hp, heval]
  have hupper := paid_le overlay_overlay (scoringOf_root_iff.mp hm).2
  have hsame : satisfiedWeight (f.selecting (valuesOf assumed)).soft.toList b =
      satisfiedWeight (f.selecting (valuesOf assumed)).soft.toList (valuation assignment) :=
    satisfiedWeight_congr (selecting_bounded hf (valuesOf assumed)) hb
  simp only [income_scoringOf hf hsum] at hswap hle
  rw [← hsame]
  simp only [Cnf.selecting]
  omega

theorem selecting_cost_le {m : Nat → Bool}
    (hm : (scoringOf f).1 (overlay (valuesOf assumed) m) = true)
    (hbest : ∀ a, (scoringOf f).1 (overlay (valuesOf assumed) a) = true →
      income (scoringOf f).2 a ≤ income (scoringOf f).2 m)
    (hsum : totalWeight f.soft.toList < 2 ^ 64) {chosen assignment : Array Bool}
    (hchosen : ∀ v, 0 < v → v ≤ f.numVars → valuation chosen v = overlay (valuesOf assumed) m v)
    (h : (f.selecting (valuesOf assumed)).Allows (assumed.filter (·.var.number ≤ f.numVars))
      assignment) :
    (f.selecting (valuesOf assumed)).softCost chosen ≤
      (f.selecting (valuesOf assumed)).softCost assignment := by
  have hweight := selecting_weight_le hf hc hm hbest hsum h
  have htotal : totalWeight (f.selecting (valuesOf assumed)).soft.toList < 2 ^ 64 := by
    refine lt_of_le_of_lt (Weight.sum_le_of_sublist ?_) hsum
    rw [← map_selectorsFrom f.numVars f.soft.toList]
    exact ((List.filter_sublist).map _).map _
  rw [← satisfiedWeight_congr (selecting_bounded hf (valuesOf assumed)) hchosen] at hweight
  have hcost := toNat_softCost htotal assignment
  have hcost' := toNat_softCost htotal chosen
  rw [UInt64.le_iff_toNat_le]
  omega

end Answers

section Read

/-- How an outcome comes about: the hard clauses are inconsistent, or it is read off an edge that
has the values of the problem under the assumed literals. -/
inductive Read (weighted : Bool) (cnf : Cnf) (assumed : List Lit) : Outcome → Prop where
  | inconsistent (core : Option (List Nat)) : (∀ a, cnf.eval a = false) →
    Read weighted cnf assumed (.unsat core)
  | model {d : Diagram} {e : Edge} : ¬(∀ a, cnf.eval a = false) →
      Denotes d (fun a => rootOf weighted cnf (overlay (valuesOf assumed) a)) e →
      Read weighted cnf assumed (reading weighted cnf (scoringOf cnf).2 assumed d e)

variable {weighted : Bool} {cnf : Cnf} {assumed : List Lit}

theorem query_read {c : Config} {k : Compiled} {d : Diagram} (hk : k.Exact c.weighted d)
    (ho : opposed assumed = false) :
    Keeps c (query c k assumed) d (Read c.weighted k.cnf assumed) := by
  by_cases hz : k.hard = .zero
  · have hcnf := hk.hard.eq_zero_iff.mp hz
    simp only [query, if_pos hz]
    split_ifs
    · obtain ⟨ks, hks⟩ := core_determined k.cnf
      exact (hks hk.hard.sound).bind fun core d₁ hg _ => .pure hg.1 (.inconsistent _ hcnf)
    · exact .pure hk.hard.sound (.inconsistent _ hcnf)
  · obtain ⟨d₁, e, he, hkeeps⟩ := query_reads hk hz ho
    apply Gives.mono hkeeps
    · rintro o d' ⟨hg, rfl⟩
      rw [reading_gains fun hw => hk.gains hw hz]
      exact ⟨hg, .model (mt hk.hard.eq_zero_iff.mpr hz) he⟩
    · exact fun _ hg => hg

theorem solve_read {s : DiagramSolver} (hs : s.Kept) (hfree : ¬s.config.Limited) (cnf : Cnf)
    (ho : opposed assumed = false) :
    ∃ o, (solve cnf assumed s).1 = .ok o ∧ Read s.config.weighted cnf assumed o := by
  have hsolve := solve_meets hs cnf assumed fun k d hk hexact => hk ▸ query_read hexact ho
  obtain ⟨o, s', hrun, ho, -⟩ := (hsolve.mono (fun _ _ h => h) fun _ h => hfree h.1).exists_eq
  exact ⟨o, by rw [hrun], ho⟩

/-- The root does not depend on variables that the solver does not know. -/
theorem rootOf_congr (hcnf : cnf.Bounded) {a b : Nat → Bool}
    (h : ∀ v ≤ cnf.lastVar weighted, a v = b v) :
    rootOf weighted cnf a = rootOf weighted cnf b := by
  unfold rootOf
  cases weighted with
  | true =>
    apply (scored_scoringOf hcnf).upto
    rw [scoringOf, size_scoring, Array.size_replicate]
    exact h
  | false => exact hcnf.eval_congr fun v _ hv => h v hv

theorem numVars_le_lastVar : cnf.numVars ≤ cnf.lastVar weighted := by
  unfold Cnf.lastVar
  split_ifs <;> omega

section Filter

variable {keep : Lit → Bool} (hc : Lit.Consistent assumed)

include hc

theorem consistent_filter (keep : Lit → Bool) : Lit.Consistent (assumed.filter keep) :=
  fun l hl l' hl' =>
  hc l (List.mem_of_mem_filter hl) l' (List.mem_of_mem_filter hl')

theorem valuesOf_filter {v : Nat} (hkeep : ∀ l ∈ assumed, l.var.number = v → keep l = true) :
    valuesOf (assumed.filter keep) v = valuesOf assumed v := by
  by_cases hex : ∃ l ∈ assumed, l.var.number = v
  · obtain ⟨l, hl, rfl⟩ := hex
    rw [Diagram.valuesOf_of_mem hc hl,
      Diagram.valuesOf_of_mem (consistent_filter hc keep)
        (List.mem_filter.mpr ⟨hl, hkeep l hl rfl⟩)]
  · rw [Diagram.valuesOf_eq_none fun l hl hlv => hex ⟨l, hl, hlv⟩,
      Diagram.valuesOf_eq_none fun l hl hlv => hex ⟨l, List.mem_of_mem_filter hl, hlv⟩]

theorem imposed_filter {assignment : Array Bool}
    (hkeep : ∀ l ∈ assumed, l.var.number ≤ assignment.size → keep l = true) :
    imposed (assumed.filter keep) assignment = imposed assumed assignment := by
  obtain ⟨hsize, hval⟩ := valuation_imposed hc assignment
  obtain ⟨hsize', hval'⟩ := valuation_imposed (consistent_filter hc keep) assignment
  apply eq_of_valuation_eq (hsize'.trans hsize.symm)
  intro v hv hvs
  rw [hsize'] at hvs
  rw [hval v hv hvs, hval' v hv hvs, overlay, overlay, valuesOf_filter hc]
  intro l hl hlv
  exact hkeep l hl (hlv ▸ hvs)

theorem reading_filter (hkeep : ∀ l ∈ assumed, l.var.number ≤ cnf.numVars → keep l = true)
    (gains : Array Gain) (d : Diagram) (e : Edge) :
    reading weighted cnf gains (assumed.filter keep) d e =
      reading weighted cnf gains assumed d e := by
  have himposed : ∀ m : Array Bool,
      imposed (assumed.filter keep) (m.take cnf.numVars) =
          imposed assumed (m.take cnf.numVars) := by
    intro m
    apply imposed_filter hc
    intro l hl hle
    rw [Array.size_extract] at hle
    exact hkeep l hl (by omega)
  simp only [reading, himposed]

/-- Without literals of variables that the solver does not know, the same model is read. -/
theorem Read.model?_eq (hcnf : cnf.Bounded) {o o' : Outcome} (h : Read weighted cnf assumed o)
    (hkeep : ∀ l ∈ assumed, l.var.number ≤ cnf.lastVar weighted → keep l = true)
    (h' : Read weighted cnf (assumed.filter keep) o') : o.model? = o'.model? := by
  cases h with
  | inconsistent core hz =>
    cases h' with
    | inconsistent core' _ => rfl
    | model hnz _ => exact absurd hz hnz
  | model hnz hd =>
    cases h' with
    | inconsistent core' hz => exact absurd hz hnz
    | model _ hd' =>
      have hroot : (fun a => rootOf weighted cnf (overlay (valuesOf (assumed.filter keep)) a)) =
          fun a => rootOf weighted cnf (overlay (valuesOf assumed) a) := by
        funext a
        apply rootOf_congr hcnf
        intro v hv
        rw [overlay, overlay, valuesOf_filter hc fun l hl hlv => hkeep l hl (hlv ▸ hv)]
      rw [hroot] at hd'
      rw [reading_eq (hd.alike hd'),
        reading_filter hc fun l hl hle => hkeep l hl (hle.trans numVars_le_lastVar)]

end Filter

theorem opposed_filter (ho : opposed assumed = false) (keep : Lit → Bool) :
    opposed (assumed.filter keep) = false := by
  rw [opposed, List.any_eq_false] at ho ⊢
  intro l hl hopposite
  rw [List.contains_iff_mem] at hopposite
  exact ho l (List.mem_of_mem_filter hl)
    (List.contains_iff_mem.mpr (List.mem_of_mem_filter hopposite))

end Read

/-- The model is a right one of `problem` under the assumed literals, at the cost that it has in
`cnf`. As long as the weights fit, no other violates less of the soft clauses of `problem`. -/
structure IsBest (weighted : Bool) (cnf problem : Cnf) (assumed : List Lit) (m : Model) : Prop where
  size : m.assignment.size = cnf.numVars
  allows : problem.Allows assumed m.assignment
  cost : m.cost = if weighted then cnf.softCost m.assignment else 0
  least : weighted = true → totalWeight cnf.soft.toList < 2 ^ 64 →
    ∀ assignment, problem.Allows assumed assignment →
    problem.softCost m.assignment ≤ problem.softCost assignment

section Outside

variable {cnf : Cnf} (hcnf : cnf.Bounded) {assumed : List Lit} (ho : opposed assumed = false)

include hcnf ho

theorem Read.selecting {o : Outcome} (h : Read true cnf assumed o) :
    let problem := cnf.selecting (valuesOf assumed)
    let inside := assumed.filter (·.var.number ≤ cnf.numVars)
    (o.model? = none ↔ ¬∃ assignment, problem.Allows inside assignment) ∧
      ∀ m, o.model? = some m → IsBest true cnf problem inside m := by
  intro problem inside
  have hc := Lit.Consistent.of_opposed ho
  cases h with
  | inconsistent core hz =>
    refine ⟨iff_of_true rfl ?_, by rintro m ⟨⟩⟩
    rintro ⟨assignment, hallows⟩
    have heval := (allows_selecting_iff.mp hallows).1.1
    rw [Cnf.evaluate_eq, hz] at heval
    cases heval
  | @model d e _ hd =>
    have hgains : (scoringOf cnf).2.size = cnf.lastVar true := by
      rw [scoringOf, size_scoring, Array.size_replicate]
      rfl
    by_cases hz : e = .zero
    · rw [reading, if_pos hz]
      refine ⟨iff_of_true rfl ?_, by rintro m ⟨⟩⟩
      rintro ⟨assignment, hallows⟩
      obtain ⟨b, hover, -, hroot, -⟩ := exists_root_of_selecting hcnf hc hallows
      have hfalse := hd.eq_zero_iff.mp hz b
      rw [hover] at hfalse
      exact absurd hroot (by rw [← Bool.not_eq_false]; simpa [rootOf] using hfalse)
    · have hupto : d.Upto (scoringOf cnf).2.size e := by
        intro a b hab
        rw [hd.eval, hd.eval]
        apply rootOf_congr hcnf
        intro v hv
        rw [overlay, overlay, hab v (hgains ▸ hv)]
      obtain ⟨m, w, hm, hsize, heval, hbest⟩ :=
        Diagram.bestModel?_spec hd.sound.toReduced hd.has hz hupto
      rw [hd.eval] at heval
      obtain ⟨hlength, hvalue⟩ := valuation_imposed_take hc (hsize ▸ (scored_scoringOf hcnf).size)
      have hallows := allows_selecting_of_root hcnf hc heval hvalue
      simp only [reading, if_neg hz, if_true, hm, Option.map_some]
      refine ⟨iff_of_false (by rintro ⟨⟩) (not_not_intro ⟨_, hallows⟩), ?_⟩
      rintro _ ⟨⟩
      refine ⟨hlength, hallows, rfl, fun _ hsum assignment hother => ?_⟩
      have hfits := fits_of_spread (((scored_scoringOf hcnf).spread_eq hsum).trans_lt hsum)
      apply selecting_cost_le hcnf hc heval _ hsum hvalue hother
      intro a ha
      rw [income_eq_earned, income_eq_earned, ← (hbest hfits).1]
      exact (hbest hfits).2 a (by rw [hd.eval]; exact ha)

/-- Without weights there are no selectors, and literals outside the problem can be left out. -/
theorem Read.plain {s : DiagramSolver} (hs : s.Valid) (hfree : ¬s.config.Limited)
    (hw : s.config.weighted = false) {o : Outcome} (h : Read false cnf assumed o) :
    let inside := assumed.filter (·.var.number ≤ cnf.numVars)
    (o.model? = none ↔ ¬∃ assignment, cnf.Allows inside assignment) ∧
      ∀ m, o.model? = some m → IsBest false cnf cnf inside m := by
  intro inside
  obtain ⟨o', hsolve, hread⟩ :=
    solve_read hs.kept hfree cnf (opposed_filter ho (·.var.number ≤ cnf.numVars))
  obtain ⟨-, -, hout⟩ := solve_cases hs hcnf inside
  have hanswers : o'.Answers false cnf inside := by
    rcases hout with ⟨e, he, -⟩ | ⟨o₁, ho₁, hanswers⟩
    · rw [hsolve] at he
      cases he
    · rw [hsolve, Except.ok.injEq] at ho₁
      rw [ho₁, ← hw]
      exact hanswers fun l hl => by simpa using (List.mem_filter.mp hl).2
  rw [hw] at hread
  rw [h.model?_eq (Lit.Consistent.of_opposed ho) hcnf
    (fun l _ hle => by simpa [Cnf.lastVar] using hle) hread]
  cases o' with
  | unsat core =>
    refine ⟨iff_of_true rfl ?_, by rintro m ⟨⟩⟩
    rintro ⟨assignment, hallows⟩
    exact hanswers assignment hallows
  | sat m =>
    obtain ⟨hsize, hallows, hcost⟩ := hanswers
    refine ⟨iff_of_false (by rintro ⟨⟩) (not_not_intro ⟨_, hallows⟩), ?_⟩
    rintro _ ⟨⟩
    exact ⟨hsize, hallows, hcost, by rintro ⟨⟩⟩

end Outside

/-- Without limits, literals of variables that the solver does not know make no difference to the
model. Under the other literals the answer is that of the problem where the selectors have their
assumed values. -/
theorem solve_outside {s s' : DiagramSolver} (hs : s.Reachable) (hs' : s'.Reachable)
    (hfree : ¬s.config.Limited) (hfree' : ¬s'.config.Limited)
    (hw : s'.config.weighted = s.config.weighted) {cnf : Cnf} (hcnf : cnf.Built)
    {assumed : List Lit} (ho : opposed assumed = false) {keep : Lit → Bool}
    (hkeep : ∀ l ∈ assumed, l.var.number ≤ cnf.lastVar s.config.weighted → keep l = true) :
    let problem := if s.config.weighted then cnf.selecting (valuesOf assumed) else cnf
    let inside := assumed.filter (·.var.number ≤ cnf.numVars)
    ∃ o o', (solve cnf assumed s).1 = .ok o ∧ (solve cnf (assumed.filter keep) s').1 = .ok o' ∧
      o.model? = o'.model? ∧ (o.model? = none ↔ ¬∃ assignment, problem.Allows inside assignment) ∧
      ∀ m, o.model? = some m → IsBest s.config.weighted cnf problem inside m := by
  intro problem inside
  obtain ⟨o, hsolve, hread⟩ := solve_read hs.valid.kept hfree cnf ho
  obtain ⟨o', hsolve', hread'⟩ := solve_read hs'.valid.kept hfree' cnf (opposed_filter ho keep)
  rw [hw] at hread'
  refine ⟨o, o', hsolve, hsolve',
    hread.model?_eq (Lit.Consistent.of_opposed ho) hcnf.bounded hkeep hread', ?_⟩
  cases hweighted : s.config.weighted with
  | true =>
    rw [hweighted] at hread
    simpa [problem, hweighted] using hread.selecting hcnf.bounded ho
  | false =>
    have hplain := hread
    rw [hweighted] at hplain
    simpa [problem, hweighted] using hplain.plain hcnf.bounded ho hs.valid hfree hweighted

def softPair : Cnf :=
  let x : Var := ⟨1, Nat.one_pos⟩
  let y : Var := ⟨2, Nat.two_pos⟩
  Cnf.addSoft {} [x.pos, y.pos] 5

def unlimited (sizing : Sizing) : DiagramSolver := new { sizing, nodeLimit := none }

/-- The selector is assumed false, so that nothing speaks for the clause; variable 9 is not
known. -/
theorem solve_outside_softPair :
    let selector : Var := ⟨3, Nat.succ_pos 2⟩
    let unknown : Var := ⟨9, Nat.succ_pos 8⟩
    let solver := unlimited ⟨1, 1⟩
    (solve softPair [selector.neg, unknown.pos] solver).1 = .ok (.sat ⟨#[false, false], 5⟩) ∧
      (∃ o, (solve softPair [selector.neg] solver).1 = .ok o ∧
        o.model? = some ⟨#[false, false], 5⟩) ∧
      IsBest true softPair (softPair.selecting (valuesOf [selector.neg, unknown.pos])) []
        ⟨#[false, false], 5⟩ := by
  intro selector unknown solver
  have hsolve : (solve softPair [selector.neg, unknown.pos] solver).1 =
      .ok (.sat ⟨#[false, false], 5⟩) := by cbv
  have hreachable : solver.Reachable := .new _
  have hfree : ¬solver.config.Limited := by simp [Config.Limited, solver, unlimited, new]
  have hbuilt : softPair.Built := .addSoft _ _ (.new 0)
  have hkeep : ∀ l ∈ [selector.neg, unknown.pos],
      l.var.number ≤ softPair.lastVar solver.config.weighted →
      (fun l : Lit => decide (l.var.number ≤ 3)) l = true := by decide
  obtain ⟨o, o', ho, ho', hmodel, -, hbest⟩ :=
    solve_outside hreachable hreachable hfree hfree rfl hbuilt (by decide) hkeep
  rw [hsolve, Except.ok.injEq] at ho
  subst ho
  exact ⟨hsolve, ⟨o', ho', hmodel.symm⟩, hbest _ rfl⟩

/-- Both variables have to be false, which violates the soft clause. To assume its selector is to
ask for the clause. -/
theorem selector_assumed :
    let x : Var := ⟨1, Nat.one_pos⟩
    let y : Var := ⟨2, Nat.two_pos⟩
    let selector : Var := ⟨3, Nat.succ_pos 2⟩
    let solver := unlimited ⟨1, 1⟩
    (softPair.addHard [x.neg]).numVars < selector.number ∧
      (solve (softPair.addHard [x.neg]) [y.neg] solver).1 = .ok (.sat ⟨#[false, false], 5⟩) ∧
      (solve (softPair.addHard [x.neg]) [y.neg, selector.pos] solver).1 = .ok (.unsat none) := by
  intro x y selector solver
  exact ⟨by decide, by cbv, by cbv⟩

end DiagramSolver

end Qualify
