import Qualify.Solver.DiagramSolver
import Qualify.Proofs.Formula
import Qualify.Proofs.Diagram.Optimum

namespace Qualify

def satisfiedWeight (softs : List SoftClause) (a : Nat → Bool) : Nat :=
  Weight.sum ((softs.filter fun s => Clause.eval a s.lits).map (·.weight))

def totalWeight (softs : List SoftClause) : Nat := Weight.sum (softs.map (·.weight))

theorem totalWeight_append (softs : List SoftClause) (lits : Clause) (w : Weight) :
    totalWeight (softs ++ [⟨lits, w⟩]) = totalWeight softs + w.toNat := by
  simp [totalWeight, Weight.sum]

theorem satisfiedWeight_append (softs : List SoftClause) (lits : Clause) (w : Weight)
    (a : Nat → Bool) :
    satisfiedWeight (softs ++ [⟨lits, w⟩]) a = satisfiedWeight softs a + if Clause.eval a lits then
      w.toNat else 0 := by
  simp only [satisfiedWeight, Weight.sum, List.filter_append, List.map_append, List.sum_append]
  cases h : Clause.eval a lits <;> simp [h]

namespace DiagramSolver

def tally (gains : Array Gain) (f : Nat → Gain → Nat) : Nat :=
  ∑ i ∈ Finset.range gains.size, f i (gains.getD i default)

section Tally

variable (gains : Array Gain) (f : Nat → Gain → Nat)

theorem tally_push (x : Gain) : tally (gains.push x) f = tally gains f + f gains.size x := by
  unfold tally
  rw [Array.size_push, Finset.sum_range_succ]
  congr 1
  · refine Finset.sum_congr rfl fun i hi => ?_
    rw [Array.getD_eq_getD_getElem?, Array.getD_eq_getD_getElem?,
      Array.getElem?_push_lt (Finset.mem_range.mp hi),
      Array.getElem?_eq_getElem (Finset.mem_range.mp hi)]
  · simp [Array.getD_eq_getD_getElem?]

theorem tally_modify {i : Nat} (hi : i < gains.size) (r : Gain → Gain) :
    tally (gains.modify i r) f + f i (gains.getD i default) =
      tally gains f + f i (r (gains.getD i default)) := by
  have hget : ∀ j ∈ Finset.range gains.size, f j ((gains.modify i r).getD j default) =
      if j = i then f i (r (gains.getD i default)) else f j (gains.getD j default) := by
    intro j hj
    rw [Array.getD_eq_getD_getElem?, Array.getElem?_modify]
    by_cases hij : j = i
    · subst hij
      simp [hi]
    · simp [hij, Ne.symm hij]
  have hmem : i ∈ Finset.range gains.size := Finset.mem_range.mpr hi
  unfold tally
  rw [Array.size_modify, Finset.sum_congr rfl hget, ← Finset.add_sum_erase _ _ hmem, if_pos rfl,
    ← Finset.add_sum_erase (Finset.range gains.size) (fun j => f j (gains.getD j default)) hmem,
    Finset.sum_congr rfl fun j hj => if_neg (Finset.ne_of_mem_erase hj)]
  omega

theorem tally_replicate (n : Nat) (hf : ∀ i, f i ⟨0, 0⟩ = 0) :
    tally (Array.replicate n ⟨0, 0⟩) f = 0 := by
  refine Finset.sum_eq_zero fun i hi => ?_
  have hi : i < n := by simpa using hi
  simp [Array.getD_eq_getD_getElem?, hi, hf]

end Tally

/-- What the gains pay where the variables have the values `a`. -/
def income (gains : Array Gain) (a : Nat → Bool) : Nat :=
  tally gains fun i x => (x.of (a (i + 1))).toNat

/-- What the gains could pay for both values of each variable. -/
def spread (gains : Array Gain) : Nat := tally gains fun _ x => x.ifFalse.toNat + x.ifTrue.toNat

theorem income_eq_earned (gains : Array Gain) (a : Nat → Bool) :
    income gains a = (Diagram.Gains.ofArray gains).earned a 1 (gains.size + 1) := by
  rw [Diagram.Gains.earned, Finset.sum_Ico_eq_sum_range, income, tally]
  refine Finset.sum_congr rfl fun i hi => ?_
  have hi : i < gains.size := by simpa using hi
  rw [Nat.add_comm 1 i]
  simp [Diagram.Gains.worth, Diagram.Gains.gain, Diagram.Gains.ofArray, hi]

theorem income_congr {gains : Array Gain} {a b : Nat → Bool}
    (h : ∀ v, 1 ≤ v → v ≤ gains.size → a v = b v) :
    income gains a = income gains b := by
  unfold income tally
  refine Finset.sum_congr rfl fun i hi => ?_
  dsimp only
  rw [h (i + 1) (by omega) (Finset.mem_range.mp hi)]

theorem fits_of_spread {gains : Array Gain} (h : spread gains < 2 ^ 64) :
    (Diagram.Gains.ofArray gains).Fits := by
  refine lt_of_le_of_lt ?_ h
  change (Diagram.Gains.ofArray gains).most 1 (gains.size + 1) ≤ _
  rw [Diagram.Gains.most, Finset.sum_Ico_eq_sum_range]
  refine Finset.sum_le_sum fun i hi => ?_
  have hi : i < gains.size := by simpa using hi
  rw [Nat.add_comm 1 i]
  simp [Diagram.Gains.top, Diagram.Gains.worth, Diagram.Gains.gain, Diagram.Gains.ofArray, hi,
    Gain.of]

/-- The gains and the function `root` stand for the soft clauses: the values of the first `n`
variables that satisfy `hard` can be completed to values that satisfy `root` and earn what they are
worth, and no values earn more. -/
structure Scored (hard : (Nat → Bool) → Bool) (n : Nat) (softs : List SoftClause)
    (root : (Nat → Bool) → Bool) (gains : Array Gain) : Prop where
  size : n ≤ gains.size
  upto : ∀ a b, (∀ v ≤ gains.size, a v = b v) → root a = root b
  implies : ∀ a, root a = true → hard a = true
  spread_eq : totalWeight softs < 2 ^ 64 → spread gains = totalWeight softs
  income_le : totalWeight softs < 2 ^ 64 → ∀ a, root a = true →
    income gains a ≤ satisfiedWeight softs a
  reached : ∀ a, hard a = true → ∃ b, (∀ v ≤ n, b v = a v) ∧ root b = true ∧
    (totalWeight softs < 2 ^ 64 → income gains b = satisfiedWeight softs a)

namespace Scored

variable {hard root : (Nat → Bool) → Bool} {n : Nat} {softs : List SoftClause} {gains : Array Gain}

theorem start (hn : ∀ a b, (∀ v ≤ n, a v = b v) → hard a = hard b) :
    Scored hard n [] hard (Array.replicate n ⟨0, 0⟩) where
  size := by simp
  upto := by simpa using hn
  implies _ h := h
  spread_eq _ := tally_replicate _ n fun _ => rfl
  income_le _ a _ := by
    rw [income, tally_replicate _ n fun i => by cases a (i + 1) <;> rfl]
    exact Nat.zero_le _
  reached a ha :=
    ⟨a, fun _ _ => rfl, ha, fun _ => tally_replicate _ n fun i => by cases a (i + 1) <;> rfl⟩

def raise (l : Lit) (w : Weight) (g : Gain) : Gain :=
  if l.isPositive then { g with ifTrue := Weight.plus g.ifTrue w }
  else { g with ifFalse := Weight.plus g.ifFalse w }

theorem toNat_of_raise {l : Lit} {w : Weight} {x : Gain}
    (hx : x.ifFalse.toNat + x.ifTrue.toNat + w.toNat < 2 ^ 64) (b : Bool) :
    ((raise l w x).of b).toNat = (x.of b).toNat + if b == l.isPositive then w.toNat else 0 := by
  unfold raise Gain.of
  cases hl : l.isPositive <;> cases b
  · exact Weight.toNat_plus_of_lt (by omega)
  · rfl
  · rfl
  · exact Weight.toNat_plus_of_lt (by omega)

theorem raise_total {l : Lit} {w : Weight} {x : Gain}
    (hx : x.ifFalse.toNat + x.ifTrue.toNat + w.toNat < 2 ^ 64) :
    (raise l w x).ifFalse.toNat + (raise l w x).ifTrue.toNat = x.ifFalse.toNat + x.ifTrue.toNat +
      w.toNat := by
  have hf := toNat_of_raise (l := l) hx false
  have ht := toNat_of_raise (l := l) hx true
  change (raise l w x).ifFalse.toNat = x.ifFalse.toNat + _ at hf
  change (raise l w x).ifTrue.toNat = x.ifTrue.toNat + _ at ht
  rw [hf, ht]
  cases l.isPositive <;> simp <;> omega

/-- No gain is more than the whole weight, so that the next weight still fits. -/
theorem room (h : Scored hard n softs root gains) {i w : Nat} (hi : i < gains.size)
    (hsum : totalWeight softs + w < 2 ^ 64) :
    (gains.getD i default).ifFalse.toNat + (gains.getD i default).ifTrue.toNat + w < 2 ^ 64 := by
  have hspread := h.spread_eq (by omega)
  have hle : (gains.getD i default).ifFalse.toNat + (gains.getD i default).ifTrue.toNat ≤
      spread gains :=
    Finset.single_le_sum (f := fun i => (gains.getD i default).ifFalse.toNat +
      (gains.getD i default).ifTrue.toNat) (fun _ _ => Nat.zero_le _) (Finset.mem_range.mpr hi)
  omega

theorem income_raise (h : Scored hard n softs root gains) {l : Lit} (hi : l.var.index < gains.size)
    {w : Weight} (hsum : totalWeight softs + w.toNat < 2 ^ 64) (a : Nat → Bool) :
    income (gains.modify l.var.index (raise l w)) a = income gains a + if l.eval a then w.toNat
      else 0 := by
  have hnum : l.var.index + 1 = l.var.number := Nat.sub_add_cancel l.var.positive
  have ht := tally_modify gains (fun i x => (x.of (a (i + 1))).toNat) hi (raise l w)
  rw [toNat_of_raise (h.room hi hsum), hnum] at ht
  unfold income Lit.eval
  omega

/-- A clause of one literal is a gain of that literal, and the root stays. -/
theorem unit (h : Scored hard n softs root gains) {l : Lit} (hl : l.var.number ≤ n) (w : Weight) :
    Scored hard n (softs ++ [⟨[l], w⟩]) root (gains.modify l.var.index (raise l w)) := by
  have hi : l.var.index < gains.size := by
    have hpos := l.var.positive
    have := h.size
    unfold Var.index
    omega
  exact {
    size := by
      rw [Array.size_modify]
      exact h.size
    upto := by
      rw [Array.size_modify]
      exact h.upto
    implies := h.implies
    spread_eq := by
      intro hsum
      rw [totalWeight_append] at hsum ⊢
      have ht := tally_modify gains (fun _ x => x.ifFalse.toNat + x.ifTrue.toNat) hi (raise l w)
      have hspread := h.spread_eq (by omega)
      rw [raise_total (h.room hi hsum)] at ht
      unfold spread at *
      omega
    income_le := by
      intro hsum a ha
      rw [totalWeight_append] at hsum
      rw [h.income_raise hi hsum, satisfiedWeight_append]
      have := h.income_le (by omega) a ha
      simpa [Clause.eval] using this
    reached := by
      intro a ha
      obtain ⟨b, hb, hroot, hinc⟩ := h.reached a ha
      refine ⟨b, hb, hroot, fun hsum => ?_⟩
      rw [totalWeight_append] at hsum
      rw [h.income_raise hi hsum, satisfiedWeight_append, hinc (by omega), Lit.eval_congr (hb _ hl)]
      simp [Clause.eval] }

/-- Any other clause is guarded by a selector, whose gain is the weight of the clause. -/
theorem select (h : Scored hard n softs root gains) {lits : Clause}
    (hl : ∀ l ∈ lits, l.var.number ≤ n) (w : Weight) (selector : Var)
    (hs : selector.number = gains.size + 1) :
    Scored hard n (softs ++ [⟨lits, w⟩]) (fun a => root a && Clause.eval a (selector.neg :: lits))
      (gains.push ⟨0, w⟩) := by
  have hguard : ∀ a, Clause.eval a (selector.neg :: lits) =
      (!a (gains.size + 1) || Clause.eval a lits) := by
    intro a
    simp [Clause.eval, Lit.eval, hs]
  have hincome : ∀ a, income (gains.push ⟨0, w⟩) a = income gains a + if a (gains.size + 1) then
      w.toNat else 0 := by
    intro a
    rw [income, tally_push]
    cases a (gains.size + 1) <;> rfl
  have hsize := h.size
  exact {
    size := by
      rw [Array.size_push]
      omega
    upto := by
      intro a b hab
      rw [Array.size_push] at hab
      rw [hguard, hguard, h.upto a b fun v hv => hab v (by omega), hab _ (Nat.le_refl _),
        Clause.eval_congr fun l hl' => hab _ ((hl l hl').trans (by omega))]
    implies := fun a ha => h.implies a (Bool.and_eq_true_iff.mp ha).1
    spread_eq := by
      intro hsum
      rw [totalWeight_append] at hsum ⊢
      rw [spread, tally_push]
      have := h.spread_eq (by omega)
      rw [spread] at this
      simp [this]
    income_le := by
      intro hsum a ha
      rw [totalWeight_append] at hsum
      obtain ⟨hroot, hg⟩ := Bool.and_eq_true_iff.mp ha
      rw [hguard] at hg
      have := h.income_le (by omega) a hroot
      rw [hincome, satisfiedWeight_append]
      cases hsel : a (gains.size + 1) with
      | false => simp; omega
      | true =>
        rw [hsel, Bool.not_true, Bool.false_or] at hg
        simp [hg, this]
    -- the selector is set exactly if the clause holds, which earns its weight whenever that is
    -- possible
    reached := by
      intro a ha
      obtain ⟨b, hb, hroot, hinc⟩ := h.reached a ha
      have hold : ∀ v ≤ gains.size, Function.update b (gains.size + 1) (Clause.eval a lits) v =
          b v := fun v hv =>
        Function.update_of_ne (by omega) _ _
      have hlits : Clause.eval (Function.update b (gains.size + 1) (Clause.eval a lits)) lits =
          Clause.eval a lits :=
        Clause.eval_congr fun l hl' => (hold _ ((hl l hl').trans hsize)).trans (hb _ (hl l hl'))
      refine ⟨Function.update b (gains.size + 1) (Clause.eval a lits), fun v hv => ?_, ?_,
        fun hsum => ?_⟩
      · rw [hold v (hv.trans hsize), hb v hv]
      · rw [hguard, hlits, h.upto _ b hold, hroot]
        simp
      · rw [totalWeight_append] at hsum
        rw [hincome, satisfiedWeight_append, income_congr fun v _ hv => hold v hv, hinc (by omega)]
        simp }

end Scored

def scoring :
    List SoftClause → ((Nat → Bool) → Bool) → Array Gain → ((Nat → Bool) → Bool) × Array Gain
  | [], root, gains => (root, gains)
  | ⟨[l], w⟩ :: rest, root, gains => scoring rest root (gains.modify l.var.index (Scored.raise l w))
  | ⟨lits, w⟩ :: rest, root, gains =>
    scoring rest
      (fun a => root a && Clause.eval a (Var.neg ⟨gains.size + 1, Nat.succ_pos _⟩ :: lits))
      (gains.push ⟨0, w⟩)

section Scoring

variable (softs : List SoftClause) {root : (Nat → Bool) → Bool} {gains : Array Gain}

theorem scoring_select {lits : Clause} (hlits : ∀ l, lits ≠ [l]) (w : Weight) :
    scoring (⟨lits, w⟩ :: softs) root gains =
      scoring softs
        (fun a => root a && Clause.eval a (Var.neg ⟨gains.size + 1, Nat.succ_pos _⟩ :: lits))
        (gains.push ⟨0, w⟩) := by
  rw [scoring]
  exact hlits

/-- No guard makes a value true. -/
theorem scoring_implies (a : Nat → Bool) (h : (scoring softs root gains).1 a = true) :
    root a = true := by
  induction softs generalizing root gains with
  | nil => exact h
  | cons s softs ih =>
    obtain ⟨lits, w⟩ := s
    by_cases hunit : ∃ l, lits = [l]
    · obtain ⟨l, rfl⟩ := hunit
      exact ih h
    · rw [scoring_select softs (fun l hl => hunit ⟨l, hl⟩)] at h
      exact (Bool.and_eq_true_iff.mp (ih h)).1

/-- The clauses that are done keep their score while the others are added. -/
theorem Scored.scoring {hard : (Nat → Bool) → Bool} {n : Nat} {done : List SoftClause}
    (h : Scored hard n done root gains) (hsofts : ∀ s ∈ softs, ∀ l ∈ s.lits, l.var.number ≤ n) :
    Scored hard n (done ++ softs) (scoring softs root gains).1 (scoring softs root gains).2 := by
  induction softs generalizing root gains done with
  | nil => rwa [List.append_nil]
  | cons s softs ih =>
    obtain ⟨hs, hrest⟩ := List.forall_mem_cons.mp hsofts
    obtain ⟨lits, w⟩ := s
    rw [List.append_cons]
    by_cases hunit : ∃ l, lits = [l]
    · obtain ⟨l, rfl⟩ := hunit
      exact ih (h.unit (hs l List.mem_cons_self) w) hrest
    · rw [scoring_select softs (fun l hl => hunit ⟨l, hl⟩)]
      exact ih (h.select hs w ⟨gains.size + 1, Nat.succ_pos _⟩ rfl) hrest

end Scoring

end DiagramSolver

end Qualify
