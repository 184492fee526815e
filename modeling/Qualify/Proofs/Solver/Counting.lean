import Qualify.Proofs.Diagram.Support
import Qualify.Proofs.Solver.History

namespace Qualify

def numSatisfying (n : Nat) (p : Array Bool → Bool) : Nat :=
  Fintype.card {m : Fin n → Bool // p (Array.ofFn m) = true}

section Satisfying

variable {n : Nat} {p q : Array Bool → Bool}

theorem numSatisfying_eq_sum :
    numSatisfying n p = ∑ m : Fin n → Bool, (p (Array.ofFn m)).toNat := by
  rw [numSatisfying, Fintype.card_subtype, Finset.card_filter]
  exact Finset.sum_congr rfl fun m _ => by cases p (Array.ofFn m) <;> rfl

theorem numSatisfying_congr (h : ∀ m, m.size = n → p m = q m) :
    numSatisfying n p = numSatisfying n q := by
  rw [numSatisfying_eq_sum, numSatisfying_eq_sum]
  exact Finset.sum_congr rfl fun m _ => by rw [h _ Array.size_ofFn]

theorem numSatisfying_not_add : numSatisfying n (fun m => !p m) + numSatisfying n p = 2 ^ n := by
  rw [numSatisfying_eq_sum, numSatisfying_eq_sum, ← Finset.sum_add_distrib]
  have hone : ∀ m : Fin n → Bool, (!p (Array.ofFn m)).toNat + (p (Array.ofFn m)).toNat = 1 := by
    intro m
    cases p (Array.ofFn m) <;> rfl
  rw [Finset.sum_congr rfl fun m _ => hone m]
  simp

theorem ofFn_update (m : Fin n → Bool) (i : Fin n) (b : Bool) :
    Array.ofFn (Function.update m i b) = (Array.ofFn m).setIfInBounds i b := by
  apply Array.ext
  · simp
  · intro j hj _
    have hjn : j < n := by simpa using hj
    rw [Array.getElem_ofFn, Array.getElem_setIfInBounds (by simpa using hjn), Array.getElem_ofFn,
      Function.update_apply]
    simp only [Fin.ext_iff, eq_comm]

/-- Each assignment comes up once with the value that it has at `i`, and once with the other. -/
theorem numSatisfying_halves {i : Nat} (hi : i < n) :
    numSatisfying n (fun m => p (m.setIfInBounds i false)) +
      numSatisfying n (fun m => p (m.setIfInBounds i true)) = 2 * numSatisfying n p := by
  let flip (m : Fin n → Bool) : Fin n → Bool := Function.update m ⟨i, hi⟩ (!m ⟨i, hi⟩)
  have hflip : Function.Involutive flip := by
    intro m
    simp [flip]
  have hpair : ∀ m : Fin n → Bool, (p ((Array.ofFn m).setIfInBounds i false)).toNat +
      (p ((Array.ofFn m).setIfInBounds i true)).toNat =
      (p (Array.ofFn m)).toNat + (p (Array.ofFn (flip m))).toNat := by
    intro m
    have hself : Array.ofFn m = (Array.ofFn m).setIfInBounds i (m ⟨i, hi⟩) := by
      rw [← ofFn_update m ⟨i, hi⟩, Function.update_eq_self]
    have hother : Array.ofFn (flip m) = (Array.ofFn m).setIfInBounds i (!m ⟨i, hi⟩) :=
      ofFn_update m ⟨i, hi⟩ _
    -- one of the two values is that of the assignment itself
    rw [hother]
    nth_rewrite 3 [hself]
    cases m ⟨i, hi⟩
    · rfl
    · exact Nat.add_comm _ _
  have hsum : ∑ m, (p (Array.ofFn (flip m))).toNat = ∑ m : Fin n → Bool, (p (Array.ofFn m)).toNat :=
    Equiv.sum_comp hflip.toPerm fun m => (p (Array.ofFn m)).toNat
  rw [numSatisfying_eq_sum, numSatisfying_eq_sum, numSatisfying_eq_sum, ← Finset.sum_add_distrib,
    Finset.sum_congr rfl fun m _ => hpair m, Finset.sum_add_distrib, hsum, Nat.two_mul]

end Satisfying

namespace Diagram

variable {d : Diagram} {n : Nat}

def numModels (d : Diagram) (n : Nat) (e : Edge) : Nat :=
  numSatisfying n fun m => d.eval (valuation m) e

theorem numModels_neg_add (e : Edge) : d.numModels n (-e) + d.numModels n e = 2 ^ n := by
  rw [← numSatisfying_not_add (p := fun m => d.eval (valuation m) e), numModels, numModels]
  simp only [eval_neg]

theorem numModels_le (e : Edge) : d.numModels n e ≤ 2 ^ n :=
  Nat.le.intro ((Nat.add_comm _ _).trans (numModels_neg_add e))

theorem numModels_one : d.numModels n .one = 2 ^ n := by simp [numModels, numSatisfying]

theorem Upto.plain {e : Edge} (hn : d.Upto n e) : d.Upto n ⟨e.node, false⟩ := by
  intro a b hab
  have heval := hn a b hab
  unfold eval at heval ⊢
  rw [Bool.xor_left_inj.mp heval]

/-- The count of a node gives those of its edges. -/
theorem countOf_eq {e : Edge}
    (h : (d.modelCounts n).getD e.node 0 = d.numModels n ⟨e.node, false⟩) :
    countOf (1 <<< n) (d.modelCounts n) e = d.numModels n e := by
  obtain ⟨i, negated⟩ := e
  cases negated with
  | false => exact h
  | true =>
    have hadd : d.numModels n ⟨i, true⟩ + d.numModels n ⟨i, false⟩ = 2 ^ n :=
      numModels_neg_add ⟨i, false⟩
    simp only [countOf, h, if_true, Nat.one_shiftLeft]
    omega

variable (hd : d.Reduced)

include hd

/-- A branch ignores the variable of the node, so that each half of the assignments counts twice. -/
theorem numModels_branches {e : Edge} (he : d.Has e) (hne : e.node ≠ Edge.terminal)
    (hn : d.Upto n e) :
    d.numModels n (d.low e) + d.numModels n (d.high e) = 2 * d.numModels n e := by
  have hv := hd.varOf_pos he hne
  have hvn := Upto.varOf_le hd he hne hn
  have hset : ∀ (m : Array Bool) (b : Bool), m.size = n →
      d.eval (Function.update (valuation m) (d.varOf e) b) e =
        d.eval (valuation (m.setIfInBounds (d.varOf e - 1) b)) e := by
    intro m b hm
    refine Upto.eval_congr hd he hn fun u hu hun => ?_
    rw [valuation_set m hv hu (hm ▸ hun), Function.update_apply]
  rw [numModels, numModels, numModels, ← numSatisfying_halves (i := d.varOf e - 1) (by omega)]
  congr 1
  · exact numSatisfying_congr fun m hm => by rw [eval_low hd he hne, hset m false hm]
  · exact numSatisfying_congr fun m hm => by rw [eval_high hd he hne, hset m true hm]

/-- The branches of a node without a sign are its edges. -/
theorem numModels_edges {i : Nat} (hi : d.Has ⟨i, false⟩) (hne : i ≠ Edge.terminal)
    (hn : d.Upto n ⟨i, false⟩) :
    d.numModels n (d.node i).low + d.numModels n (d.node i).high =
      2 * d.numModels n ⟨i, false⟩ := by
  have h := numModels_branches hd hi hne hn
  rwa [low, high, Edge.negateIf_false, Edge.negateIf_false] at h

theorem getD_modelCounts {i : Nat} (hi : d.Has ⟨i, false⟩) (hn : d.Upto n ⟨i, false⟩) :
    (d.modelCounts n).getD i 0 = d.numModels n ⟨i, false⟩ := by
  induction i using Nat.strong_induction_on with
  | _ i ih =>
    rw [Array.getD_eq_getD_getElem?]
    by_cases hne : i = Edge.terminal
    · rw [hne, modelCounts_terminal, Option.getD_some, Nat.one_shiftLeft]
      exact numModels_one.symm
    · -- the edges go to older nodes, and their variables are counted as well
      have hlow := countOf_eq (ih (d.node i).low.node (hd.low_lt hi hne) (hd.has_low hi hne)
        (Upto.low hd hi hne hn).plain)
      have hhigh := countOf_eq (ih (d.node i).high.node (hd.high_lt hi hne) (hd.has_high hi hne)
        (Upto.high hd hi hne hn).plain)
      rw [modelCounts_entry n hd (lt_of_le_of_ne hi.1 (Ne.symm hne)) hi.2, Option.getD_some,
        hlow, hhigh, numModels_edges hd hi hne hn]
      exact Nat.mul_div_cancel_left _ Nat.two_pos

/-- What the edges of a node count is twice what the node counts. -/
theorem countOf_edges {i : Nat} (hi : d.Has ⟨i, false⟩) (hne : i ≠ Edge.terminal)
    (hn : d.Upto n ⟨i, false⟩) :
    countOf (1 <<< n) (d.modelCounts n) (d.node i).low + countOf (1 <<< n) (d.modelCounts n)
      (d.node i).high =
      2 * (d.modelCounts n).getD i 0 := by
  have hlow := countOf_eq (getD_modelCounts hd (hd.has_low hi hne) (Upto.low hd hi hne hn).plain)
  have hhigh := countOf_eq (getD_modelCounts hd (hd.has_high hi hne) (Upto.high hd hi hne hn).plain)
  rw [low, Edge.negateIf_false] at hlow
  rw [high, Edge.negateIf_false] at hhigh
  rw [hlow, hhigh, getD_modelCounts hd hi hn]
  exact numModels_edges hd hi hne hn

/-- The count of an edge is the number of its models, and no number on the way is rounded. -/
structure CountsExactly (d : Diagram) (n : Nat) (e : Edge) : Prop where
  count_eq : d.countModels n e = d.numModels n e
  /-- Each node takes half of an even number. -/
  halves : ∀ i, d.Below [e] i → i ≠ Edge.terminal →
    countOf (1 <<< n) (d.modelCounts n) (d.node i).low + countOf (1 <<< n) (d.modelCounts n)
      (d.node i).high = 2 * (d.modelCounts n).getD i 0
  /-- A negated edge takes away no more than there is. -/
  le_all : ∀ i, d.Below [e] i → (d.modelCounts n).getD i 0 ≤ 1 <<< n

theorem countsExactly {e : Edge} (he : d.Has e) (hn : ∀ v, d.Mentions e v → v ≤ n) :
    d.CountsExactly n e := by
  have hbelow : ∀ i, d.Below [e] i → d.Has ⟨i, false⟩ ∧ d.Upto n ⟨i, false⟩ := by
    intro i hi
    have hhas := hi.has hd (by simpa using he)
    refine ⟨hhas, (upto_iff hd hhas).mpr fun v hv => ?_⟩
    obtain ⟨j, hj, hne, rfl⟩ := hv
    exact hn _ ⟨j, hj.trans (by simpa using hi), hne, rfl⟩
  have hself := hbelow e.node (.root (List.mem_singleton_self e))
  refine ⟨countOf_eq (getD_modelCounts hd hself.1 hself.2), fun i hi hne => ?_, fun i hi => ?_⟩
  · exact countOf_edges hd (hbelow i hi).1 hne (hbelow i hi).2
  · rw [getD_modelCounts hd (hbelow i hi).1 (hbelow i hi).2, Nat.one_shiftLeft]
    exact numModels_le _

end Diagram

namespace DiagramSolver

theorem settles_countModels (weighted : Bool) {cnf : Cnf} (hcnf : cnf.Bounded) :
    Settles weighted (countModels cnf) (numSatisfying cnf.numVars cnf.evaluate) := by
  refine settles_of_meets fun s hs _ => countModels_meets hs cnf fun k d hk hexact => ?_
  subst hk
  have hd := hexact.hard.sound.toReduced
  have hupto : d.Upto k.cnf.numVars k.hard := by
    intro a b hab
    rw [hexact.hard.eval a, hexact.hard.eval b]
    exact hcnf.eval_congr fun v _ hv => hab v hv
  rw [(Diagram.countsExactly hd hexact.hard.has
    ((Diagram.upto_iff hd hexact.hard.has).mp hupto)).count_eq]
  exact numSatisfying_congr fun m _ => by rw [hexact.hard.eval, Cnf.evaluate_eq]

/-- In every state of a diagram the models of an edge are counted exactly, over any variables that
include those of the edge. So a solver counts the assignments that satisfy the hard clauses,
whatever happened to it before. -/
theorem countModels_exact :
    (∀ (sizing : Sizing) (cs : List Diagram.Command) (s : Diagram.Session),
      (Diagram.Session.start sizing).run? cs = some s → ∀ e, s.diagram.Has e →
        ∀ n, (∀ v, s.diagram.Mentions e v → v ≤ n) → s.diagram.CountsExactly n e) ∧
    ∀ (config : Config) (events : List Event) (cnf : Cnf), cnf.Built →
      let s := events.foldl Event.apply (new config)
      (∀ k, (countModels cnf s).1 = .ok k → k = numSatisfying cnf.numVars cnf.evaluate) ∧
        (¬s.config.Limited → (countModels cnf s).1 =
          .ok (numSatisfying cnf.numVars cnf.evaluate)) := by
  constructor
  · intro sizing cs s h e he n hn
    exact Diagram.countsExactly
      (Diagram.Session.run?_valid (Diagram.Session.start_valid sizing) h).sound.toReduced he hn
  · intro config events cnf hcnf
    obtain ⟨hkept, hweighted⟩ := foldl_apply_kept events (s := new config) nofun
    exact settles_countModels config.weighted hcnf.bounded _ hkept hweighted

/-- A negated clause of the variables 1 and 3, counted over four variables, and a problem after
calls that failed. -/
theorem countModels_exact_troubles :
    (∃ s, (Diagram.Session.start ⟨0, 0⟩).run?
        [.ask (.clause [⟨1, by decide⟩, ⟨-3, by decide⟩])] = some s ∧
      s.diagram.countModels 4 ⟨3, true⟩ = 4 ∧ s.diagram.numModels 4 ⟨3, true⟩ = 4) ∧
    let cramped : Config := { sizing := ⟨1, 1⟩, nodeLimit := some 7, collectAbove := 1 }
    (countModels onePair (troubles.foldl Event.apply (new cramped))).1 = .ok 3 ∧
      numSatisfying onePair.numVars onePair.evaluate = 3 := by
  constructor
  · have hrun : ((Diagram.Session.start ⟨0, 0⟩).run?
        [.ask (.clause [⟨1, by decide⟩, ⟨-3, by decide⟩])]).map (fun s =>
          (s.diagram.nodeCount, (s.diagram.node 2).var, (s.diagram.node 3).var,
            s.diagram.countModels 4 ⟨3, true⟩)) = some (3, 3, 1, 4) := by cbv
    obtain ⟨s, hs, hvalue⟩ := Option.map_eq_some_iff.mp hrun
    rw [Prod.mk.injEq, Prod.mk.injEq, Prod.mk.injEq] at hvalue
    obtain ⟨hcount, htwo, hthree, hmodels⟩ := hvalue
    have hd := (Diagram.Session.run?_valid (Diagram.Session.start_valid _) hs).sound.toReduced
    have hhas : s.diagram.Has ⟨3, true⟩ := ⟨by decide, hcount.ge⟩
    have hvars : ∀ v, s.diagram.Mentions ⟨3, true⟩ v → v ≤ 4 := by
      rintro v ⟨i, hi, hne, rfl⟩
      obtain ⟨hpos, hle⟩ := hi.has hd (by simpa using hhas)
      have hcases : i = 2 ∨ i = 3 := by
        simp only [hcount] at hle
        simp only [Edge.terminal] at hpos hne
        omega
      rcases hcases with rfl | rfl <;> omega
    have hexact := countModels_exact.1 _ _ s hs ⟨3, true⟩ hhas 4 hvars
    exact ⟨s, hs, hmodels, hexact.count_eq ▸ hmodels⟩
  · intro cramped
    have hok : (countModels onePair (troubles.foldl Event.apply (new cramped))).1 = .ok 3 := by cbv
    have hbuilt : onePair.Built := .addSoft _ _ (.addHard _ (.new 0))
    exact ⟨hok, ((countModels_exact.2 cramped troubles onePair hbuilt).1 3 hok).symm⟩

end DiagramSolver

end Qualify
