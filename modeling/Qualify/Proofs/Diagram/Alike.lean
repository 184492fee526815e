import Qualify.Proofs.Diagram.Optimum

namespace Qualify.Diagram

/-- Edges of two reduced diagrams that have the same values. -/
structure Alike (d d' : Diagram) (e e' : Edge) : Prop where
  reduced : d.Reduced
  reduced' : d'.Reduced
  has : d.Has e
  has' : d'.Has e'
  eval : ∀ a, d.eval a e = d'.eval a e'

namespace Alike

variable {d d' : Diagram} {e e' : Edge}

theorem symm (h : Alike d d' e e') : Alike d' d e' e :=
  ⟨h.reduced', h.reduced, h.has', h.has, fun a => (h.eval a).symm⟩

theorem eq_zero_iff (h : Alike d d' e e') : e = .zero ↔ e' = .zero := by
  rw [h.reduced.eq_zero_iff h.has, h.reduced'.eq_zero_iff h.has']
  exact forall_congr' fun a => by rw [h.eval a]

/-- The values where all variables are true tell the sign. -/
theorem negated_eq (h : Alike d d' e e') : e.negated = e'.negated := by
  have ht := h.eval fun _ => true
  rwa [h.reduced.eval_true h.has, h.reduced'.eval_true h.has', Bool.not_inj_iff] at ht

theorem plain (h : Alike d d' e e') : Alike d d' ⟨e.node, false⟩ ⟨e'.node, false⟩ where
  reduced := h.reduced
  reduced' := h.reduced'
  has := h.has
  has' := h.has'
  eval a := by
    have heval := h.eval a
    unfold Diagram.eval at heval ⊢
    rw [h.negated_eq, Bool.xor_left_inj] at heval
    rw [heval]

theorem past (h : Alike d d' e e') {v : Nat} (hp : d.Past v e) : d'.Past v e' := by
  refine h.reduced'.past_of_eval_congr h.has' fun a b hab => ?_
  rw [← h.eval a, ← h.eval b]
  exact h.reduced.eval_congr hab h.has hp

theorem eq_of_terminal (h : Alike d d' e e') (ht : e.node = Edge.terminal) : e = e' := by
  have ht' : e'.node = Edge.terminal := by
    by_contra hne
    exact absurd (h.past (.inl ht)) fun hp => Nat.lt_irrefl _ (hp.resolve_left hne)
  exact Edge.ext_iff.mpr ⟨ht.trans ht'.symm, h.negated_eq⟩

theorem ne_terminal (h : Alike d d' e e') (hne : e.node ≠ Edge.terminal) :
    e'.node ≠ Edge.terminal :=
  fun ht => hne (h.symm.eq_of_terminal ht ▸ ht)

theorem eq_one_iff (h : Alike d d' e e') : e = .one ↔ e' = .one := by
  constructor
  · rintro rfl
    exact (h.eq_of_terminal rfl).symm
  · rintro rfl
    exact (h.symm.eq_of_terminal rfl).symm

section Inner

variable (h : Alike d d' e e') (hne : e.node ≠ Edge.terminal)
include h hne

theorem varOf_le : d.varOf e ≤ d'.varOf e' := by
  by_contra hlt
  have hp : d'.Past (d'.varOf e') e' := h.past (.inr (Nat.not_le.mp hlt))
  exact Nat.lt_irrefl _ (hp.resolve_left (h.ne_terminal hne))

theorem varOf_eq : d.varOf e = d'.varOf e' :=
  Nat.le_antisymm (h.varOf_le hne) (h.symm.varOf_le (h.ne_terminal hne))

theorem low : Alike d d' (d.low e) (d'.low e') where
  reduced := h.reduced
  reduced' := h.reduced'
  has := h.reduced.has_low h.has hne
  has' := h.reduced'.has_low h.has' (h.ne_terminal hne)
  eval a := by
    rw [eval_low h.reduced h.has hne, eval_low h.reduced' h.has' (h.ne_terminal hne),
      h.varOf_eq hne, h.eval]

theorem high : Alike d d' (d.high e) (d'.high e') where
  reduced := h.reduced
  reduced' := h.reduced'
  has := h.reduced.has_high h.has hne
  has' := h.reduced'.has_high h.has' (h.ne_terminal hne)
  eval a := by
    rw [eval_high h.reduced h.has hne, eval_high h.reduced' h.has' (h.ne_terminal hne),
      h.varOf_eq hne, h.eval]

end Inner

theorem step {f : Edge} {l : Lit} (h : Alike d d' e e') (hstep : d.Step e l f) :
    ∃ f', d'.Step e' l f' ∧ Alike d d' f f' := by
  have hne := hstep.node_ne h.reduced h.has
  have hhigh := h.high hne
  cases hstep with
  | high hv hh => exact ⟨_, .high (hv.trans (h.varOf_eq hne)) (mt hhigh.eq_zero_iff.mpr hh), hhigh⟩
  | low hv hh => exact ⟨_, .low (hv.trans (h.varOf_eq hne)) (hhigh.eq_zero_iff.mp hh), h.low hne⟩

theorem walks {ls : List Lit} (h : Alike d d' e e') (hwalks : d.Walks e ls) : d'.Walks e' ls := by
  induction hwalks generalizing e' with
  | one =>
    rw [h.eq_one_iff.mp rfl]
    exact .one
  | step hne hstep _ ih =>
    obtain ⟨f', hstep', hf'⟩ := h.step hstep
    exact .step (mt h.eq_one_iff.mpr hne) hstep' (ih hf')

theorem oneModel?_eq (h : Alike d d' e e') : d.oneModel? e = d'.oneModel? e' := by
  ext ls
  rw [oneModel?_eq_some_iff h.reduced h.has, oneModel?_eq_some_iff h.reduced' h.has']
  exact ⟨h.walks, h.symm.walks⟩

variable {g : Gains}

theorem level_eq (h : Alike d d' e e') (n : Nat) : d.level n e = d'.level n e' := by
  by_cases ht : e.node = Edge.terminal
  · rw [level_of_eq ht, level_of_eq (h.eq_of_terminal ht ▸ ht)]
  · rw [level_of_ne ht, level_of_ne (h.ne_terminal ht), h.varOf_eq ht]

theorem branch_eq_of (h : Alike d d' e e')
    (hof : Best.of (Best.table d g) e = Best.of (Best.table d' g) e') (v : Nat) (b : Bool) :
    Best.branch d g (Best.table d g) v b e = Best.branch d' g (Best.table d' g) v b e' := by
  rw [Best.branch, Best.branch, hof, h.level_eq]

theorem of_eq (h : Alike d d' e e') :
    Best.of (Best.table d g) e = Best.of (Best.table d' g) e' := by
  induction hn : e.node using Nat.strong_induction_on generalizing e e' with
  | _ n ih =>
    subst hn
    by_cases ht : e.node = Edge.terminal
    · obtain rfl := h.eq_of_terminal ht
      rcases eq_one_or_zero ht with rfl | rfl
      · rw [Best.of_one, Best.of_one]
      · rw [Best.of_zero, Best.of_zero]
    · have hhigh := ih _ (h.reduced.high_lt h.has ht) (h.high ht) rfl
      have hlow := ih _ (h.reduced.low_lt h.has ht) (h.low ht) rfl
      rw [Best.of_eq_branch h.reduced h.has ht,
        Best.of_eq_branch h.reduced' h.has' (h.ne_terminal ht), (h.high ht).branch_eq_of hhigh,
        (h.low ht).branch_eq_of hlow, h.varOf_eq ht]

theorem takesHigh_eq (h : Alike d d' e e') (hne : e.node ≠ Edge.terminal) :
    takesHigh d g e = takesHigh d' g e' := by
  rw [takesHigh, takesHigh, (h.high hne).branch_eq_of (h.high hne).of_eq,
    (h.low hne).branch_eq_of (h.low hne).of_eq, h.varOf_eq hne]

theorem taken (h : Alike d d' e e') (hne : e.node ≠ Edge.terminal) :
    Alike d d' (Diagram.taken d g e) (Diagram.taken d' g e') := by
  rw [Diagram.taken, Diagram.taken, ← h.takesHigh_eq hne]
  split
  · exact h.high hne
  · exact h.low hne

theorem bestPath_eq (fuel : Nat) :
    ∀ {e e' : Edge} {fuel' : Nat} (assignment : Array Bool), Alike d d' e e' →
    e ≠ .zero → e.node ≤ fuel → e'.node ≤ fuel' →
    bestPath d g (Best.table d g) fuel e assignment =
      bestPath d' g (Best.table d' g) fuel' e' assignment := by
  induction fuel with
  | zero =>
    intro e e' fuel' assignment h _ hfuel
    have := h.has.1
    omega
  | succ fuel ih =>
    intro e e' fuel' assignment h hz hfuel hfuel'
    obtain ⟨fuel', rfl⟩ : ∃ n, fuel' = n + 1 := ⟨fuel' - 1, by have := h.has'.1; omega⟩
    by_cases h1 : e = .one
    · rw [bestPath, bestPath, if_pos h1, if_pos (h.eq_one_iff.mp h1)]
    have hne : e.node ≠ Edge.terminal := fun ht => (eq_one_or_zero ht).elim h1 hz
    obtain ⟨-, hlt, -⟩ := taken_spec (g := g) h.reduced h.has hne
    obtain ⟨-, hlt', -⟩ := taken_spec (g := g) h.reduced' h.has' (h.ne_terminal hne)
    have htaken := h.taken (g := g) hne
    rw [bestPath_succ h1, bestPath_succ (mt h.eq_one_iff.mpr h1), h.varOf_eq hne,
      h.takesHigh_eq hne, htaken.level_eq]
    exact ih _ htaken (taken_ne_zero h.reduced h.has hne) (by omega) (by omega)

theorem bestModel?_eq (h : Alike d d' e e') (hz : e ≠ .zero) (gains : Array Gain) :
    d.bestModel? e gains = d'.bestModel? e' gains := by
  simp only [bestModel?, h.of_eq, h.level_eq, h.bestPath_eq _ _ hz (Nat.le_succ _) (Nat.le_succ _)]

end Alike

section Counts

variable {d : Diagram} (numVars : Nat)

theorem modelCounts_terminal : (d.modelCounts numVars)[Edge.terminal]? = some (1 <<< numVars) :=
  (List.foldl_push_spec (fun counts (n : Node) =>
    (countOf (1 <<< numVars) counts n.low + countOf (1 <<< numVars) counts n.high) / 2)
    (d.table.values.toList.drop 1) #[0, 1 <<< numVars]).2.1 1 (Nat.lt_succ_self 1)

theorem modelCounts_entry (hd : d.Reduced) {i : Nat} (hi : 1 < i) (hic : i ≤ d.nodeCount) :
    (d.modelCounts numVars)[i]? =
      some ((countOf (1 <<< numVars) (d.modelCounts numVars) (d.node i).low +
      countOf (1 <<< numVars) (d.modelCounts numVars) (d.node i).high) / 2) := by
  obtain ⟨older, hprev, hentry⟩ := foldl_nodes_spec (fun counts (n : Node) =>
    (countOf (1 <<< numVars) counts n.low + countOf (1 <<< numVars) counts n.high) / 2) 0
      (1 <<< numVars) hi hic
  have hof : ∀ e : Edge, e.node < i →
      countOf (1 <<< numVars) older e = countOf (1 <<< numVars) (d.modelCounts numVars) e := by
    intro e he
    rw [countOf, countOf, Array.getD_eq_getD_getElem?, Array.getD_eq_getD_getElem?, hprev _ he]
    rfl
  have hp := hd.proper i hi hic
  rw [← hof _ hp.low_lt, ← hof _ hp.high_lt]
  exact hentry

end Counts

theorem Alike.countModels_eq {d d' : Diagram} {e e' : Edge} (h : Alike d d' e e') (numVars : Nat) :
    d.countModels numVars e = d'.countModels numVars e' := by
  unfold countModels
  induction hn : e.node using Nat.strong_induction_on generalizing e e' with
  | _ n ih =>
    subst hn
    by_cases ht : e.node = Edge.terminal
    · obtain rfl := h.eq_of_terminal ht
      rw [countOf, countOf, Array.getD_eq_getD_getElem?, Array.getD_eq_getD_getElem?, ht,
        modelCounts_terminal, modelCounts_terminal]
    · -- the table has the counts of nodes without a sign
      have ht' := h.ne_terminal ht
      have hp := h.plain
      have hlow := ih (d.low ⟨e.node, false⟩).node (hp.reduced.low_lt hp.has ht) (hp.low ht) rfl
      have hhigh := ih (d.high ⟨e.node, false⟩).node (hp.reduced.high_lt hp.has ht) (hp.high ht) rfl
      unfold Diagram.low at hlow
      unfold Diagram.high at hhigh
      simp only [Edge.negateIf_false] at hlow hhigh
      rw [countOf, countOf, Array.getD_eq_getD_getElem?, Array.getD_eq_getD_getElem?,
        modelCounts_entry numVars h.reduced (lt_of_le_of_ne h.has.1 (Ne.symm ht)) h.has.2,
        modelCounts_entry numVars h.reduced' (lt_of_le_of_ne h.has'.1 (Ne.symm ht')) h.has'.2,
        hlow, hhigh, h.negated_eq]

end Qualify.Diagram
