import Qualify.Proofs.Solution
import Qualify.Proofs.Weight

namespace Qualify

namespace Constraint

variable {σ : Type}

def weight? : Constraint σ → Option Weight
  | preference _ _ w => some w
  | _ => none

theorem weight?_eq_none {c : Constraint σ} (h : c.isSoft = false) : c.weight? = none := by
  cases c with
  | preference => cases h
  | _ => rfl

theorem size_pos (c : Constraint σ) : 0 < c.size := by
  cases c with
  | existential => rw [size]; omega
  | _ => exact Nat.one_pos

theorem sizeList_eq (cs : List (Constraint σ)) : sizeList cs = (cs.map size).sum := by
  induction cs with
  | nil => rfl
  | cons c cs ih => rw [sizeList, ih, List.map_cons, List.sum_cons]

theorem sizeList_append (cs cs' : List (Constraint σ)) :
    sizeList (cs ++ cs') = sizeList cs + sizeList cs' := by
  simp only [sizeList_eq, List.map_append, List.sum_append]

theorem sizeList_le_of_sublist {cs cs' : List (Constraint σ)} (h : cs.Sublist cs') :
    sizeList cs ≤ sizeList cs' := by
  rw [sizeList_eq, sizeList_eq]
  exact (h.map size).sum_le_sum fun _ _ => Nat.zero_le _

end Constraint

namespace ConstraintStore

variable {l : Lattice} {s s' : ConstraintStore}

section Termination

/-- What a simplification still has before it at place `i`: the constraints from there on, and those
inside of them. -/
def remaining (s : ConstraintStore) (i : Nat) : Nat := Constraint.sizeList (s.constraints.drop i)

theorem weight_eq (s : ConstraintStore) : s.weight = s.remaining 0 := by
  simp [weight, remaining, constraints, standing, Function.comp_def]

variable {i : Nat} {c : Constraint SlotId} {status : Status}

theorem constraints_getElem? (h : s.standing[i]? = some (c, status)) :
    s.constraints[i]? = some c := by
  rw [constraints, List.getElem?_map, h]
  rfl

theorem remaining_succ (h : s.standing[i]? = some (c, status)) :
    s.remaining i = c.size + s.remaining (i + 1) := by
  obtain ⟨hlt, hc⟩ := List.getElem?_eq_some_iff.mp (constraints_getElem? h)
  rw [remaining, remaining, List.drop_eq_getElem_cons hlt, Constraint.sizeList, hc]

theorem standing_getElem? {e : Entry} (he : s.entries[i]? = some e) :
    s.standing[i]? = some (e.constraint, e.status) := by
  rw [standing, List.getElem?_map, Array.getElem?_toList, he]
  rfl

theorem getElem?_eq_none_of_remaining (h : s.remaining i = 0) : s.standing[i]? = none := by
  cases hi : s.standing[i]? with
  | none => rfl
  | some x =>
    have hpos := x.1.size_pos
    have hrem := remaining_succ hi
    omega

/-- However many provenances there are, a constraint is stored once. -/
theorem insertAll_singleton (s : ConstraintStore) (c : Constraint SlotId) (ps : List Provenance) :
    (s.insertAll [c] ps).standing = s.standing ∨
      (s.insertAll [c] ps).standing = s.standing ++ [(c, .active)] := by
  have hpresent : ∀ (ps : List Provenance) (s : ConstraintStore), c ∈ s.constraints →
      (ps.foldl (fun s p => (s.insert c p).2) s).standing = s.standing := by
    intro ps
    induction ps with
    | nil => exact fun _ _ => rfl
    | cons p ps ih =>
      intro s hc
      rw [List.foldl_cons, ih _ (mem_constraints_insert s c p), standing_insert, if_pos hc]
  cases ps with
  | nil => exact .inl rfl
  | cons p ps =>
    have hfirst : (s.insertAll [c] (p :: ps)).standing = (s.insert c p).2.standing :=
      hpresent ps _ (mem_constraints_insert s c p)
    rw [hfirst, standing_insert]
    split
    · exact .inl rfl
    · exact .inr rfl

/-- What a branch adds are some of its constraints, each at most as often as it stands there. -/
theorem standing_insertAll (s : ConstraintStore) (cs : List (Constraint SlotId))
    (ps : List Provenance) :
    ∃ added : List (Constraint SlotId), added.Sublist cs ∧
      (s.insertAll cs ps).standing = s.standing ++ added.map fun c => (c, .active) := by
  induction cs generalizing s with
  | nil => exact ⟨[], .slnil, by simp [insertAll]⟩
  | cons c cs ih =>
    rw [insertAll_cons]
    obtain ⟨added, hsub, hadded⟩ := ih (s.insertAll [c] ps)
    rcases insertAll_singleton s c ps with h | h
    · exact ⟨added, hsub.cons c, by rw [hadded, h]⟩
    · exact ⟨c :: added, hsub.cons_cons c, by rw [hadded, h, List.append_assoc]; rfl⟩

/-- A step of a simplification that does not end it: what stands at place `i` is left, discharged or
replaced. -/
inductive Advances (l : Lattice) (i : Nat) (s : ConstraintStore) : ConstraintStore → Prop where
  | pass {c : Constraint SlotId} {status : Status} : s.standing[i]? = some (c, status) →
    (status = .active → s.verdict l c = .undecided) → Advances l i s s
  | discharge {c : Constraint SlotId} : s.standing[i]? = some (c, .active) →
    s.verdict l c = .holds →
    Advances l i s (s.setStatus ⟨i⟩ .discharged)
  | replace {c : Constraint SlotId} {cs : List (Constraint SlotId)} {ps : List Provenance} :
    s.standing[i]? = some (c, .active) → s.verdict l c = .branch cs →
    Advances l i s ((s.setStatus ⟨i⟩ .replaced).insertAll cs ps)

theorem simplifyFrom_end (h : s.standing[i]? = none) (fuel : Nat) (report : SimplifyReport) :
    simplifyFrom l fuel i report s = (.ok report, s) := by
  rw [standing, List.getElem?_map, Array.getElem?_toList, Option.map_eq_none_iff] at h
  cases fuel with
  | zero => rfl
  | succ fuel => rw [simplifyFrom, h]

/-- At a constraint that the fixed slots violate a simplification fails, and at any other one it
advances. -/
theorem simplifyFrom_step (h : s.standing[i]? = some (c, status)) (report : SimplifyReport) :
    (∃ k, ∀ fuel, simplifyFrom l (fuel + 1) i report s = (.error k, s)) ∨
      ∃ report' s', Advances l i s s' ∧
        ∀ fuel, simplifyFrom l (fuel + 1) i report s = simplifyFrom l fuel (i + 1) report' s' := by
  obtain ⟨e, he, hc⟩ : ∃ e, s.entries[i]? = some e ∧ (e.constraint, e.status) = (c, status) := by
    rwa [standing, List.getElem?_map, Array.getElem?_toList, Option.map_eq_some_iff] at h
  obtain ⟨rfl, rfl⟩ := Prod.mk.inj hc
  by_cases hactive : e.status = .active
  · have hrun (fuel : Nat) := simplifyFrom.eq_2 l i report s fuel
    simp only [he, hactive, ne_eq, not_true, if_false] at hrun
    rw [hactive] at h
    cases hverdict : s.verdict l e.constraint with
    | undecided =>
      exact .inr ⟨report, s, .pass h fun _ => hverdict, fun fuel => by rw [hrun, hverdict]⟩
    | holds =>
      exact .inr ⟨_, _, .discharge h hverdict, fun fuel => (hrun fuel).trans (by rw [hverdict])⟩
    | violated =>
      exact .inl ⟨s.contradiction l ⟨i⟩ e.constraint, fun fuel => by rw [hrun, hverdict]⟩
    | branch cs =>
      exact .inr ⟨_, _, .replace h hverdict, fun fuel => (hrun fuel).trans (by rw [hverdict])⟩
  · refine .inr ⟨report, s, .pass h fun hstatus => absurd hstatus hactive, fun fuel => ?_⟩
    rw [simplifyFrom, he]
    exact if_pos hactive

namespace Advances

/-- Less is left after each step: a branch has fewer constraints than what it stands for. -/
theorem remaining_lt (h : Advances l i s s') : s'.remaining (i + 1) < s.remaining i := by
  cases h with
  | @pass c _ hc =>
    have hpos := c.size_pos
    rw [remaining_succ hc]
    omega
  | @discharge c hc =>
    have hpos := c.size_pos
    rw [remaining_succ hc, remaining, remaining, constraints_setStatus]
    omega
  | @replace c cs ps hc hverdict =>
    obtain ⟨added, hsub, hadded⟩ := standing_insertAll (s.setStatus ⟨i⟩ .replaced) cs ps
    have hconstraints : ((s.setStatus ⟨i⟩ .replaced).insertAll cs ps).constraints = s.constraints ++
        added := by
      have hsame : (s.setStatus ⟨i⟩ .replaced).constraints = s.constraints := constraints_setStatus
      rw [← hsame, constraints, hadded, List.map_append, List.map_map]
      simp [constraints, Function.comp_def]
    have hlt : i + 1 ≤ s.constraints.length :=
      (List.getElem?_eq_some_iff.mp (constraints_getElem? hc)).1
    have hsize : Constraint.sizeList added < c.size := by
      have hle := Constraint.sizeList_le_of_sublist hsub
      obtain ⟨j, q, thens, otherwise, rfl, rfl | rfl⟩ := verdict_eq_branch hverdict <;>
        rw [Constraint.size] <;> omega
    rw [remaining_succ hc, remaining, hconstraints, List.drop_append_of_le_length hlt,
      Constraint.sizeList_append]
    unfold remaining
    omega

theorem slots_eq (h : Advances l i s s') : s'.slots = s.slots := by
  cases h with
  | pass => rfl
  | discharge => rfl
  | replace => rw [slots_insertAll, slots_setStatus]

/-- What stands in front of the place stays there, and what stands at it is active only if it is
undecided. -/
theorem standing_le (h : Advances l i s s') {j : Nat} (hj : j ≤ i) {c : Constraint SlotId}
    (hc : s'.standing[j]? = some (c, .active)) :
    s.standing[j]? = some (c, .active) ∧ (j = i → s.verdict l c = .undecided) := by
  have hset : ∀ {status : Status}, status ≠ .active →
      (s.setStatus ⟨i⟩ status).standing[j]? = some (c, .active) →
      s.standing[j]? = some (c, .active) ∧ (j = i → s.verdict l c = .undecided) := by
    intro status hstatus hj'
    rw [standing_setStatus, List.getElem?_modify] at hj'
    split at hj'
    case isTrue =>
      obtain ⟨x, -, hx⟩ := Option.map_eq_some_iff.mp hj'
      exact absurd (congrArg Prod.snd hx) hstatus
    case isFalse hij => exact ⟨by simpa using hj', fun h => absurd h.symm hij⟩
  cases h with
  | pass hstands hundecided =>
    refine ⟨hc, fun hji => ?_⟩
    subst hji
    rw [hc] at hstands
    cases hstands
    exact hundecided rfl
  | discharge => exact hset (by simp) hc
  | @replace c' cs ps hstands =>
    obtain ⟨added, -, hadded⟩ := standing_insertAll (s.setStatus ⟨i⟩ .replaced) cs ps
    have hlt : j < (s.setStatus ⟨i⟩ .replaced).standing.length := by
      rw [standing_setStatus, List.length_modify]
      exact hj.trans_lt (List.getElem?_eq_some_iff.mp hstands).1
    rw [hadded, List.getElem?_append_left hlt] at hc
    exact hset (by simp) hc

end Advances

/-- A simplification ends on its own: all bounds that cover what it has before it give the same
answer. -/
theorem simplifyFrom_congr {fuel fuel' : Nat} (h : s.remaining i ≤ fuel)
    (h' : s.remaining i ≤ fuel') (report : SimplifyReport) :
    simplifyFrom l fuel i report s = simplifyFrom l fuel' i report s := by
  induction fuel generalizing fuel' i report s with
  | zero =>
    have hnone := getElem?_eq_none_of_remaining (Nat.le_zero.mp h)
    rw [simplifyFrom_end hnone, simplifyFrom_end hnone]
  | succ fuel ih =>
    cases hi : s.standing[i]? with
    | none => rw [simplifyFrom_end hi, simplifyFrom_end hi]
    | some x =>
      have hpos := x.1.size_pos
      have hrem := remaining_succ hi
      obtain ⟨fuel', rfl⟩ := Nat.exists_eq_succ_of_ne_zero (show fuel' ≠ 0 by omega)
      rcases simplifyFrom_step (l := l) hi report with ⟨k, hfail⟩ | ⟨report', s', hadvances, hrun⟩
      · rw [hfail, hfail]
      · have hlt := hadvances.remaining_lt
        rw [hrun, hrun]
        exact ih (by omega) (by omega) report'

/-- No active constraint is decided by the fixed slots, as far as place `i`. -/
def Undecided (l : Lattice) (s : ConstraintStore) (i : Nat) : Prop :=
  ∀ j < i, ∀ c, s.standing[j]? = some (c, .active) → s.verdict l c = .undecided

theorem verdict_of_slots (h : s'.slots = s.slots) (c : Constraint SlotId) :
    s'.verdict l c = s.verdict l c := by
  obtain ⟨slots, entries⟩ := s
  obtain ⟨slots', entries'⟩ := s'
  cases h
  cases c <;> rfl

theorem Undecided.advance (hs : Undecided l s i) (h : Advances l i s s') :
    Undecided l s' (i + 1) := by
  intro j hj c hc
  obtain ⟨hold, hat⟩ := h.standing_le (Nat.lt_succ_iff.mp hj) hc
  rw [verdict_of_slots h.slots_eq]
  rcases Nat.lt_succ_iff_lt_or_eq.mp hj with hlt | heq
  · exact hs j hlt c hold
  · exact hat heq

theorem Undecided.of_end (hs : Undecided l s i) (h : s.standing[i]? = none) (j : Nat) :
    Undecided l s j := by
  intro k _ c hc
  exact hs k ((List.getElem?_eq_some_iff.mp hc).1.trans_le (List.getElem?_eq_none_iff.mp h)) c hc

/-- A simplification that succeeds has decided all that the fixed slots decide. -/
theorem simplifyFrom_undecided {fuel : Nat} (hfuel : s.remaining i ≤ fuel) (hs : Undecided l s i)
    {report report' : SimplifyReport} (h : simplifyFrom l fuel i report s = (.ok report', s'))
    (j : Nat) :
    Undecided l s' j := by
  induction fuel generalizing i report s with
  | zero =>
    cases h
    exact hs.of_end (getElem?_eq_none_of_remaining (Nat.le_zero.mp hfuel)) j
  | succ fuel ih =>
    cases hi : s.standing[i]? with
    | none =>
      rw [simplifyFrom_end hi] at h
      cases h
      exact hs.of_end hi j
    | some x =>
      rcases simplifyFrom_step (l := l) hi report with ⟨k, hfail⟩ | ⟨report₁, s₁, hadvances, hrun⟩
      · rw [hfail] at h
        cases h
      · have hlt := hadvances.remaining_lt
        rw [hrun] at h
        exact ih (by omega) (hs.advance hadvances) h

/-- Where nothing is decided, a simplification changes nothing. -/
theorem simplifyFrom_of_undecided (hs : ∀ j, Undecided l s j) (fuel i : Nat)
    (report : SimplifyReport) :
    simplifyFrom l fuel i report s = (.ok report, s) := by
  induction fuel generalizing i with
  | zero => rfl
  | succ fuel ih =>
    rw [simplifyFrom]
    split
    case h_1 => rfl
    case h_2 e he =>
      split
      case isTrue => exact ih (i + 1)
      case isFalse hactive =>
        have hstands := standing_getElem? he
        rw [not_not.mp hactive] at hstands
        rw [hs (i + 1) i (Nat.lt_succ_self i) e.constraint hstands]
        exact ih (i + 1)

end Termination

section Meaning

variable {value : SlotId → Option Qualifier}

def ActiveHold (s : ConstraintStore) (l : Lattice) (value : SlotId → Option Qualifier) : Prop :=
  ∀ x ∈ s.active, x.2.holds l value = some true

theorem Settled.activeHold_iff (hs : Settled l s) (hl : l.Bounded) (hv : s.Assigns l value) :
    s.ActiveHold l value ↔ ∀ c ∈ s.constraints, c.holds l value = some true := by
  constructor
  · intro h
    refine hs.all_hold hl hv fun c hc => ?_
    obtain ⟨k, hk⟩ := List.mem_iff_getElem?.mp hc
    exact h (⟨k⟩, c) (mem_active.mpr hk)
  · intro h x hx
    exact h x.2 (List.mem_map_of_mem (List.mem_of_getElem? (mem_active.mp hx)))

namespace Simplified

/-- The constraints that are left to be satisfied are as strong as before. -/
theorem activeHold_iff (h : Simplified l s s') (hl : l.Bounded) (hs : Settled l s)
    (hv : s.Assigns l value) :
    s'.ActiveHold l value ↔ s.ActiveHold l value := by
  rw [h.settled.activeHold_iff hl (h.assigns_iff.mpr hv), hs.activeHold_iff hl hv]
  obtain ⟨added, hadded, -⟩ := h.kept
  exact ⟨fun hall c hc => hall c (hadded ▸ List.mem_append_left _ hc), h.implied value hv⟩

/-- Under values that satisfy the constraints, no constraint is violated by the fixed slots. -/
theorem verdict_ne_violated (h : Simplified l s s') (hl : l.Bounded) (hv : s.Assigns l value)
    (hall : ∀ c ∈ s.constraints, c.holds l value = some true) {c : Constraint SlotId}
    (hc : c ∈ s'.constraints) :
    s'.verdict l c ≠ .violated := by
  intro hverdict
  have hagrees := verdict_agrees hl (h.assigns_iff.mpr hv) (h.settled.closed c hc)
  rw [hverdict] at hagrees
  cases hagrees.symm.trans (h.implied value hv hall c hc)

end Simplified

end Meaning

section Preferences

variable {value : SlotId → Option Qualifier}

/-- The total weight of the active preferences of inferred slots that the values do not meet. -/
def unmetWeight (s : ConstraintStore) (value : SlotId → Option Qualifier) : Nat :=
  Weight.sum (s.active.filterMap fun x => s.unmet? value x.2)

theorem unmet?_le (value : SlotId → Option Qualifier) (c : Constraint SlotId) :
    s.unmet? value c = none ∨ s.unmet? value c = c.weight? := by
  cases c with
  | preference i q w =>
    rw [unmet?]
    split
    · exact .inr rfl
    · exact .inl rfl
  | _ => exact .inl rfl

theorem active_eq (s : ConstraintStore) :
    s.active.map (·.2) = (s.standing.filter (·.2 == .active)).map (·.1) := by
  have hentries : s.entries.toList.zipIdx.map Prod.fst = s.entries.toList := List.zipIdx_map_fst 0 _
  conv_rhs => rw [standing, ← hentries]
  simp only [active, numbered, List.filter_map, List.map_map]
  rfl

/-- A settled constraint is no preference of an inferred slot. -/
theorem Settled.unmet?_eq_none (hs : Settled l s) {x : Constraint SlotId × Status}
    (hx : x ∈ s.standing) (hstatus : x.2 ≠ .active) (value : SlotId → Option Qualifier) :
    s.unmet? value x.1 = none := by
  obtain ⟨c, status⟩ := x
  cases c with
  | preference i q w =>
    have hconst : s.constantOf i ≠ none := by
      cases status with
      | active => exact absurd rfl hstatus
      | discharged =>
        -- a preference is discharged where its slot is fixed
        have hverdict := hs.discharged _ hx
        rw [verdict] at hverdict
        split at hverdict
        case isTrue h => exact Option.isSome_iff_ne_none.mp h
        case isFalse => cases hverdict
      | replaced =>
        obtain ⟨cs, hverdict, -⟩ := hs.replaced _ hx
        obtain ⟨_, _, _, _, hc, -⟩ := verdict_eq_branch hverdict
        cases hc
    rw [unmet?, if_neg fun h => hconst (mem_variableSlots.mp h.1).2]
  | _ => rfl

/-- The unmet preferences among the active constraints are those among all. -/
theorem Settled.unmet_active (hs : Settled l s) (value : SlotId → Option Qualifier) :
    s.active.filterMap (fun x => s.unmet? value x.2) =
      s.constraints.filterMap (s.unmet? value) := by
  calc s.active.filterMap (fun x => s.unmet? value x.2)
      = (s.active.map (·.2)).filterMap (s.unmet? value) := by rw [List.filterMap_map]; rfl
    _ = s.standing.filterMap (fun x => if x.2 == .active then s.unmet? value x.1 else none) := by
        rw [active_eq, List.filterMap_map, List.filterMap_filter]
        rfl
    _ = s.standing.filterMap (fun x => s.unmet? value x.1) := by
        refine List.filterMap_congr fun x hx => ?_
        split
        case isTrue => rfl
        case isFalse hstatus => exact (hs.unmet?_eq_none hx (by simpa using hstatus) value).symm
    _ = s.constraints.filterMap (s.unmet? value) := by rw [constraints, List.filterMap_map]; rfl

namespace Simplified

theorem variableSlots (h : Simplified l s s') : s'.variableSlots = s.variableSlots := by
  rw [ConstraintStore.variableSlots, h.slots]
  rfl

/-- Where no preference is inside of a conditional constraint, the simplified store has the same
ones. -/
theorem weights_eq (h : Simplified l s s')
    (hnested : ∀ c ∈ s.constraints, ∀ x ∈ c.inner, x.isSoft = false)
    {f : Constraint SlotId → Option Weight} (hf : ∀ c, f c = none ∨ f c = c.weight?) :
    s'.constraints.filterMap f = s.constraints.filterMap f := by
  obtain ⟨added, hadded, hinner⟩ := h.kept
  have hnone : added.filterMap f = [] := by
    refine List.filterMap_eq_nil_iff.mpr fun c hc => ?_
    obtain ⟨x, hx, hin, -⟩ := hinner c hc
    exact (hf c).elim id fun hw => hw.trans (Constraint.weight?_eq_none (hnested x hx c hin))
  rw [hadded, List.filterMap_append, hnone, List.append_nil]

theorem unmet_eq (h : Simplified l s s')
    (hnested : ∀ c ∈ s.constraints, ∀ x ∈ c.inner, x.isSoft = false)
    (value : SlotId → Option Qualifier) :
    s'.active.filterMap (fun x => s'.unmet? value x.2) =
      s.constraints.filterMap (s.unmet? value) := by
  have hunmet : s'.unmet? value = s.unmet? value := by
    funext c
    cases c with
    | preference i q w => rw [unmet?, unmet?, h.variableSlots]
    | _ => rfl
  rw [h.settled.unmet_active, hunmet, h.weights_eq hnested (unmet?_le value)]

end Simplified

end Preferences

/-- Simplification ends on its own and keeps the meaning of a store. It fails only if no values
satisfy the active constraints. Otherwise these are as strong as before, all that can be settled is
settled, and the preferences that are not met weigh the same. -/
theorem simplify_equivalent {d : LatticeDescription} {l : Lattice} (hload : Lattice.load d = .ok l)
    {s : ConstraintStore} (hbuilt : s.Built (· = l)) :
    (∀ fuel, s.weight ≤ fuel → simplifyFrom l fuel 0 {} s = simplify l s) ∧
      (∀ k, (simplify l s).1 = .error k → ∀ value, s.Assigns l value → ¬s.ActiveHold l value) ∧
      ∀ report, (simplify l s).1 = .ok report →
        (∀ value, s.Assigns l value →
          (s.ActiveHold l value ↔ (simplify l s).2.ActiveHold l value)) ∧
        simplify l (simplify l s).2 = (.ok {}, (simplify l s).2) ∧
        ((∀ c ∈ s.constraints, ∀ x ∈ c.inner, x.isSoft = false) →
          ∀ value, (simplify l s).2.unmetWeight value = s.unmetWeight value) := by
  have hl := Lattice.load_bounded hload
  have hsettled := hbuilt.settled hl
  obtain ⟨hsimplified, herror⟩ := simplify_spec hl hsettled
  have hcover : s.remaining 0 ≤ s.weight := s.weight_eq.ge
  refine ⟨fun fuel hfuel => ?_, fun k hk value hv hactive => ?_,
    fun report hok => ⟨fun value hv => ?_, ?_, ?_⟩⟩
  · exact simplifyFrom_congr (hcover.trans hfuel) hcover {}
  · obtain ⟨c, hc, hverdict⟩ := herror k hk
    exact hsimplified.verdict_ne_violated hl hv ((hsettled.activeHold_iff hl hv).mp hactive) hc
      hverdict
  · exact (hsimplified.activeHold_iff hl hsettled hv).symm
  · refine simplifyFrom_of_undecided
      (simplifyFrom_undecided hcover (fun j hj => ?_) (Prod.ext hok rfl)) _ _ _
    exact absurd hj (Nat.not_lt_zero j)
  · intro hnested value
    rw [unmetWeight, unmetWeight, hsimplified.unmet_eq hnested, hsettled.unmet_active]

def nestedUnit : UnitConstraints where
  unit := "unit"
  slots :=
    ⟨#[⟨⟨"unit", "mode", .field⟩, .fixed ⟨1⟩⟩, ⟨⟨"unit", "value", .parameter⟩, .inferred none⟩,
    ⟨⟨"unit", "limit", .result⟩, .fixed ⟨3⟩⟩]⟩
  constraints :=
      [(.existential ⟨0⟩ ⟨1⟩ [.existential ⟨0⟩ ⟨2⟩ [] [.comparable ⟨1⟩ ⟨0⟩], .subtype ⟨1⟩ ⟨2⟩]
      [.equality ⟨1⟩ ⟨2⟩], ⟨"unit", "use", .assignment⟩),
    (.preference ⟨1⟩ ⟨2⟩ 3, ⟨"unit", "value", .preference⟩)]

def nestedStore : ConstraintStore where
  slots := nestedUnit.slots
  entries :=
      #[⟨.existential ⟨0⟩ ⟨1⟩ [.subtype ⟨1⟩ ⟨2⟩, .existential ⟨0⟩ ⟨2⟩ [] [.comparable ⟨0⟩ ⟨1⟩]]
      [.equality ⟨1⟩ ⟨2⟩], [⟨"unit", "use", .assignment⟩], .active⟩,
    ⟨.preference ⟨1⟩ ⟨2⟩ 3, [⟨"unit", "value", .preference⟩], .active⟩]

/-- Both conditional constraints are replaced and the upper limit is discharged, so that the value
only has to be comparable with the mode. -/
theorem simplify_equivalent_nested : (simplify .diamond nestedStore).1 = .ok ⟨1, 2⟩ ∧
    (∀ value, nestedStore.Assigns .diamond value →
      (nestedStore.ActiveHold .diamond value ↔
        (simplify .diamond nestedStore).2.ActiveHold .diamond value)) ∧
    simplify .diamond (simplify .diamond nestedStore).2 =
      (.ok {}, (simplify .diamond nestedStore).2) ∧
    ∀ value, (simplify .diamond nestedStore).2.unmetWeight value =
      nestedStore.unmetWeight value := by
  have habsorb : ({} : ConstraintStore).absorb nestedUnit =
      .ok ([⟨0⟩, ⟨1⟩, ⟨2⟩], nestedStore) := by cbv
  have hreport : (simplify .diamond nestedStore).1 = .ok ⟨1, 2⟩ := by cbv
  obtain ⟨-, -, hok⟩ := simplify_equivalent Lattice.load_diamond (.absorb .empty habsorb)
  obtain ⟨hmeaning, hagain, hweight⟩ := hok _ hreport
  exact ⟨hreport, hmeaning, hagain, hweight (by decide)⟩

end ConstraintStore

end Qualify
