import Qualify.Store.Simplify
import Qualify.Proofs.Lattice
import Qualify.Proofs.Store.Growth

namespace Qualify

/-- What a verdict says about a constraint under values of the slots. -/
def Verdict.Agrees (l : Lattice) (value : SlotId → Option Qualifier) (c : Constraint SlotId) :
    Verdict → Prop
  | undecided => True
  | holds => c.holds l value = some true
  | violated => c.holds l value = some false
  | branch cs => c.holds l value = Constraint.holdsAll l value cs

namespace ConstraintStore

/-- Every slot has a qualifier of the lattice, and a fixed one its own. -/
def Assigns (s : ConstraintStore) (l : Lattice) (value : SlotId → Option Qualifier) : Prop :=
  ∀ i, i.index < s.slots.size → ∃ q ∈ l.qualifiers, value i = some q ∧
    ∀ p, s.constantOf i = some p → p = q

section Verdict

variable {s : ConstraintStore} {l : Lattice} {value : SlotId → Option Qualifier}

theorem compareFixed_agrees {a b : SlotId} {p q : Qualifier}
    (hp : ∀ p', s.constantOf a = some p' → p' = p) (hq : ∀ q', s.constantOf b = some q' → q' = q)
    {relation : Qualifier → Qualifier → Bool} {c : Constraint SlotId}
    (hc : c.holds l value = some (relation p q)) :
    (s.compareFixed a b relation).Agrees l value c := by
  unfold compareFixed
  split
  case h_1 p' q' hp' hq' =>
    rw [hp p' hp', hq q' hq', Verdict.ofBool]
    split
    case isTrue h => rw [Verdict.Agrees, hc, h]
    case isFalse h => rw [Verdict.Agrees, hc, Bool.eq_false_of_not_eq_true h]
  case h_2 => trivial

/-- A subtype constraint is decided by equal slots, by two constants, or by a constant at the end of
the lattice. -/
theorem verdict_subtype_agrees (hl : l.Bounded) (hv : s.Assigns l value) {a b : SlotId}
    (hc : Knows s.slots (.subtype a b)) :
    (s.verdict l (.subtype a b)).Agrees l value (.subtype a b) := by
  obtain ⟨p, hpl, hp, hap⟩ := hv a (hc a (by simp [Constraint.slots]))
  obtain ⟨q, hql, hq, hbq⟩ := hv b (hc b (by simp [Constraint.slots]))
  have hholds : (Constraint.subtype a b).holds l value = some (l.isSubtype p q) := by
    simp [Constraint.holds, hp, hq]
  rw [verdict]
  split
  case isTrue hab =>
    subst hab
    rw [Verdict.Agrees, hholds, Option.some.inj (hq.symm.trans hp), hl.refl p hpl]
  case isFalse =>
    split
    case h_1 p' q' hp' hq' =>
      have hagree := compareFixed_agrees hap hbq hholds
      rwa [compareFixed, hp', hq'] at hagree
    case h_2 q' _ hq' =>
      split
      case isTrue htop => rw [Verdict.Agrees, hholds, ← hbq q' hq', htop, hl.le_top p hpl]
      case isFalse => trivial
    case h_3 p' hp' _ =>
      split
      case isTrue hbottom => rw [Verdict.Agrees, hholds, ← hap p' hp', hbottom, hl.bottom_le q hql]
      case isFalse => trivial
    case h_4 => trivial

theorem verdict_agrees (hl : l.Bounded) (hv : s.Assigns l value) {c : Constraint SlotId}
    (hc : Knows s.slots c) :
    (s.verdict l c).Agrees l value c := by
  cases c with
  | subtype a b => exact verdict_subtype_agrees hl hv hc
  | equality a b =>
    obtain ⟨p, -, hp, hap⟩ := hv a (hc a (by simp [Constraint.slots]))
    obtain ⟨q, -, hq, hbq⟩ := hv b (hc b (by simp [Constraint.slots]))
    rw [verdict]
    split
    case isTrue hab => simp [Verdict.Agrees, Constraint.holds, hab, hq]
    case isFalse => exact compareFixed_agrees hap hbq (by simp [Constraint.holds, hp, hq])
  | inequality a b =>
    obtain ⟨p, -, hp, hap⟩ := hv a (hc a (by simp [Constraint.slots]))
    obtain ⟨q, -, hq, hbq⟩ := hv b (hc b (by simp [Constraint.slots]))
    rw [verdict]
    split
    case isTrue hab => simp [Verdict.Agrees, Constraint.holds, hab, hq]
    case isFalse => exact compareFixed_agrees hap hbq (by simp [Constraint.holds, hp, hq])
  | comparable a b =>
    obtain ⟨p, hpl, hp, hap⟩ := hv a (hc a (by simp [Constraint.slots]))
    obtain ⟨q, -, hq, hbq⟩ := hv b (hc b (by simp [Constraint.slots]))
    rw [verdict]
    split
    case isTrue hab =>
      subst hab
      simp [Verdict.Agrees, Constraint.holds, hp, Lattice.isComparable, hl.refl p hpl]
    case isFalse => exact compareFixed_agrees hap hbq (by simp [Constraint.holds, hp, hq])
  | preference i q w =>
    rw [verdict]
    split
    · rfl
    · trivial
  | existential i q thens otherwise =>
    obtain ⟨p, -, hp, hip⟩ := hv i (hc i (by simp [Constraint.slots]))
    rw [verdict]
    split
    case h_1 p' hp' =>
      rw [Verdict.Agrees, Constraint.holds, hp, hip p' hp']
      exact (apply_ite (Constraint.holdsAll l value) (p = q) thens otherwise).symm
    case h_2 => trivial

/-- Only a conditional constraint is replaced, by one of its lists. -/
theorem verdict_eq_branch {c : Constraint SlotId} {cs : List (Constraint SlotId)}
    (h : s.verdict l c = .branch cs) :
    ∃ i q thens otherwise, c = .existential i q thens otherwise ∧
      (cs = thens ∨ cs = otherwise) := by
  have hbool : ∀ b, Verdict.ofBool b ≠ .branch cs := by
    intro b
    cases b <;> simp [Verdict.ofBool]
  have hfixed : ∀ a b relation, s.compareFixed a b relation ≠ .branch cs := by
    intro a b relation
    unfold compareFixed
    split
    · exact hbool _
    · simp
  cases c with
  | existential i q thens otherwise =>
    refine ⟨i, q, thens, otherwise, rfl, ?_⟩
    rw [verdict] at h
    split at h
    · have hcs := Verdict.branch.inj h
      split at hcs
      · exact .inl hcs.symm
      · exact .inr hcs.symm
    · cases h
  | subtype a b =>
    rw [verdict] at h
    split at h
    · cases h
    · split at h
      · exact absurd h (hbool _)
      · split at h <;> cases h
      · split at h <;> cases h
      · cases h
  | equality a b | inequality a b | comparable a b =>
    rw [verdict] at h
    split at h
    · cases h
    · exact absurd h (hfixed _ _ _)
  | preference i q w =>
    rw [verdict] at h
    split at h <;> cases h

theorem verdict_congr {s' : ConstraintStore} (h : s.slots.Grows s'.slots) {c : Constraint SlotId}
    (hc : Knows s.slots c) : s'.verdict l c = s.verdict l c := by
  have hconst : ∀ i ∈ c.slots, s'.constantOf i = s.constantOf i :=
    fun i hi => h.constantOf_eq (hc i hi)
  cases c <;> simp_all [Constraint.slots, verdict, compareFixed]

end Verdict

section Branch

variable {s : ConstraintStore} {l : Lattice} {c c' : Constraint SlotId}
  {cs : List (Constraint SlotId)}

theorem mem_inner_of_branch (h : s.verdict l c = .branch cs) (hc' : c' ∈ cs) :
    c' ∈ c.inner ∧ c'.inner ⊆ c.inner := by
  obtain ⟨i, q, thens, otherwise, rfl, rfl | rfl⟩ := verdict_eq_branch h
  · exact ⟨List.mem_append_left _ (Constraint.mem_partsOf hc'),
      List.subset_append_of_subset_left _ (Constraint.inner_subset_partsOf hc')⟩
  · exact ⟨List.mem_append_right _ (Constraint.mem_partsOf hc'),
      List.subset_append_of_subset_right _ (Constraint.inner_subset_partsOf hc')⟩

theorem size_lt_of_branch (h : s.verdict l c = .branch cs) (hc' : c' ∈ cs) : c'.size < c.size := by
  have hle := Constraint.size_le_sizeList hc'
  obtain ⟨i, q, thens, otherwise, rfl, rfl | rfl⟩ := verdict_eq_branch h <;>
    rw [Constraint.size] <;> omega

theorem knows_of_branch (h : s.verdict l c = .branch cs) (hc : Knows s.slots c) (hc' : c' ∈ cs) :
    Knows s.slots c' := by
  intro j hj
  have hmem : j ∈ Constraint.slotsOf cs := Constraint.mem_slotsOf.mpr ⟨c', hc', hj⟩
  apply hc
  obtain ⟨i, q, thens, otherwise, rfl, rfl | rfl⟩ := verdict_eq_branch h <;>
    simp [Constraint.slots, hmem]

end Branch

section Steps

variable {s : ConstraintStore} {i : Nat} {e : Entry} {status : Status}

theorem mem_constraints (he : s.entries[i]? = some e) : e.constraint ∈ s.constraints :=
  List.mem_map_of_mem (List.mem_map_of_mem (Array.mem_toList_iff.mpr (Array.mem_of_getElem? he)))

@[simp] theorem slots_setStatus : (s.setStatus ⟨i⟩ status).slots = s.slots := rfl

theorem standing_setStatus :
    (s.setStatus ⟨i⟩ status).standing = s.standing.modify i fun x => (x.1, status) := by
  rw [standing, setStatus, Array.toList_modify]
  exact List.map_modify (fun _ => by rfl) _ i

@[simp] theorem constraints_setStatus : (s.setStatus ⟨i⟩ status).constraints = s.constraints := by
  rw [constraints, standing_setStatus, List.map_modify (k := id) fun _ => by rfl, List.modify_id]
  rfl

theorem eq_or_mem_of_setStatus (he : s.entries[i]? = some e) {x : Constraint SlotId × Status}
    (hx : x ∈ (s.setStatus ⟨i⟩ status).standing) : x = (e.constraint, status) ∨ x ∈ s.standing := by
  obtain ⟨j, hj⟩ := List.mem_iff_getElem?.mp (standing_setStatus ▸ hx)
  rw [List.getElem?_modify] at hj
  obtain ⟨y, hy, hxy⟩ := Option.map_eq_some_iff.mp hj
  split at hxy
  case isTrue hij =>
    subst hij
    rw [standing, List.getElem?_map, Array.getElem?_toList, he] at hy
    exact .inl (by rw [← hxy, ← Option.some.inj hy])
  case isFalse => exact .inr (hxy ▸ List.mem_of_getElem? hy)

theorem closed_setStatus (hs : s.Closed) : (s.setStatus ⟨i⟩ status).Closed := by
  simpa [Closed] using hs

theorem sourced_setStatus (hs : s.Sourced) : (s.setStatus ⟨i⟩ status).Sourced := by
  unfold Sourced setStatus
  exact Array.forall_mem_modify (f := fun e => { e with status }) (fun _ he => he) hs i

theorem insertAll_cons (s : ConstraintStore) (c : Constraint SlotId) (cs : List (Constraint SlotId))
    (ps : List Provenance) : s.insertAll (c :: cs) ps = (s.insertAll [c] ps).insertAll cs ps := rfl

theorem insertAll_grows {P : Constraint SlotId → Prop} {cs : List (Constraint SlotId)}
    (hcs : ∀ c ∈ cs, P c) (s : ConstraintStore) (ps : List Provenance) :
    Grows P s (s.insertAll cs ps) := by
  induction cs generalizing s with
  | nil => exact .refl _
  | cons c cs ih =>
    obtain ⟨hc, hcs⟩ := List.forall_mem_cons.mp hcs
    rw [insertAll_cons]
    exact (foldl_insert_grows (fun _ => c) id ps (fun _ _ => hc) s).trans (ih hcs _)

@[simp] theorem slots_insertAll (s : ConstraintStore) (cs : List (Constraint SlotId))
    (ps : List Provenance) :
    (s.insertAll cs ps).slots = s.slots := by
  induction cs generalizing s with
  | nil => rfl
  | cons c cs ih =>
    rw [insertAll_cons, ih]
    exact slots_foldl_insert (fun _ => c) id ps s

/-- With a provenance at hand, all the constraints are in the store afterwards. -/
theorem mem_constraints_insertAll {cs : List (Constraint SlotId)} {ps : List Provenance}
    (hps : ps ≠ []) (s : ConstraintStore) : ∀ c ∈ cs, c ∈ (s.insertAll cs ps).constraints := by
  induction cs generalizing s with
  | nil => simp
  | cons c cs ih =>
    rw [insertAll_cons]
    refine List.forall_mem_cons.mpr ⟨?_, ih _⟩
    apply (insertAll_grows (P := fun _ => True) (by simp) _ ps).constraints_subset
    obtain ⟨p, ps, rfl⟩ := List.exists_cons_of_ne_nil hps
    exact (foldl_insert_grows (P := fun _ => True) (fun _ => c) id ps
      (by simp) _).constraints_subset (mem_constraints_insert s c p)

end Steps

section Run

variable {l : Lattice} {I : ConstraintStore → Prop}

/-- A simplification discharges and replaces active constraints, one after the other, and fails only
at a constraint that the fixed slots violate. -/
theorem simplifyFrom_keeps
    (discharge : ∀ s i e, I s → s.entries[i]? = some e → e.status = .active →
      s.verdict l e.constraint = .holds → I (s.setStatus ⟨i⟩ .discharged))
    (replace : ∀ s i e cs, I s → s.entries[i]? = some e → e.status = .active →
      s.verdict l e.constraint = .branch cs →
      I ((s.setStatus ⟨i⟩ .replaced).insertAll cs e.provenance))
    (fuel : Nat) {i : Nat} {report : SimplifyReport} {s : ConstraintStore} (hs : I s) :
    I (simplifyFrom l fuel i report s).2 ∧ ∀ k, (simplifyFrom l fuel i report s).1 = .error k →
      ∃ c ∈ (simplifyFrom l fuel i report s).2.constraints,
        (simplifyFrom l fuel i report s).2.verdict l c = .violated := by
  induction fuel generalizing i report s with
  | zero => exact ⟨hs, fun _ h => nomatch h⟩
  | succ fuel ih =>
    rw [simplifyFrom]
    split
    case h_1 => exact ⟨hs, fun _ h => nomatch h⟩
    case h_2 e he =>
      split
      case isTrue => exact ih hs
      case isFalse hactive =>
        have hactive := not_not.mp hactive
        split
        case h_1 => exact ih hs
        case h_2 hverdict => exact ih (discharge s i e hs he hactive hverdict)
        case h_3 hverdict => exact ⟨hs, fun _ _ => ⟨e.constraint, mem_constraints he, hverdict⟩⟩
        case h_4 cs hverdict => exact ih (replace s i e cs hs he hactive hverdict)

end Run

/-- What was settled under the lattice: a discharged constraint holds, and what stands for a
replaced one is there. -/
structure Settled (l : Lattice) (s : ConstraintStore) : Prop where
  closed : s.Closed
  sourced : s.Sourced
  discharged : ∀ c, (c, .discharged) ∈ s.standing → s.verdict l c = .holds
  replaced : ∀ c, (c, .replaced) ∈ s.standing → ∃ cs, s.verdict l c = .branch cs ∧
    cs ⊆ s.constraints

namespace Settled

variable {l : Lattice} {s s' : ConstraintStore}

theorem empty (l : Lattice) : Settled l {} := by
  constructor <;> simp [Closed, Sourced, constraints, standing]

theorem grows {P : Constraint SlotId → Prop} (hs : Settled l s) (h : Grows P s s')
    (hP : ∀ c, P c → Knows s'.slots c) :
    Settled l s' := by
  -- A new constraint is active, so that an entry of another status stands since before.
  have hold : ∀ x ∈ s'.standing, x.2 ≠ .active → x ∈ s.standing :=
    h.forall_mem (fun x hx _ => hx) fun _ _ hne => absurd rfl hne
  refine ⟨(h.mono hP).closed hs.closed, h.sourced hs.sourced, fun c hc => ?_, fun c hc => ?_⟩
  · have hc := hold _ hc (by simp)
    rw [verdict_congr h.slots (hs.closed c (List.mem_map_of_mem hc))]
    exact hs.discharged c hc
  · have hc := hold _ hc (by simp)
    obtain ⟨cs, hverdict, hcs⟩ := hs.replaced c hc
    rw [verdict_congr h.slots (hs.closed c (List.mem_map_of_mem hc))]
    exact ⟨cs, hverdict, List.Subset.trans hcs h.constraints_subset⟩

variable {i : Nat} {e : Entry}

theorem discharge (hs : Settled l s) (he : s.entries[i]? = some e)
    (hverdict : s.verdict l e.constraint = .holds) :
    Settled l (s.setStatus ⟨i⟩ .discharged) := by
  refine ⟨closed_setStatus hs.closed, sourced_setStatus hs.sourced, fun c hc => ?_, fun c hc => ?_⟩
  · rcases eq_or_mem_of_setStatus he hc with hc | hc
    · obtain rfl : c = e.constraint := congrArg Prod.fst hc
      exact hverdict
    · exact hs.discharged c hc
  · rcases eq_or_mem_of_setStatus he hc with hc | hc
    · cases congrArg Prod.snd hc
    · rw [constraints_setStatus]
      exact hs.replaced c hc

theorem replace {cs : List (Constraint SlotId)} (hs : Settled l s) (he : s.entries[i]? = some e)
    (hverdict : s.verdict l e.constraint = .branch cs) :
    Settled l ((s.setStatus ⟨i⟩ .replaced).insertAll cs e.provenance) := by
  have hknown : ∀ c ∈ cs, Knows s.slots c :=
    fun c hc => knows_of_branch hverdict (hs.closed _ (mem_constraints he)) hc
  have hgrows : Grows (· ∈ cs) (s.setStatus ⟨i⟩ .replaced)
      ((s.setStatus ⟨i⟩ .replaced).insertAll cs e.provenance) :=
    insertAll_grows (fun _ hc => hc) _ _
  have hcs : cs ⊆ ((s.setStatus ⟨i⟩ .replaced).insertAll cs e.provenance).constraints :=
    mem_constraints_insertAll (hs.sourced e (Array.mem_of_getElem? he)) _
  have hold : ∀ x ∈ ((s.setStatus ⟨i⟩ .replaced).insertAll cs e.provenance).standing,
      x.2 ≠ .active → x = (e.constraint, .replaced) ∨ x ∈ s.standing :=
    hgrows.forall_mem (fun x hx _ => eq_or_mem_of_setStatus he hx) fun _ _ hne => absurd rfl hne
  have hsame : ∀ c ∈ s.constraints,
      ((s.setStatus ⟨i⟩ .replaced).insertAll cs e.provenance).verdict l c = s.verdict l c :=
    fun c hc => verdict_congr hgrows.slots (hs.closed c hc)
  refine ⟨(hgrows.mono (by simpa using hknown)).closed (closed_setStatus hs.closed),
    hgrows.sourced (sourced_setStatus hs.sourced), fun c hc => ?_, fun c hc => ?_⟩
  · rcases hold _ hc (by simp) with hc | hc
    · cases congrArg Prod.snd hc
    · rw [hsame c (List.mem_map_of_mem hc)]
      exact hs.discharged c hc
  · rcases hold _ hc (by simp) with hc | hc
    · obtain rfl : c = e.constraint := congrArg Prod.fst hc
      exact ⟨cs, (hsame _ (mem_constraints he)).trans hverdict, hcs⟩
    · obtain ⟨cs', hverdict', hcs'⟩ := hs.replaced c hc
      rw [hsame c (List.mem_map_of_mem hc)]
      refine ⟨cs', hverdict', List.Subset.trans hcs' ?_⟩
      simpa using hgrows.constraints_subset

/-- Where the active constraints hold, all of them do: what stands for a replaced one is smaller. -/
theorem all_hold {value : SlotId → Option Qualifier} (hs : Settled l s) (hl : l.Bounded)
    (hv : s.Assigns l value)
    (hactive : ∀ c, (c, .active) ∈ s.standing → c.holds l value = some true) :
    ∀ c ∈ s.constraints, c.holds l value = some true := by
  -- induction on the size, as a replacement need not stand after what it replaces
  have hsize : ∀ n, ∀ c ∈ s.constraints, c.size < n → c.holds l value = some true := by
    intro n
    induction n with
    | zero => exact fun _ _ h => absurd h (Nat.not_lt_zero _)
    | succ n ih =>
      intro c hc hn
      have hagrees := verdict_agrees hl hv (hs.closed c hc)
      obtain ⟨⟨_, status⟩, hstands, rfl⟩ := List.mem_map.mp hc
      cases status with
      | active => exact hactive _ hstands
      | discharged =>
        rw [hs.discharged _ hstands] at hagrees
        exact hagrees
      | replaced =>
        obtain ⟨cs, hverdict, hcs⟩ := hs.replaced _ hstands
        rw [hverdict] at hagrees
        refine hagrees.trans (Constraint.holdsAll_eq_some_true.mpr fun c' hc' => ih c' (hcs hc') ?_)
        exact (size_lt_of_branch hverdict hc').trans_le (Nat.lt_succ_iff.mp hn)
  exact fun c hc => hsize (c.size + 1) c hc (Nat.lt_succ_self _)

end Settled

/-- How a store and its simplification belong together. -/
structure Simplified (l : Lattice) (s s' : ConstraintStore) : Prop where
  slots : s'.slots = s.slots
  settled : Settled l s'
  kept : ∃ added, s'.constraints = s.constraints ++ added ∧
    ∀ c ∈ added, ∃ x ∈ s.constraints, c ∈ x.inner ∧ c.inner ⊆ x.inner
  implied : ∀ value, s.Assigns l value → (∀ c ∈ s.constraints, c.holds l value = some true) →
    ∀ c ∈ s'.constraints, c.holds l value = some true

namespace Simplified

variable {l : Lattice} {s s' : ConstraintStore} {i : Nat} {e : Entry}

theorem discharge (h : Simplified l s s') (he : s'.entries[i]? = some e)
    (hverdict : s'.verdict l e.constraint = .holds) :
    Simplified l s (s'.setStatus ⟨i⟩ .discharged) where
  slots := h.slots
  settled := h.settled.discharge he hverdict
  kept := by simpa using h.kept
  implied := by simpa using h.implied

theorem assigns_iff (h : Simplified l s s') {value : SlotId → Option Qualifier} :
    s'.Assigns l value ↔ s.Assigns l value := by
  simp only [Assigns, constantOf, h.slots]

theorem replace (hl : l.Bounded) {cs : List (Constraint SlotId)} (h : Simplified l s s')
    (he : s'.entries[i]? = some e) (hverdict : s'.verdict l e.constraint = .branch cs) :
    Simplified l s ((s'.setStatus ⟨i⟩ .replaced).insertAll cs e.provenance) := by
  have hmem : e.constraint ∈ s'.constraints := mem_constraints he
  obtain ⟨added, hadded, hbranch⟩ :=
    (insertAll_grows (P := (· ∈ cs)) (fun _ hc => hc) (s'.setStatus ⟨i⟩ .replaced)
      e.provenance).constraints
  rw [constraints_setStatus] at hadded
  refine ⟨by simpa using h.slots, h.settled.replace he hverdict, ?_, fun value hv hholds => ?_⟩
  · obtain ⟨added', hadded', hinner⟩ := h.kept
    refine ⟨added' ++ added, by rw [hadded, hadded', List.append_assoc], fun c hc => ?_⟩
    rcases List.mem_append.mp hc with hc | hc
    · exact hinner c hc
    · -- the replaced constraint may be an added one itself
      obtain ⟨hin, hsub⟩ := mem_inner_of_branch hverdict (hbranch c hc)
      rw [hadded', List.mem_append] at hmem
      rcases hmem with hmem | hmem
      · exact ⟨_, hmem, hin, hsub⟩
      · obtain ⟨x, hx, -, hxsub⟩ := hinner _ hmem
        exact ⟨x, hx, hxsub hin, List.Subset.trans hsub hxsub⟩
  · have hall := h.implied value hv hholds
    have hagrees := verdict_agrees hl (h.assigns_iff.mpr hv)
      (h.settled.closed _ (mem_constraints he))
    rw [hverdict] at hagrees
    have hcs := Constraint.holdsAll_eq_some_true.mp (hagrees.symm.trans (hall _ hmem))
    intro c hc
    rw [hadded, List.mem_append] at hc
    rcases hc with hc | hc
    · exact hall c hc
    · exact hcs c (hbranch c hc)

end Simplified

theorem simplify_spec {l : Lattice} (hl : l.Bounded) {s : ConstraintStore} (hs : Settled l s) :
    Simplified l s (simplify l s).2 ∧ ∀ k, (simplify l s).1 = .error k →
      ∃ c ∈ (simplify l s).2.constraints, (simplify l s).2.verdict l c = .violated :=
  simplifyFrom_keeps (fun _ _ _ h he _ hverdict => h.discharge he hverdict)
    (fun _ _ _ _ h he _ hverdict => h.replace hl he hverdict) _
    ⟨rfl, hs, ⟨[], by simp⟩, fun _ _ h => h⟩

/-- Stores that come from requests, and from simplification under lattices of a kind. -/
inductive Built (under : Lattice → Prop) : ConstraintStore → Prop where
  | empty : Built under {}
  | internSlot {s s' : ConstraintStore} {loc : Location} {init : SlotInit} {i : SlotId} :
    Built under s → s.internSlot loc init = .ok (i, s') → Built under s'
  | add {s s' : ConstraintStore} {c : Constraint SlotId} {p : Provenance} {id : ConstraintId} :
    Built under s → s.add c p = .ok (id, s') → Built under s'
  | absorb {s s' : ConstraintStore} {u : UnitConstraints} {names : List SlotId} :
    Built under s → s.absorb u = .ok (names, s') → Built under s'
  | simplify {s : ConstraintStore} {l : Lattice} : Built under s → under l →
    Built under (simplify l s).2

namespace Built

variable {under : Lattice → Prop} {s : ConstraintStore}

theorem closed_and_sourced (h : Built under s) : s.Closed ∧ s.Sourced := by
  induction h with
  | empty => exact ⟨(Settled.empty default).closed, (Settled.empty default).sourced⟩
  | internSlot _ h ih => exact ⟨(internSlot_grows h).closed ih.1, (internSlot_grows h).sourced ih.2⟩
  | add _ h ih => exact ⟨(add_grows h).closed ih.1, (add_grows h).sourced ih.2⟩
  | absorb _ h ih => exact ⟨(absorb_grows h).closed ih.1, (absorb_grows h).sourced ih.2⟩
  | simplify _ _ ih =>
    refine (simplifyFrom_keeps (I := fun s => s.Closed ∧ s.Sourced) (fun s i e hs _ _ _ => ?_)
      (fun s i e cs hs he _ hverdict => ?_) _ ih).1
    · exact ⟨closed_setStatus hs.1, sourced_setStatus hs.2⟩
    · have hgrows := insertAll_grows (P := Knows s.slots)
        (fun c hc => knows_of_branch hverdict (hs.1 _ (mem_constraints he)) hc)
          (s.setStatus ⟨i⟩ .replaced) e.provenance
      exact ⟨(hgrows.mono (by simp)).closed (closed_setStatus hs.1),
        hgrows.sourced (sourced_setStatus hs.2)⟩

theorem settled {l : Lattice} (hl : l.Bounded) (h : Built (· = l) s) : Settled l s := by
  induction h with
  | empty => exact .empty l
  | internSlot _ h ih => exact ih.grows (internSlot_grows h) fun _ => id
  | add _ h ih => exact ih.grows (add_grows h) fun _ => id
  | absorb _ h ih => exact ih.grows (absorb_grows h) fun _ => id
  | simplify _ hl' ih =>
    subst hl'
    exact (simplify_spec hl ih).1.settled

end Built

end ConstraintStore

end Qualify
