import Qualify.Encoding.Conflict
import Qualify.Proofs.Encoding.Exact
import Qualify.Proofs.Formula

namespace Qualify

namespace Term

def Below (n : Nat) : Term → Prop
  | known _ => True
  | lit l => l.var.number ≤ n

theorem Below.negate {n : Nat} {t : Term} (h : t.Below n) : t.negate.Below n := by
  cases t with
  | known b => trivial
  | lit l => simpa [Below, Term.negate] using h

theorem lit_mem_of_clauseFrom? {ts : List Term} {clause c : Clause}
    (h : clauseFrom? clause ts = some c) :
    ∀ l ∈ c, l ∈ clause ∨ lit l ∈ ts := by
  induction ts generalizing clause with
  | nil =>
    cases h
    exact fun l hl => .inl hl
  | cons t ts ih =>
    have hrest : ∀ clause', clauseFrom? clause' ts = some c →
        (∀ l ∈ clause', l ∈ clause ∨ lit l ∈ t :: ts) →
        ∀ l ∈ c, l ∈ clause ∨ lit l ∈ t :: ts := fun clause' h' hsub l hl =>
      (ih h' l hl).elim (hsub l) fun hmem => .inr (List.mem_cons_of_mem t hmem)
    match t with
    | known true => simp [clauseFrom?] at h
    | known false => exact hrest clause h fun _ => .inl
    | lit x =>
      rw [clauseFrom?] at h
      split at h
      · cases h
      split at h
      · exact hrest clause h fun _ => .inl
      · refine hrest _ h fun l hl => ?_
        rcases List.mem_append.mp hl with hl | hl
        · exact .inl hl
        · exact .inr (by simp_all)

theorem clause?_below {n : Nat} {ts : List Term} (hts : ∀ t ∈ ts, t.Below n) {c : Clause}
    (h : clause? ts = some c) :
    ∀ l ∈ c, l.var.number ≤ n := by
  intro l hl
  rcases lit_mem_of_clauseFrom? h l hl with hmem | hmem
  · cases hmem
  · exact hts _ hmem

end Term

namespace ConstraintStore

variable {s : ConstraintStore} {l : Lattice} {m : VarMap}

theorem hasQualifier_below (i : SlotId) (q : Qualifier) :
    (s.hasQualifier m i q).Below m.numVars := by
  unfold hasQualifier
  split
  · trivial
  · split
    case h_1 x hx => exact VarMap.lit?_bounded hx
    case h_2 => trivial

theorem forbid_below {gate : List Term} (hgate : ∀ t ∈ gate, t.Below m.numVars) {i j : SlotId}
    {allowed : Qualifier → Qualifier → Bool} :
    ∀ c ∈ s.forbid l m gate i j allowed, ∀ x ∈ c, x.var.number ≤ m.numVars := by
  intro c hc
  obtain ⟨p, -, q, -, -, ts, hts, hc⟩ := mem_forbid.mp hc
  have hbelow : ∀ t ∈ ts, t.Below m.numVars := by
    have hneg : ∀ i q, (s.hasQualifier m i q).negate.Below m.numVars :=
      fun i q => (hasQualifier_below i q).negate
    unfold excluding at hts
    split at hts
    · cases hts
      simp [hneg]
    · split at hts
      · cases hts
        simp [hneg]
      · cases hts
  exact Term.clause?_below (List.forall_mem_append.mpr ⟨hgate, hbelow⟩) hc

mutual

theorem clauses_below (gate : List Term) (hgate : ∀ t ∈ gate, t.Below m.numVars) :
    (c : Constraint SlotId) →
    ∀ clause ∈ s.clauses l m gate c, ∀ x ∈ clause, x.var.number ≤ m.numVars
  | .subtype _ _ | .equality _ _ | .inequality _ _ | .comparable _ _ => forbid_below hgate
  | .preference _ _ _ => nofun
  | .existential i q thens otherwise => by
    rw [clauses, List.forall_mem_append]
    exact ⟨clausesOf_below _
      (by simpa [or_imp, forall_and] using ⟨hgate, (hasQualifier_below i q).negate⟩) thens,
      clausesOf_below _ (by simpa [or_imp, forall_and] using ⟨hgate, hasQualifier_below i q⟩)
        otherwise⟩

theorem clausesOf_below (gate : List Term) (hgate : ∀ t ∈ gate, t.Below m.numVars) :
    (cs : List (Constraint SlotId)) →
    ∀ clause ∈ s.clausesOf l m gate cs, ∀ x ∈ clause, x.var.number ≤ m.numVars
  | [] => nofun
  | c :: cs =>
    List.forall_mem_append.mpr ⟨clauses_below gate hgate c, clausesOf_below gate hgate cs⟩

end

theorem atMostOne_below {n : Nat} {lits : Clause} (h : ∀ x ∈ lits, x.var.number ≤ n) :
    ∀ c ∈ atMostOne lits, ∀ x ∈ c, x.var.number ≤ n := by
  induction lits with
  | nil => nofun
  | cons y rest ih =>
    obtain ⟨hy, hrest⟩ := List.forall_mem_cons.mp h
    rw [atMostOne, List.forall_mem_append]
    refine ⟨List.forall_mem_map.mpr fun z hz => ?_, ih hrest⟩
    simp [hy, hrest z hz]

theorem exactlyOne_below (i : SlotId) :
    ∀ c ∈ exactlyOne l m i, ∀ x ∈ c, x.var.number ≤ m.numVars := by
  have hlits : ∀ x ∈ l.qualifiers.filterMap (m.lit? i), x.var.number ≤ m.numVars := by
    intro x hx
    obtain ⟨q, -, hq⟩ := List.mem_filterMap.mp hx
    exact VarMap.lit?_bounded hq
  exact List.forall_mem_cons.mpr ⟨hlits, atMostOne_below hlits⟩

namespace Encodes

variable {weighted : Bool} {e : Encoding}

theorem hard_below (he : s.Encodes l weighted e) :
    ∀ x ∈ e.hard, ∀ y ∈ x.2, y.var.number ≤ e.vars.numVars := by
  rw [he.hard, List.forall_mem_append]
  constructor
  · intro x hx
    obtain ⟨i, -, hx⟩ := List.mem_flatMap.mp hx
    obtain ⟨clause, hclause, rfl⟩ := List.mem_map.mp hx
    exact exactlyOne_below i clause hclause
  · intro x hx
    obtain ⟨id, c, -, -, hclause⟩ := mem_constraintClauses.mp hx
    exact clauses_below [] nofun c x.2 hclause

theorem bounded (he : s.Encodes l weighted e) : e.cnf.Bounded := by
  refine ⟨fun c hc => ?_, fun soft hsoft => ?_⟩
  · obtain ⟨x, hx, rfl⟩ := List.mem_map.mp (List.mem_toArray.mp hc)
    exact he.hard_below x hx
  · have hmem := List.mem_toArray.mp hsoft
    rw [he.soft] at hmem
    split at hmem
    · obtain ⟨⟨_, c⟩, -, hc⟩ := List.mem_filterMap.mp hmem
      cases c with
      | preference i q w =>
        obtain ⟨x, hx, rfl⟩ := Option.map_eq_some_iff.mp hc
        exact List.forall_mem_singleton.mpr (VarMap.lit?_bounded hx)
      | _ => cases hc
    · cases hmem

theorem restrictedTo_bounded (he : s.Encodes l weighted e) (ids : List ConstraintId) :
    (e.restrictedTo ids).Bounded := by
  have hmem : ∀ c ∈ (e.restrictedTo ids).hard, ∃ x ∈ e.hard, x.2 = c := by
    intro c hc
    rcases List.mem_append.mp (List.mem_toArray.mp hc) with hc | hc
    all_goals
      obtain ⟨⟨origin, clause⟩, hx, hpick⟩ := List.mem_filterMap.mp hc
      refine ⟨_, hx, ?_⟩
      cases origin <;> simp_all
  refine ⟨fun c hc => ?_, nofun⟩
  obtain ⟨x, hx, rfl⟩ := hmem c hc
  exact he.hard_below x hx

end Encodes

end ConstraintStore

end Qualify
