import Qualify.Proofs.Constraint.Order

namespace Qualify

/-- A map into an equivalence that identifies related elements identifies what they generate. -/
theorem eqvGen_lift {α β : Type} {r : α → α → Prop} {t : β → β → Prop} (ht : Equivalence t)
    (f : α → β) (h : ∀ a b, r a b → t (f a) (f b)) {a b : α} (hab : Relation.EqvGen r a b) :
    t (f a) (f b) :=
  (ht.comap f).eqvGen_iff.mp (Relation.EqvGen.mono h a b hab)

namespace Constraint

variable {σ : Type}

mutual

/-- One change that the canonical form does not see. -/
inductive Change : Constraint σ → Constraint σ → Prop where
  | equality (a b : σ) : Change (equality a b) (equality b a)
  | inequality (a b : σ) : Change (inequality a b) (inequality b a)
  | comparable (a b : σ) : Change (comparable a b) (comparable b a)
  | thens (s : σ) (q : Qualifier) {cs cs' : List (Constraint σ)} (otherwise : List (Constraint σ))
    (h : ListChange cs cs') : Change (existential s q cs otherwise) (existential s q cs' otherwise)
  | otherwise (s : σ) (q : Qualifier) (thens : List (Constraint σ)) {cs cs' : List (Constraint σ)}
    (h : ListChange cs cs') : Change (existential s q thens cs) (existential s q thens cs')

/-- The same for a list whose members all have to hold: neighbours trade places, a member comes
twice, or a member changes. -/
inductive ListChange : List (Constraint σ) → List (Constraint σ) → Prop where
  | swap (c c' : Constraint σ) (cs : List (Constraint σ)) : ListChange (c :: c' :: cs)
    (c' :: c :: cs)
  | double (c : Constraint σ) (cs : List (Constraint σ)) : ListChange (c :: cs) (c :: c :: cs)
  | head {c c' : Constraint σ} (h : Change c c') (cs : List (Constraint σ)) :
    ListChange (c :: cs) (c' :: cs)
  | tail (c : Constraint σ) {cs cs' : List (Constraint σ)} (h : ListChange cs cs') :
    ListChange (c :: cs) (c :: cs')

end

/-- The two differ by such changes only, made or undone. -/
def Rearranges : Constraint σ → Constraint σ → Prop := Relation.EqvGen Change

def ListRearranges : List (Constraint σ) → List (Constraint σ) → Prop := Relation.EqvGen ListChange

theorem rearranges_equivalence : Equivalence (Rearranges (σ := σ)) :=
  Relation.EqvGen.is_equivalence _

theorem listRearranges_equivalence : Equivalence (ListRearranges (σ := σ)) :=
  Relation.EqvGen.is_equivalence _

section Congruence

theorem Rearranges.head {c c' : Constraint σ} (h : c.Rearranges c') (cs : List (Constraint σ)) :
    ListRearranges (c :: cs) (c' :: cs) :=
  eqvGen_lift listRearranges_equivalence (· :: cs) (fun _ _ h => .rel _ _ (.head h cs)) h

variable {cs cs' cs'' : List (Constraint σ)}

namespace ListRearranges

theorem refl (cs : List (Constraint σ)) : ListRearranges cs cs := listRearranges_equivalence.refl cs

theorem symm (h : ListRearranges cs cs') : ListRearranges cs' cs :=
  listRearranges_equivalence.symm h

theorem trans (h : ListRearranges cs cs') (h' : ListRearranges cs' cs'') : ListRearranges cs cs'' :=
  listRearranges_equivalence.trans h h'

theorem tail (c : Constraint σ) (h : ListRearranges cs cs') : ListRearranges (c :: cs) (c :: cs') :=
  eqvGen_lift listRearranges_equivalence (c :: ·) (fun _ _ h => .rel _ _ (.tail c h)) h

theorem existential {thens thens' otherwise otherwise' : List (Constraint σ)} (s : σ)
    (q : Qualifier) (h : ListRearranges thens thens') (h' : ListRearranges otherwise otherwise') :
    (existential s q thens otherwise).Rearranges (existential s q thens' otherwise') :=
  rearranges_equivalence.trans
    (eqvGen_lift rearranges_equivalence (.existential s q · otherwise)
      (fun _ _ h => .rel _ _ (.thens s q _ h)) h)
    (eqvGen_lift rearranges_equivalence (.existential s q thens')
      (fun _ _ h => .rel _ _ (.otherwise s q _ h)) h')

end ListRearranges

end Congruence

section Members

variable {cs cs' : List (Constraint σ)}

theorem listRearranges_of_perm (h : cs.Perm cs') : ListRearranges cs cs' := by
  induction h with
  | nil => exact .refl []
  | cons c _ ih => exact ih.tail c
  | swap c c' cs => exact .rel _ _ (.swap c' c cs)
  | trans _ _ ih ih' => exact ih.trans ih'

/-- A member may come once more. -/
theorem listRearranges_cons {c : Constraint σ} (hc : c ∈ cs) : ListRearranges cs (c :: cs) := by
  induction cs with
  | nil => cases hc
  | cons c' cs ih =>
    rcases List.mem_cons.mp hc with rfl | hc
    · exact .rel _ _ (.double c cs)
    · exact ((ih hc).tail c').trans (.rel _ _ (.swap c' c cs))

theorem listRearranges_append (h : cs' ⊆ cs) : ListRearranges cs (cs' ++ cs) := by
  induction cs' with
  | nil => exact .refl cs
  | cons c cs' ih =>
    obtain ⟨hc, hcs'⟩ := List.cons_subset.mp h
    exact (ih hcs').trans (listRearranges_cons (List.mem_append_right cs' hc))

/-- Only the members of a list matter. -/
theorem listRearranges_of_mem_iff (h : ∀ c, c ∈ cs ↔ c ∈ cs') : ListRearranges cs cs' := by
  have hleft := listRearranges_append fun c => (h c).mpr
  have hright := listRearranges_append fun c => (h c).mp
  exact hleft.trans ((listRearranges_of_perm List.perm_append_comm).trans hright.symm)

end Members

section Canonical

mutual

theorem Change.canonical_eq {c c' : Constraint SlotId} : Change c c' → c.canonical = c'.canonical
  | .equality a b | .inequality a b | .comparable a b => ordered_comm _ a b
  | .thens s q otherwise h => by rw [canonical, canonical, tidy_congr h.mem_canonicalList]
  | .otherwise s q thens h => by rw [canonical, canonical, tidy_congr h.mem_canonicalList]

theorem ListChange.mem_canonicalList {cs cs' : List (Constraint SlotId)} :
    ListChange cs cs' → ∀ c, c ∈ canonicalList cs ↔ c ∈ canonicalList cs'
  | .swap c c' cs => fun x => by simp [canonicalList, or_left_comm]
  | .double c cs => fun x => by simp [canonicalList]
  | .head h cs => fun x => by rw [canonicalList, canonicalList, h.canonical_eq]
  | .tail c h =>
    fun x => by rw [canonicalList, canonicalList, List.mem_cons, List.mem_cons, h.mem_canonicalList]

end

theorem rearranges_ordered {make : SlotId → SlotId → Constraint SlotId}
    (hmake : ∀ a b, Change (make a b) (make b a)) (a b : SlotId) :
    (make a b).Rearranges (ordered make a b) := by
  rw [ordered]
  split_ifs
  · exact rearranges_equivalence.refl _
  · exact .rel _ _ (hmake a b)

mutual

/-- A constraint comes to its canonical form by changes that this does not see. -/
theorem rearranges_canonical : (c : Constraint SlotId) → c.Rearranges c.canonical
  | subtype _ _ | preference _ _ _ => rearranges_equivalence.refl _
  | equality a b => rearranges_ordered .equality a b
  | inequality a b => rearranges_ordered .inequality a b
  | comparable a b => rearranges_ordered .comparable a b
  | existential s q thens otherwise =>
    (listRearranges_tidy thens).existential s q (listRearranges_tidy otherwise)

theorem listRearranges_tidy (cs : List (Constraint SlotId)) :
    ListRearranges cs (tidy (canonicalList cs)) :=
  (listRearranges_canonicalList cs).trans (listRearranges_of_mem_iff fun _ => mem_tidy.symm)

theorem listRearranges_canonicalList :
    (cs : List (Constraint SlotId)) → ListRearranges cs (canonicalList cs)
  | [] => .refl []
  | c :: cs =>
    ((rearranges_canonical c).head cs).trans ((listRearranges_canonicalList cs).tail c.canonical)

end

theorem canonical_eq_iff {c c' : Constraint SlotId} :
    c.canonical = c'.canonical ↔ c.Rearranges c' := by
  constructor
  · intro h
    have hback := rearranges_equivalence.symm (rearranges_canonical c')
    exact rearranges_equivalence.trans (rearranges_canonical c) (h ▸ hback)
  · exact eqvGen_lift eq_equivalence canonical fun _ _ => Change.canonical_eq

end Canonical

section Truth

variable (l : Lattice) (v : σ → Qualifier)

mutual

/-- Where every slot has a qualifier, a constraint is true or false. -/
theorem exists_holds : (c : Constraint σ) → ∃ b, c.holds l (fun i => some (v i)) = some b
  | subtype _ _ | equality _ _ | inequality _ _ | comparable _ _ | preference _ _ _ => ⟨_, rfl⟩
  | existential s q thens otherwise => by
    simp only [holds]
    split_ifs
    · exact exists_holdsAll thens
    · exact exists_holdsAll otherwise

theorem exists_holdsAll :
    (cs : List (Constraint σ)) → ∃ b, holdsAll l (fun i => some (v i)) cs = some b
  | [] => ⟨true, rfl⟩
  | c :: cs => by
    obtain ⟨b, hb⟩ := exists_holds c
    rw [holdsAll, hb]
    cases b with
    | true => exact exists_holdsAll cs
    | false => exact ⟨false, rfl⟩

end

mutual

theorem Change.holds_eq {c c' : Constraint σ} :
    Change c c' → c.holds l (fun i => some (v i)) = c'.holds l fun i => some (v i)
  | .equality a b => by simp [holds, eq_comm]
  | .inequality a b => by simp [holds, eq_comm]
  | .comparable a b => by simp [holds, Lattice.isComparable, Bool.or_comm]
  | .thens s q otherwise h => by rw [holds, holds, h.holdsAll_eq]
  | .otherwise s q thens h => by rw [holds, holds, h.holdsAll_eq]

theorem ListChange.holdsAll_eq {cs cs' : List (Constraint σ)} :
    ListChange cs cs' → holdsAll l (fun i => some (v i)) cs = holdsAll l (fun i => some (v i)) cs'
  | .swap c c' cs => by
    obtain ⟨b, hb⟩ := exists_holds l v c
    obtain ⟨b', hb'⟩ := exists_holds l v c'
    cases b <;> cases b' <;> simp [holdsAll, hb, hb']
  | .double c cs => by
    obtain ⟨b, hb⟩ := exists_holds l v c
    cases b <;> simp [holdsAll, hb]
  | .head h cs => by rw [holdsAll, holdsAll, h.holds_eq]
  | .tail c h => by rw [holdsAll, holdsAll, h.holdsAll_eq]

end

theorem Rearranges.holds_eq {c c' : Constraint σ} (h : c.Rearranges c') :
    c.holds l (fun i => some (v i)) = c'.holds l fun i => some (v i) :=
  eqvGen_lift eq_equivalence (holds l fun i => some (v i)) (fun _ _ => Change.holds_eq l v) h

end Truth

/-- The canonical form is a normal form of constraints up to rearrangement. It is its own canonical
form, it mentions the same slots, and wherever all slots have qualifiers it holds if the constraint
does. A constraint may be renumbered before or after it is brought into canonical form. -/
theorem canonical_normalForm (c c' : Constraint SlotId) (f : SlotId → SlotId) (l : Lattice)
    (v : SlotId → Qualifier) :
    c.canonical.canonical = c.canonical ∧ (c.canonical.map f).canonical = (c.map f).canonical ∧
      (∀ i, i ∈ c.canonical.slots ↔ i ∈ c.slots) ∧
      c.canonical.holds l (fun i => some (v i)) = c.holds l (fun i => some (v i)) ∧
      (c.canonical = c'.canonical ↔ c.Rearranges c') := by
  refine ⟨canonical_canonical c, canonical_map_canonical f c, fun i => mem_slots_canonical i c, ?_,
    canonical_eq_iff⟩
  exact ((rearranges_canonical c).holds_eq l v).symm

/-- Renumbering exchanges the operands of one equality, and then the two are one. -/
example :
    let c : Constraint SlotId := .existential ⟨4⟩ ⟨0⟩ [.equality ⟨2⟩ ⟨1⟩, .equality ⟨1⟩ ⟨4⟩] []
    (c.map fun i => ⟨i.index % 2⟩).canonical = .existential ⟨0⟩ ⟨0⟩ [.equality ⟨0⟩ ⟨1⟩] [] := by
  cbv

end Constraint

end Qualify
