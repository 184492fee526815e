import Qualify.Constraint.Canonical
import Qualify.Proofs.Lists

namespace Qualify

namespace Constraint

variable {σ τ : Type}

mutual

def qualifiers : Constraint σ → List Qualifier
  | subtype .. | equality .. | inequality .. | comparable .. => []
  | preference _ q _ => [q]
  | existential _ q thens otherwise => q :: (qualifiersOf thens ++ qualifiersOf otherwise)

def qualifiersOf : List (Constraint σ) → List Qualifier
  | [] => []
  | c :: cs => qualifiers c ++ qualifiersOf cs

end

mutual

def inner : Constraint σ → List (Constraint σ)
  | existential _ _ thens otherwise => partsOf thens ++ partsOf otherwise
  | _ => []

def partsOf : List (Constraint σ) → List (Constraint σ)
  | [] => []
  | c :: cs => c :: (inner c ++ partsOf cs)

end

theorem mem_partsOf {c : Constraint σ} {cs : List (Constraint σ)} (h : c ∈ cs) :
    c ∈ partsOf cs := by
  induction cs with
  | nil => cases h
  | cons c' cs ih =>
    rw [partsOf]
    rcases List.mem_cons.mp h with rfl | h
    · exact List.mem_cons_self
    · exact List.mem_cons_of_mem _ (List.mem_append_right _ (ih h))

theorem inner_subset_partsOf {c : Constraint σ} {cs : List (Constraint σ)} (h : c ∈ cs) :
    c.inner ⊆ partsOf cs := by
  induction cs with
  | nil => cases h
  | cons c' cs ih =>
    intro x hx
    rw [partsOf]
    rcases List.mem_cons.mp h with rfl | h
    · exact List.mem_cons_of_mem _ (List.mem_append_left _ hx)
    · exact List.mem_cons_of_mem _ (List.mem_append_right _ (ih h hx))

theorem size_le_sizeList {c : Constraint σ} {cs : List (Constraint σ)} (h : c ∈ cs) :
    c.size ≤ sizeList cs := by
  induction cs with
  | nil => cases h
  | cons c' cs ih =>
    rw [sizeList]
    rcases List.mem_cons.mp h with rfl | h
    · exact Nat.le_add_right _ _
    · exact (ih h).trans (Nat.le_add_left _ _)

theorem mem_slotsOf {i : σ} {cs : List (Constraint σ)} :
    i ∈ slotsOf cs ↔ ∃ c ∈ cs, i ∈ c.slots := by
  induction cs with
  | nil => simp [slotsOf]
  | cons c cs ih => simp [slotsOf, ih]

mutual

theorem qualifiers_subset_of_inner {c : Constraint σ} :
    (x : Constraint σ) → c ∈ x.inner → c.qualifiers ⊆ x.qualifiers
  | existential _ _ thens otherwise, h => by
    rw [inner, List.mem_append] at h
    apply List.subset_cons_of_subset
    rcases h with h | h
    · exact List.subset_append_of_subset_left _ (qualifiers_subset_of_partsOf thens h)
    · exact List.subset_append_of_subset_right _ (qualifiers_subset_of_partsOf otherwise h)
  | subtype _ _, h | equality _ _, h | inequality _ _, h | comparable _ _, h
  | preference _ _ _, h => nomatch h

theorem qualifiers_subset_of_partsOf {c : Constraint σ} :
    (cs : List (Constraint σ)) → c ∈ partsOf cs → c.qualifiers ⊆ qualifiersOf cs
  | [], h => nomatch h
  | x :: xs, h => by
    rw [partsOf, List.mem_cons, List.mem_append] at h
    rw [qualifiersOf]
    rcases h with rfl | h | h
    · exact List.subset_append_left _ _
    · exact List.subset_append_of_subset_left _ (qualifiers_subset_of_inner x h)
    · exact List.subset_append_of_subset_right _ (qualifiers_subset_of_partsOf xs h)

end

mutual

theorem slots_map (f : σ → τ) : (c : Constraint σ) → (c.map f).slots = c.slots.map f
  | subtype _ _ | equality _ _ | inequality _ _ | comparable _ _ | preference _ _ _ => rfl
  | existential _ _ thens otherwise => by
    simp [map, slots, slotsOf_mapList f thens, slotsOf_mapList f otherwise]

theorem slotsOf_mapList (f : σ → τ) :
    (cs : List (Constraint σ)) → slotsOf (mapList f cs) = (slotsOf cs).map f
  | [] => rfl
  | c :: cs => by simp [mapList, slotsOf, slots_map f c, slotsOf_mapList f cs]

end

@[simp] theorem mem_tidy {c : Constraint SlotId} {cs : List (Constraint SlotId)} :
    c ∈ tidy cs ↔ c ∈ cs := by
  rw [tidy, List.mem_eraseReps, List.mem_mergeSort]

mutual

/-- The canonical form mentions the same slots. -/
theorem mem_slots_canonical (i : SlotId) :
    (c : Constraint SlotId) → (i ∈ c.canonical.slots ↔ i ∈ c.slots)
  | subtype _ _ | preference _ _ _ => Iff.rfl
  | equality a b | inequality a b | comparable a b => by
    rw [canonical, ordered]
    split
    · rfl
    · simp [slots, or_comm]
  | existential s q thens otherwise => by
    have hthens := mem_slotsOf_canonicalList i thens
    have hotherwise := mem_slotsOf_canonicalList i otherwise
    simp only [mem_slotsOf] at hthens hotherwise
    simp [canonical, slots, mem_slotsOf, hthens, hotherwise]

theorem mem_slotsOf_canonicalList (i : SlotId) :
    (cs : List (Constraint SlotId)) → (i ∈ slotsOf (canonicalList cs) ↔ i ∈ slotsOf cs)
  | [] => Iff.rfl
  | c :: cs => by
    simp [canonicalList, slotsOf, mem_slots_canonical i c, mem_slotsOf_canonicalList i cs]

end

theorem isSoft_iff {c : Constraint σ} : c.isSoft = true ↔ ∃ s q w, c = .preference s q w := by
  cases c <;> simp [isSoft]

theorem isSoft_map (f : σ → τ) (c : Constraint σ) : (c.map f).isSoft = c.isSoft := by
  cases c <;> rfl

theorem holds_subtype {l : Lattice} {value : σ → Option Qualifier} {a b : σ} :
    (subtype a b).holds l value = some true ↔
      ∃ p q, value a = some p ∧ value b = some q ∧ l.isSubtype p q = true := by
  cases ha : value a <;> cases hb : value b <;> simp [holds, ha, hb]

theorem holds_equality {l : Lattice} {value : σ → Option Qualifier} {a b : σ} :
    (equality a b).holds l value = some true ↔ ∃ q, value a = some q ∧ value b = some q := by
  cases ha : value a <;> cases hb : value b <;> simp [holds, ha, hb, eq_comm]

theorem holdsAll_eq_some_true {l : Lattice} {value : σ → Option Qualifier}
    {cs : List (Constraint σ)} :
    holdsAll l value cs = some true ↔ ∀ c ∈ cs, c.holds l value = some true := by
  induction cs with
  | nil => simp [holdsAll]
  | cons c cs ih =>
    rw [holdsAll, List.forall_mem_cons]
    split
    case h_1 h => simp [h, ih]
    case h_2 h => exact ⟨fun h' => absurd h' h, fun h' => absurd h'.1 h⟩

end Constraint

end Qualify
