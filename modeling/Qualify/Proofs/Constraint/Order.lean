import Qualify.Proofs.Constraint

namespace Qualify

namespace Constraint

section Order

mutual

/-- The parts of a constraint in order of comparison, spelt so that no word begins another one. -/
def word : Constraint SlotId → List Nat
  | subtype a b => [0, a.index, b.index]
  | equality a b => [1, a.index, b.index]
  | inequality a b => [2, a.index, b.index]
  | comparable a b => [3, a.index, b.index]
  | preference s q w => [4, s.index, q.index, w.toNat]
  | existential s q thens otherwise => 5 :: s.index :: q.index :: (wordOf thens ++ wordOf otherwise)

def wordOf : List (Constraint SlotId) → List Nat
  | [] => [0]
  | c :: cs => 1 :: (word c ++ wordOf cs)

end

abbrev compareWords : List Nat → List Nat → Ordering := List.compareLex compare

mutual

theorem compareWords_word (r r' : List Nat) : (c c' : Constraint SlotId) →
    compareWords (word c ++ r) (word c' ++ r') = (cmp c c').then (compareWords r r')
  | existential s q thens otherwise, existential s' q' thens' otherwise' => by
    simp only [word, cmp, compareSlots, List.cons_append, List.append_assoc,
      List.compareLex_cons_cons, compareWords_wordOf _ _ thens thens',
      compareWords_wordOf _ _ otherwise otherwise', Ordering.then_assoc]
    rfl
  | subtype _ _, c' | equality _ _, c' | inequality _ _, c' | comparable _ _, c'
  | preference _ _ _, c' => by
    cases c' <;>
      simp only [word, cmp, comparePairs, compareSlots, List.cons_append, List.nil_append,
        List.compareLex_cons_cons, Ordering.then_assoc] <;>
      rfl
  | existential _ _ _ _, subtype _ _ | existential _ _ _ _, equality _ _
  | existential _ _ _ _, inequality _ _ | existential _ _ _ _, comparable _ _
  | existential _ _ _ _, preference _ _ _ => rfl

theorem compareWords_wordOf (r r' : List Nat) : (cs cs' : List (Constraint SlotId)) →
    compareWords (wordOf cs ++ r) (wordOf cs' ++ r') = (cmpList cs cs').then (compareWords r r')
  | [], [] | [], _ :: _ | _ :: _, [] => rfl
  | c :: cs, c' :: cs' => by
    simp only [wordOf, cmpList, List.cons_append, List.append_assoc, List.compareLex_cons_cons,
      compareWords_word _ _ c c', compareWords_wordOf _ _ cs cs', Ordering.then_assoc]
    rfl

end

theorem cmp_eq_compareWords (c c' : Constraint SlotId) :
    cmp c c' = compareWords (word c) (word c') := by
  have h := compareWords_word [] [] c c'
  rw [List.append_nil, List.append_nil] at h
  exact (h.trans Ordering.then_eq).symm

instance : Std.TransCmp cmp where
  eq_swap {c c'} := by
    rw [cmp_eq_compareWords c c', cmp_eq_compareWords c' c]
    exact Std.OrientedCmp.eq_swap
  isLE_trans {c c' c''} h h' := by
    rw [cmp_eq_compareWords] at h h' ⊢
    exact Std.TransCmp.isLE_trans h h'

theorem slot_index_inj {a b : SlotId} : a.index = b.index ↔ a = b := SlotId.mk.injEq .. ▸ Iff.rfl

theorem qualifier_index_inj {p q : Qualifier} : p.index = q.index ↔ p = q :=
  Qualifier.mk.injEq .. ▸ Iff.rfl

mutual

theorem eq_of_cmp : (c c' : Constraint SlotId) → cmp c c' = .eq → c = c'
  | existential s q thens otherwise, existential s' q' thens' otherwise', h => by
    simp only [cmp, compareSlots, Ordering.then_eq_eq, Nat.compare_eq_eq, slot_index_inj,
      qualifier_index_inj] at h
    obtain ⟨rfl, rfl, hthens, hotherwise⟩ := h
    rw [eq_of_cmpList thens thens' hthens, eq_of_cmpList otherwise otherwise' hotherwise]
  | subtype _ _, c', h | equality _ _, c', h | inequality _ _, c', h | comparable _ _, c', h
  | preference _ _ _, c', h => by
    cases c' <;>
      simp_all [cmp, comparePairs, compareSlots, rank, Ordering.then_eq_eq, slot_index_inj,
        qualifier_index_inj, UInt64.toNat_inj]
  | existential _ _ _ _, subtype _ _, h | existential _ _ _ _, equality _ _, h
  | existential _ _ _ _, inequality _ _, h | existential _ _ _ _, comparable _ _, h
  | existential _ _ _ _, preference _ _ _, h => by cases h

theorem eq_of_cmpList : (cs cs' : List (Constraint SlotId)) → cmpList cs cs' = .eq → cs = cs'
  | [], [], _ => rfl
  | [], _ :: _, h | _ :: _, [], h => by cases h
  | c :: cs, c' :: cs', h => by
    rw [cmpList, Ordering.then_eq_eq] at h
    rw [eq_of_cmp c c' h.1, eq_of_cmpList cs cs' h.2]

end

theorem le_trans (a b c : Constraint SlotId) (hab : le a b = true) (hbc : le b c = true) :
    le a c = true :=
  Std.TransCmp.isLE_trans hab hbc

theorem le_total (a b : Constraint SlotId) : (le a b || le b a) = true := by
  unfold le
  rw [@Std.OrientedCmp.eq_swap _ cmp _ b a]
  cases cmp a b <;> rfl

theorem le_antisymm {a b : Constraint SlotId} (hab : le a b = true) (hba : le b a = true) : a = b :=
  eq_of_cmp a b (Std.OrientedCmp.isLE_antisymm hab hba)

end Order

theorem tidy_congr {cs cs' : List (Constraint SlotId)} (h : ∀ c, c ∈ cs ↔ c ∈ cs') :
    tidy cs = tidy cs' :=
  List.eraseReps_mergeSort_congr le_trans le_total le_antisymm h

theorem canonicalList_eq_map (cs : List (Constraint SlotId)) :
    canonicalList cs = cs.map canonical := by
  induction cs with
  | nil => rfl
  | cons c cs ih => rw [canonicalList, ih, List.map_cons]

theorem mapList_eq_map {σ τ : Type} (f : σ → τ) (cs : List (Constraint σ)) :
    mapList f cs = cs.map (map f) := by
  induction cs with
  | nil => rfl
  | cons c cs ih => rw [mapList, ih, List.map_cons]

theorem ordered_comm (make : SlotId → SlotId → Constraint SlotId) (a b : SlotId) :
    ordered make a b = ordered make b a := by
  unfold ordered
  split_ifs with hab hba hba
  · obtain rfl : a = b := congrArg SlotId.mk (Nat.le_antisymm hab hba)
    rfl
  · rfl
  · rfl
  · exact absurd (Nat.le_total a.index b.index) (by tauto)

theorem canonical_map_ordered {make : SlotId → SlotId → Constraint SlotId} {f : SlotId → SlotId}
    (hmap : ∀ a b, (make a b).map f = make (f a) (f b))
    (hmake : ∀ a b, (make a b).canonical = ordered make a b) (a b : SlotId) :
    ((ordered make a b).map f).canonical = ordered make (f a) (f b) := by
  rw [ordered]
  split_ifs
  · rw [hmap, hmake]
  · rw [hmap, hmake, ordered_comm]

mutual

theorem canonical_map_canonical (f : SlotId → SlotId) :
    (c : Constraint SlotId) → (c.canonical.map f).canonical = (c.map f).canonical
  | subtype _ _ | preference _ _ _ => rfl
  | equality a b | inequality a b | comparable a b =>
    canonical_map_ordered (fun _ _ => rfl) (fun _ _ => rfl) a b
  | existential s q thens otherwise => by
    rw [canonical, map, map, canonical, canonical, tidy_canonicalList_map f thens,
      tidy_canonicalList_map f otherwise]

theorem tidy_canonicalList_map (f : SlotId → SlotId) : (cs : List (Constraint SlotId)) →
    tidy (canonicalList (mapList f (tidy (canonicalList cs)))) =
      tidy (canonicalList (mapList f cs)) := by
  intro cs
  have h : ∀ c ∈ cs, (c.canonical.map f).canonical = (c.map f).canonical :=
    forall_canonical_map_canonical f cs
  apply tidy_congr
  intro c
  simp only [canonicalList_eq_map, mapList_eq_map, List.mem_map, mem_tidy, exists_exists_and_eq_and]
  exact exists_congr fun x => and_congr_right fun hx => by rw [h x hx]

theorem forall_canonical_map_canonical (f : SlotId → SlotId) : (cs : List (Constraint SlotId)) →
    ∀ c ∈ cs, (c.canonical.map f).canonical = (c.map f).canonical
  | [] => by simp
  | c :: cs =>
    List.forall_mem_cons.mpr ⟨canonical_map_canonical f c, forall_canonical_map_canonical f cs⟩

end

mutual

theorem map_congr {σ τ : Type} {f g : σ → τ} :
    (c : Constraint σ) → (∀ i ∈ c.slots, f i = g i) → c.map f = c.map g
  | subtype _ _, h | equality _ _, h | inequality _ _, h | comparable _ _, h
  | preference _ _ _, h => by
    simp_all [map, slots]
  | existential s q thens otherwise, h => by
    have hthens := mapList_congr thens fun i hi => h i (by simp [slots, hi])
    have hotherwise := mapList_congr otherwise fun i hi => h i (by simp [slots, hi])
    rw [map, map, h s (by simp [slots]), hthens, hotherwise]

theorem mapList_congr {σ τ : Type} {f g : σ → τ} :
    (cs : List (Constraint σ)) → (∀ i ∈ slotsOf cs, f i = g i) → mapList f cs = mapList g cs
  | [], _ => rfl
  | c :: cs, h => by
    rw [mapList, mapList, map_congr c fun i hi => h i (by simp [slotsOf, hi]),
      mapList_congr cs fun i hi => h i (by simp [slotsOf, hi])]

end

mutual

theorem map_map {σ τ υ : Type} (f : σ → τ) (g : τ → υ) :
    (c : Constraint σ) → (c.map f).map g = c.map fun i => g (f i)
  | subtype _ _ | equality _ _ | inequality _ _ | comparable _ _ | preference _ _ _ => rfl
  | existential _ _ thens otherwise => by
    rw [map, map, map, mapList_mapList f g thens, mapList_mapList f g otherwise]

theorem mapList_mapList {σ τ υ : Type} (f : σ → τ) (g : τ → υ) :
    (cs : List (Constraint σ)) → mapList g (mapList f cs) = mapList (fun i => g (f i)) cs
  | [] => rfl
  | c :: cs => by rw [mapList, mapList, mapList, map_map f g c, mapList_mapList f g cs]

end

mutual

theorem map_id {σ : Type} : (c : Constraint σ) → (c.map fun i => i) = c
  | subtype _ _ | equality _ _ | inequality _ _ | comparable _ _ | preference _ _ _ => rfl
  | existential _ _ thens otherwise => by rw [map, mapList_id thens, mapList_id otherwise]

theorem mapList_id {σ : Type} : (cs : List (Constraint σ)) → mapList (fun i => i) cs = cs
  | [] => rfl
  | c :: cs => by rw [mapList, map_id c, mapList_id cs]

end

/-- The canonical form is canonical. -/
@[simp] theorem canonical_canonical (c : Constraint SlotId) :
    c.canonical.canonical = c.canonical := by
  have h := canonical_map_canonical (fun i => i) c
  rwa [map_id, map_id] at h

end Constraint

end Qualify
