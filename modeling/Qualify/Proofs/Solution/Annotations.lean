import Qualify.Proofs.Solution
import Qualify.Proofs.Store.Invariant

namespace Qualify

namespace Location

/-- Two texts around a colon, written one after the other. Where the colon was cannot be seen if
there is another. -/
theorem append_colon_eq_iff (u p u' p' : String) :
    u ++ ":" ++ p = u' ++ ":" ++ p' ↔ u = u' ∧ p = p' ∨
      (∃ part, u' = u ++ ":" ++ part ∧ p = part ++ ":" ++ p') ∨
      ∃ part, u = u' ++ ":" ++ part ∧ p' = part ++ ":" ++ p := by
  have hsplit (u p u' p' : String) (front : List Char) (hu : u'.toList = u.toList ++ front)
      (hp : ':' :: p.toList = front ++ ':' :: p'.toList) :
      u = u' ∧ p = p' ∨ ∃ part, u' = u ++ ":" ++ part ∧ p = part ++ ":" ++ p' := by
    cases front with
    | nil =>
      left
      simp only [List.append_nil, List.nil_append, List.cons.injEq, true_and] at hu hp
      exact ⟨String.toList_inj.mp hu.symm, String.toList_inj.mp hp⟩
    | cons a part =>
      right
      rw [List.cons_append, List.cons.injEq] at hp
      obtain ⟨rfl, hp⟩ := hp
      refine ⟨String.ofList part, String.toList_inj.mp ?_, String.toList_inj.mp ?_⟩
      · simp [hu]
      · simp [hp]
  constructor
  · intro h
    have hlists : u.toList ++ ':' :: p.toList = u'.toList ++ ':' :: p'.toList := by
      simpa using congrArg String.toList h
    rcases List.append_eq_append_iff.mp hlists with ⟨front, hu, hp⟩ | ⟨front, hu, hp⟩
    · exact (hsplit u p u' p' front hu hp).imp_right .inl
    · rcases hsplit u' p' u p front hu hp with ⟨rfl, rfl⟩ | hshift
      · exact .inl ⟨rfl, rfl⟩
      · exact .inr (.inr hshift)
  · rintro (⟨rfl, rfl⟩ | ⟨part, rfl, rfl⟩ | ⟨part, rfl, rfl⟩)
    · rfl
    · simp only [String.append_assoc]
    · simp only [String.append_assoc]

end Location

namespace SlotKind

theorem colon_notMem_text (kind : SlotKind) : ':' ∉ kind.text.toList := by cases kind <;> decide

theorem ofText?_text (kind : SlotKind) : ofText? kind.text = some kind := by cases kind <;> decide

theorem text_inj {a b : SlotKind} : a.text = b.text ↔ a = b := by
  refine ⟨fun h => Option.some.inj ?_, congrArg text⟩
  rw [← ofText?_text a, h, ofText?_text]

end SlotKind

namespace Location

/-- The end of the second unit is the start of the first position. -/
def Shifts (a b : Location) : Prop :=
  a.kind = b.kind ∧ ∃ part, b.unit = a.unit ++ ":" ++ part ∧ a.position = part ++ ":" ++ b.position

/-- Different locations have the same key exactly if a part of the text belongs to the position of
one and to the unit of the other. -/
theorem key_eq_iff {a b : Location} : a.key = b.key ↔ a = b ∨ a.Shifts b ∨ b.Shifts a := by
  -- A kind has no colon, so the last colon is the one before it.
  have hkind (kind : SlotKind) (part rest : String) : kind.text ≠ part ++ ":" ++ rest := by
    intro h
    apply kind.colon_notMem_text
    simp [h]
  have hkey : a.key = b.key ↔ a.unit ++ ":" ++ a.position = b.unit ++ ":" ++ b.position ∧
      a.kind = b.kind := by
    rw [key, key, append_colon_eq_iff (a.unit ++ ":" ++ a.position), SlotKind.text_inj]
    simp [hkind]
  rw [hkey, append_colon_eq_iff, Shifts, Shifts]
  by_cases hab : a.kind = b.kind
  · have heq : a = b ↔ a.unit = b.unit ∧ a.position = b.position := by
      cases a
      cases b
      simp_all
    simp only [heq, hab, and_true, true_and]
  · have hne : a ≠ b := fun h => hab (congrArg kind h)
    simp [hab, Ne.symm hab, hne]

theorem not_shifts_self (a : Location) : ¬a.Shifts a := by
  rintro ⟨-, part, hunit, -⟩
  have hlength := congrArg String.length hunit
  have hcolon : ":".length = 1 := rfl
  rw [String.length_append, String.length_append] at hlength
  omega

theorem not_shifts {a b : Location} (h : ':' ∉ b.unit.toList) : ¬a.Shifts b := by
  rintro ⟨-, part, hunit, -⟩
  simp [hunit] at h

end Location

namespace Solution

variable {solution : Solution} {s : ConstraintStore} {l : Lattice}

theorem lookup_enter (key text k : String) (as : List (String × String)) :
    (enter key text as).lookup k = if k = key then some text else as.lookup k := by
  induction as with
  | nil => simp [enter, List.lookup_cons_eq_ite]
  | cons a as ih =>
    obtain ⟨k', t⟩ := a
    simp only [enter]
    split_ifs with hk hlt <;> simp only [List.lookup_cons_eq_ite, ih] <;> grind

theorem mem_keys_enter {key text k : String} {as : List (String × String)} :
    k ∈ (enter key text as).map (·.1) ↔ k = key ∨ k ∈ as.map (·.1) := by
  induction as with
  | nil => simp [enter]
  | cons a as ih =>
    obtain ⟨k', t⟩ := a
    simp only [enter]
    split_ifs with hk hlt
    · simp [hk]
    · simp
    · rw [List.map_cons, List.mem_cons, ih, List.map_cons, List.mem_cons]
      tauto

theorem pairwise_enter (key text : String) {as : List (String × String)}
    (h : (as.map (·.1)).Pairwise (· < ·)) :
    ((enter key text as).map (·.1)).Pairwise (· < ·) := by
  induction as with
  | nil => exact List.pairwise_singleton _ _
  | cons a as ih =>
    obtain ⟨k, t⟩ := a
    obtain ⟨hk, has⟩ := List.pairwise_cons.mp h
    simp only [enter]
    split_ifs with heq hlt
    · exact heq ▸ h
    · refine List.pairwise_cons.mpr
        ⟨List.forall_mem_cons.mpr ⟨hlt, fun k' hk' => hlt.trans (hk k' hk')⟩, h⟩
    · refine List.pairwise_cons.mpr ⟨fun k' hk' => ?_, ih has⟩
      obtain rfl | hk' := mem_keys_enter.mp hk'
      · exact lt_of_le_of_ne (le_of_not_gt hlt) heq
      · exact hk k' hk'

/-- What is entered one after the other: each key has its last text. -/
theorem foldl_enter (ws as : List (String × String)) :
    (∀ k, (ws.foldl (fun as w => enter w.1 w.2 as) as).lookup k = (ws.reverse ++ as).lookup k) ∧
      ((as.map (·.1)).Pairwise (· < ·) →
        ((ws.foldl (fun as w => enter w.1 w.2 as) as).map (·.1)).Pairwise (· < ·)) := by
  induction ws generalizing as with
  | nil => exact ⟨fun _ => rfl, id⟩
  | cons w ws ih =>
    obtain ⟨hlookup, hordered⟩ := ih (enter w.1 w.2 as)
    refine ⟨fun k => ?_, fun h => hordered (pairwise_enter w.1 w.2 h)⟩
    rw [List.foldl_cons, hlookup, List.reverse_cons, List.append_assoc, List.lookup_append,
      List.lookup_append, lookup_enter, List.singleton_append, List.lookup_cons_eq_ite]

/-- The slot is solved, and an annotation can be written at it. -/
structure Annotates (solution : Solution) (s : ConstraintStore) (v : SlotId × Qualifier)
    (x : Slot) : Prop where
  solved : v ∈ solution.values
  slot : s.slot? v.1 = some x
  insertable : x.location.kind.insertable = true

/-- No text of a location can be read as that of another. -/
def Unambiguous (solution : Solution) (s : ConstraintStore) : Prop :=
  ∀ v x w y, solution.Annotates s v x → solution.Annotates s w y → ¬x.location.Shifts y.location

def insertion? (s : ConstraintStore) (l : Lattice) (v : SlotId × Qualifier) :
    Option (Location × String) :=
  ((s.slot? v.1).filter (·.location.kind.insertable)).map fun x => (x.location, l.nameOf v.2)

theorem insertion?_eq_some {v : SlotId × Qualifier} {w : Location × String} :
    insertion? s l v = some w ↔ ∃ x, s.slot? v.1 = some x ∧ x.location.kind.insertable = true ∧
      w = (x.location, l.nameOf v.2) := by
  simp only [insertion?, Option.map_eq_some_iff, Option.filter_eq_some_iff, and_assoc]
  exact exists_congr fun x => and_congr_right' (and_congr_right' eq_comm)

theorem insertions_eq : solution.insertions s l = solution.values.filterMap (insertion? s l) := by
  refine List.filterMap_congr fun v _ => ?_
  cases hslot : s.slot? v.1 with
  | none => simp [insertion?, hslot]
  | some x =>
    cases hinsertable : x.location.kind.insertable <;>
      simp [insertion?, hslot, hinsertable, Option.filter]

theorem mem_insertions {w : Location × String} : w ∈ solution.insertions s l ↔
    ∃ v x, solution.Annotates s v x ∧ w = (x.location, l.nameOf v.2) := by
  simp only [insertions_eq, List.mem_filterMap, insertion?_eq_some]
  constructor
  · rintro ⟨v, hv, x, hx, hinsertable, hw⟩
    exact ⟨v, x, ⟨hv, hx, hinsertable⟩, hw⟩
  · rintro ⟨v, x, ⟨hv, hx, hinsertable⟩, hw⟩
    exact ⟨v, hv, x, hx, hinsertable, hw⟩

theorem length_insertions : (solution.insertions s l).length =
    solution.values.countP fun v => (s.slot? v.1).any (·.location.kind.insertable) := by
  rw [insertions_eq, List.length_filterMap_eq_countP]
  refine List.countP_congr fun v _ => ?_
  cases hslot : s.slot? v.1 with
  | none => simp [insertion?, hslot]
  | some x => simp [insertion?, hslot, Option.filter]

def written (solution : Solution) (s : ConstraintStore) (l : Lattice) : List (String × String) :=
  (solution.insertions s l).map fun w => (w.1.key, w.2)

theorem written_eq : solution.written s l =
    solution.values.filterMap fun v => (insertion? s l v).map fun w => (w.1.key, w.2) := by
  rw [written, insertions_eq, List.map_filterMap]

theorem annotations_eq_foldl :
    solution.annotations s l = (solution.written s l).foldl (fun as w => enter w.1 w.2 as) [] := by
  rw [annotations, written, List.foldl_map]

theorem lookup_annotations (key : String) :
    (solution.annotations s l).lookup key = (solution.written s l).reverse.lookup key := by
  rw [annotations_eq_foldl, (foldl_enter _ _).1, List.append_nil]

theorem pairwise_annotations : ((solution.annotations s l).map (·.1)).Pairwise (· < ·) := by
  rw [annotations_eq_foldl]
  exact (foldl_enter _ _).2 List.Pairwise.nil

theorem nodup_keys_annotations : ((solution.annotations s l).map (·.1)).Nodup :=
  pairwise_annotations.imp ne_of_lt

/-- An entry is that of the last solved slot of its key. -/
theorem mem_annotations {key name : String} : (key, name) ∈ solution.annotations s l ↔
    ∃ before v after x, solution.values = before ++ v :: after ∧ solution.Annotates s v x ∧
      x.location.key = key ∧ l.nameOf v.2 = name ∧
      ∀ w ∈ after, ∀ y, solution.Annotates s w y → y.location.key ≠ key := by
  rw [List.mem_iff_lookup nodup_keys_annotations, lookup_annotations, written_eq,
    ← List.filterMap_reverse, List.lookup_filterMap_eq_some]
  constructor
  · rintro ⟨after, v, before, hvalues, hv, hlater⟩
    rw [List.reverse_eq_append_iff, List.reverse_cons, List.append_assoc] at hvalues
    obtain ⟨w, hw, heq⟩ := Option.map_eq_some_iff.mp hv
    obtain ⟨x, hx, hinsertable, rfl⟩ := insertion?_eq_some.mp hw
    obtain ⟨rfl, rfl⟩ := Prod.mk.inj heq
    have hsolved : v ∈ solution.values := by simp [hvalues]
    refine ⟨before.reverse, v, after.reverse, x, hvalues, ⟨hsolved, hx, hinsertable⟩, rfl, rfl,
      fun w hw y hy => hlater w (List.mem_reverse.mp hw) (y.location.key, l.nameOf w.2) ?_⟩
    exact Option.map_eq_some_iff.mpr
      ⟨_, insertion?_eq_some.mpr ⟨y, hy.slot, hy.insertable, rfl⟩, rfl⟩
  · rintro ⟨before, v, after, x, hvalues, hx, rfl, rfl, hlater⟩
    refine ⟨after.reverse, v, before.reverse, by simp [hvalues], Option.map_eq_some_iff.mpr
      ⟨_, insertion?_eq_some.mpr ⟨x, hx.slot, hx.insertable, rfl⟩, rfl⟩, fun w hw p hp => ?_⟩
    obtain ⟨_, hw', rfl⟩ := Option.map_eq_some_iff.mp hp
    obtain ⟨y, hy, hinsertable, rfl⟩ := insertion?_eq_some.mp hw'
    have hsolved : w ∈ solution.values := by simp [hvalues, List.mem_reverse.mp hw]
    exact hlater w (List.mem_reverse.mp hw) y ⟨hsolved, hy, hinsertable⟩

theorem annotations_perm (h : ((solution.written s l).map (·.1)).Nodup) :
    (solution.annotations s l).Perm (solution.written s l) := by
  rw [List.perm_ext_iff_of_nodup (.of_map _ nodup_keys_annotations) (.of_map _ h)]
  rintro ⟨key, text⟩
  have hreverse : ((solution.written s l).reverse.map (·.1)).Nodup := by
    rwa [List.map_reverse, List.nodup_reverse]
  rw [List.mem_iff_lookup nodup_keys_annotations, lookup_annotations,
    ← List.mem_iff_lookup hreverse, List.mem_reverse]

theorem mem_keys_annotations {key : String} :
    key ∈ (solution.annotations s l).map (·.1) ↔ key ∈ (solution.written s l).map (·.1) := by
  have hsome (as : List (String × String)) :
      key ∈ as.map (·.1) ↔ (as.lookup key).isSome = true := by
    rw [List.lookup_isSome_iff, List.mem_map]
    exact exists_congr fun a => and_congr_right' (by rw [beq_iff_eq, eq_comm])
  rw [hsome, lookup_annotations, ← hsome, List.map_reverse, List.mem_reverse]

/-- There are as many annotations as keys. -/
theorem length_annotations :
    (solution.annotations s l).length = ((solution.written s l).map (·.1)).dedup.length := by
  have hperm : ((solution.annotations s l).map (·.1)).Perm
      ((solution.written s l).map (·.1)).dedup :=
    (List.perm_ext_iff_of_nodup nodup_keys_annotations (List.nodup_dedup _)).mpr fun key => by
      rw [mem_keys_annotations, List.mem_dedup]
  rw [← hperm.length_eq, List.length_map]

theorem length_keys_written :
    ((solution.written s l).map (·.1)).length = (solution.insertions s l).length := by
  simp [written]

theorem length_annotations_le :
    (solution.annotations s l).length ≤ (solution.insertions s l).length := by
  rw [length_annotations, ← length_keys_written]
  exact (List.dedup_sublist _).length_le

theorem length_annotations_eq_iff :
    (solution.annotations s l).length = (solution.insertions s l).length ↔
      ((solution.written s l).map (·.1)).Nodup := by
  rw [length_annotations, ← length_keys_written, ← List.dedup_eq_self]
  exact ⟨(List.dedup_sublist _).eq_of_length, congrArg _⟩

/-- The slots of a store are at different locations. -/
theorem nodup_insertions (hs : s.slots.Distinct) (hsolution : (solution.values.map (·.1)).Nodup) :
    ((solution.insertions s l).map (·.1)).Nodup := by
  have hplace {v : SlotId × Qualifier} {location : Location}
      (hv : (insertion? s l v).map (·.1) = some location) : s.slots.lookup location = some v.1 := by
    obtain ⟨_, hw, rfl⟩ := Option.map_eq_some_iff.mp hv
    obtain ⟨x, hx, -, rfl⟩ := insertion?_eq_some.mp hw
    exact hs.lookup_iff.mpr ⟨x, hx, rfl⟩
  rw [insertions_eq, List.map_filterMap]
  rw [List.nodup_iff_pairwise_ne, List.pairwise_map] at hsolution
  refine List.Pairwise.filterMap _ (fun v w hne location hv location' hw heq => ?_) hsolution
  subst heq
  exact hne (Option.some.inj ((hplace hv).symm.trans (hplace hw)))

theorem nodup_written_iff (hs : s.slots.Distinct)
    (hsolution : (solution.values.map (·.1)).Nodup) :
    ((solution.written s l).map (·.1)).Nodup ↔ solution.Unambiguous s := by
  have hlocations := nodup_insertions (l := l) hs hsolution
  have hkeys : (solution.written s l).map (·.1) =
      ((solution.insertions s l).map (·.1)).map Location.key := by
    simp [written]
  rw [hkeys, List.nodup_map_iff_inj_on hlocations]
  simp only [List.forall_mem_map, Location.key_eq_iff]
  constructor
  · intro h v x w y hx hy hshifts
    have heq : x.location = y.location := h _ (mem_insertions.mpr ⟨v, x, hx, rfl⟩) _
      (mem_insertions.mpr ⟨w, y, hy, rfl⟩) (.inr (.inl hshifts))
    exact y.location.not_shifts_self (heq ▸ hshifts)
  · intro h a ha b hb hkey
    obtain ⟨v, x, hx, rfl⟩ := mem_insertions.mp ha
    obtain ⟨w, y, hy, rfl⟩ := mem_insertions.mp hb
    exact hkey.resolve_right (not_or.mpr ⟨h v x w y hx hy, h w y v x hy hx⟩)

/-- The annotations of a solution are a map in order of keys, in which a key has the name of the
last solved slot that has the key, among the slots at which an annotation can be written. There is
one entry for each of these slots, with the name of its own qualifier, exactly if no two of them
have a text in which a part of one position is the end of the other unit; and else there are fewer
entries than annotations written. In particular nothing is lost as long as the names of units have
no colon. -/
theorem annotations_complete_iff (rs : List ConstraintStore.Request) (l : Lattice)
    (solution : Solution) (hsolution :
      (solution.values.map (·.1)).Sublist (ConstraintStore.afterAll {} rs).variableSlots) :
    let s := ConstraintStore.afterAll {} rs
    let count := solution.values.countP fun v => (s.slot? v.1).any (·.location.kind.insertable)
    ((solution.annotations s l).map (·.1)).Pairwise (· < ·) ∧
      (∀ key name, (key, name) ∈ solution.annotations s l ↔
        ∃ before v after x, solution.values = before ++ v :: after ∧ solution.Annotates s v x ∧
          x.location.key = key ∧ l.nameOf v.2 = name ∧
          ∀ w ∈ after, ∀ y, solution.Annotates s w y → y.location.key ≠ key) ∧
      (solution.insertions s l).length = count ∧ (solution.annotations s l).length ≤ count ∧
      ((solution.annotations s l).length = count ↔ solution.Unambiguous s) ∧
      ((solution.annotations s l).length = count ∧ (∀ v x, solution.Annotates s v x →
        (x.location.key, l.nameOf v.2) ∈ solution.annotations s l) ↔ solution.Unambiguous s) ∧
      ((∀ v x, solution.Annotates s v x → ':' ∉ x.location.unit.toList) →
        solution.Unambiguous s) := by
  intro s count
  have hs : s.slots.Distinct := (ConstraintStore.afterAll_spec .empty rs).1.distinct
  have hwritten := nodup_written_iff (l := l) hs (s.nodup_variableSlots.sublist hsolution)
  have hcount : (solution.insertions s l).length = count := length_insertions
  have hsize := length_annotations_eq_iff.trans hwritten
  rw [hcount] at hsize
  refine ⟨pairwise_annotations, fun key name => mem_annotations, hcount,
    length_annotations_le.trans_eq hcount, hsize,
    ⟨fun h => hsize.mp h.1, fun h => ⟨hsize.mpr h, fun v x hx => ?_⟩⟩, ?_⟩
  · rw [(annotations_perm (hwritten.mpr h)).mem_iff]
    exact List.mem_map.mpr ⟨_, mem_insertions.mpr ⟨v, x, hx, rfl⟩, rfl⟩
  · exact fun hunits v x w y _ hy => Location.not_shifts (hunits w y hy)

/-- A field, and what is declared, made and merged inside of a method. The result is not inferred in
the second method. -/
def boxRequests : List ConstraintStore.Request :=
  [.internSlot ⟨"Box", "value", .field⟩ (.inferred none),
    .internSlot ⟨"Box", "put#x", .parameter⟩ (.inferred none),
    .internSlot ⟨"Box", "put#return", .result⟩ (.inferred none),
    .internSlot ⟨"Box", "put#y", .localVariable⟩ (.inferred none),
    .internSlot ⟨"Box", "put@0:1", .allocation⟩ (.inferred none),
    .internSlot ⟨"Box", "put@0#y", .merge⟩ (.inferred none),
    .internSlot ⟨"Box", "get#return", .result⟩ (.fixed ⟨1⟩)]

def boxSolution : Solution :=
  ⟨[(⟨0⟩, ⟨0⟩), (⟨1⟩, ⟨1⟩), (⟨2⟩, ⟨2⟩), (⟨3⟩, ⟨2⟩), (⟨4⟩, ⟨3⟩), (⟨5⟩, ⟨2⟩)]⟩

/-- Colons inside of positions do no harm. The merged slot is solved and has no annotation. -/
theorem annotations_complete_box :
    let annotations := boxSolution.annotations (ConstraintStore.afterAll {} boxRequests) .diamond
    (boxSolution.values.map (·.1)).Sublist (ConstraintStore.afterAll {} boxRequests).variableSlots ∧
      annotations.length = 5 ∧ ("Box:value:field", "bottom") ∈ annotations ∧
      ("Box:put#x:parameter", "left") ∈ annotations ∧
      ("Box:put#return:return", "right") ∈ annotations ∧
      ("Box:put#y:local", "right") ∈ annotations ∧
      ("Box:put@0:1:allocation", "top") ∈ annotations := by
  intro annotations
  have hslots : (boxSolution.values.map (·.1)).Sublist
      (ConstraintStore.afterAll {} boxRequests).variableSlots := by decide
  obtain ⟨-, -, -, -, -, hcomplete, hunits⟩ :=
    annotations_complete_iff boxRequests .diamond boxSolution hslots
  have hcolons : ∀ v x, boxSolution.Annotates (ConstraintStore.afterAll {} boxRequests) v x →
      ':' ∉ x.location.unit.toList := by
    intro v x hx
    have hbox : ∀ v ∈ boxSolution.values, ∀ x ∈ (ConstraintStore.afterAll {} boxRequests).slot? v.1,
        x.location.unit = "Box" := by decide
    rw [hbox v hx.solved x hx.slot]
    decide
  obtain ⟨hlength, hentries⟩ := hcomplete.mpr (hunits hcolons)
  have hcount : (boxSolution.values.countP fun v =>
      ((ConstraintStore.afterAll {} boxRequests).slot? v.1).any (·.location.kind.insertable)) =
      5 := by decide
  exact ⟨hslots, hlength.trans hcount,
    hentries (⟨0⟩, ⟨0⟩) ⟨⟨"Box", "value", .field⟩, .inferred none⟩ ⟨by decide, rfl, rfl⟩,
    hentries (⟨1⟩, ⟨1⟩) ⟨⟨"Box", "put#x", .parameter⟩, .inferred none⟩ ⟨by decide, rfl, rfl⟩,
    hentries (⟨2⟩, ⟨2⟩) ⟨⟨"Box", "put#return", .result⟩, .inferred none⟩ ⟨by decide, rfl, rfl⟩,
    hentries (⟨3⟩, ⟨2⟩) ⟨⟨"Box", "put#y", .localVariable⟩, .inferred none⟩ ⟨by decide, rfl, rfl⟩,
    hentries (⟨4⟩, ⟨3⟩) ⟨⟨"Box", "put@0:1", .allocation⟩, .inferred none⟩ ⟨by decide, rfl, rfl⟩⟩

def alikeRequests : List ConstraintStore.Request :=
  [.internSlot ⟨"A", "b:c", .field⟩ (.inferred none),
    .internSlot ⟨"A:b", "c", .field⟩ (.inferred none)]

def alikeSolution : Solution := ⟨[(⟨0⟩, ⟨0⟩), (⟨1⟩, ⟨3⟩)]⟩

/-- Both are solved and written, and one annotation is left. -/
theorem annotation_overwritten :
    alikeSolution.values.map (·.1) = (ConstraintStore.afterAll {} alikeRequests).variableSlots ∧
      alikeSolution.insertions (ConstraintStore.afterAll {} alikeRequests) .diamond =
        [(⟨"A", "b:c", .field⟩, "bottom"), (⟨"A:b", "c", .field⟩, "top")] ∧
      alikeSolution.annotations (ConstraintStore.afterAll {} alikeRequests) .diamond =
        [("A:b:c:field", "top")] :=
  ⟨by decide, by cbv, by cbv⟩

end Solution

end Qualify
