import Qualify.Proofs.Generation.Worklist

namespace Qualify

namespace FlowStore

variable {σ : Type} {s t : FlowStore σ} {name : String}

def Ordered (s : FlowStore σ) : Prop := s.names.Pairwise (· < ·)

theorem Ordered.mem_iff (h : s.Ordered) {shape : Shape σ} :
    (name, shape) ∈ s.locals ↔ s.get? name = some shape :=
  List.mem_iff_lookup (List.Pairwise.imp ne_of_lt h)

/-- Ordered stores with the same shapes are the same. -/
theorem Ordered.ext (hs : s.Ordered) (ht : t.Ordered) (h : ∀ name, s.get? name = t.get? name) :
    s = t := by
  have hnodup {u : FlowStore σ} (hu : u.Ordered) : u.locals.Nodup :=
    List.Nodup.of_map _ (List.Pairwise.imp ne_of_lt hu)
  have hperm : s.locals.Perm t.locals := by
    rw [List.perm_ext_iff_of_nodup (hnodup hs) (hnodup ht)]
    rintro ⟨name, shape⟩
    rw [hs.mem_iff, ht.mem_iff, h]
  have heq : s.locals = t.locals := by
    refine List.Perm.eq_of_pairwise ?_ (List.pairwise_map.mp hs) (List.pairwise_map.mp ht) hperm
    intro x y _ _ hxy hyx
    exact absurd (hxy.trans hyx) (lt_irrefl _)
  cases s
  cases t
  exact congrArg mk heq

theorem mem_names_set {shape : Shape σ} {other : String} :
    other ∈ (s.set name shape).names ↔ other = name ∨ other ∈ s.names := by
  rw [mem_names, mem_names, get?_set]
  split_ifs with h <;> simp [h]

theorem Ordered.set (h : s.Ordered) (name : String) (shape : Shape σ) :
    (s.set name shape).Ordered := by
  obtain ⟨locals⟩ := s
  unfold Ordered names at h ⊢
  unfold FlowStore.set
  dsimp only at h ⊢
  induction locals with
  | nil => exact List.pairwise_singleton _ _
  | cons x locals ih =>
    obtain ⟨n, sh⟩ := x
    rw [List.map_cons, List.pairwise_cons] at h
    simp only [enter]
    split_ifs with hn hlt
    · subst hn
      exact List.pairwise_cons.mpr h
    · refine List.pairwise_cons.mpr ⟨fun other hother => ?_, List.pairwise_cons.mpr h⟩
      obtain rfl | hother := List.mem_cons.mp hother
      · exact hlt
      · exact hlt.trans (h.1 other hother)
    · refine List.pairwise_cons.mpr ⟨fun other hother => ?_, ih h.2⟩
      have hnames := mem_names_set (s := ⟨locals⟩).mp hother
      obtain rfl | hother := hnames
      · exact lt_of_le_of_ne (le_of_not_gt hlt) hn
      · exact h.1 other hother

theorem Ordered.foldl_set (entries : List (String × Shape σ)) (h : s.Ordered) :
    (entries.foldl (fun (store : FlowStore σ) (name, shape) => store.set name shape)
      s).Ordered := by
  induction entries generalizing s with
  | nil => exact h
  | cons entry entries ih => exact ih (h.set entry.1 entry.2)

/-- A name for which shapes are set has one of them. -/
theorem get?_foldl_set_of_mem {entries : List (String × Shape σ)} (s : FlowStore σ)
    {shape : Shape σ} (h : (name, shape) ∈ entries) : ∃ shape', (name, shape') ∈ entries ∧
      (entries.foldl (fun (store : FlowStore σ) (name, shape) => store.set name shape) s).get?
        name = some shape' := by
  induction entries generalizing s shape with
  | nil => cases h
  | cons entry entries ih =>
    obtain ⟨n, sh⟩ := entry
    by_cases hlater : ∃ shape', (name, shape') ∈ entries
    · obtain ⟨shape', hmem⟩ := hlater
      obtain ⟨shape', hmem, hget⟩ := ih (s.set n sh) hmem
      exact ⟨shape', List.mem_cons_of_mem _ hmem, hget⟩
    · obtain heq | hmem := List.mem_cons.mp h
      · obtain ⟨rfl, rfl⟩ := Prod.mk.inj heq
        refine ⟨shape, List.mem_cons_self, ?_⟩
        obtain hget | ⟨shape', hmem, -⟩ := get?_foldl_set entries (s.set name shape) name
        · rw [List.foldl_cons, hget, get?_set, if_pos rfl]
        · exact absurd ⟨shape', hmem⟩ hlater
      · exact absurd ⟨shape, hmem⟩ hlater

theorem size_set_le (s : FlowStore σ) (name : String) (shape : Shape σ) :
    (s.set name shape).size ≤ s.size + 1 := by
  obtain ⟨locals⟩ := s
  unfold size set
  dsimp only
  induction locals with
  | nil => exact Nat.le_refl _
  | cons x locals ih =>
    obtain ⟨n, sh⟩ := x
    simp only [enter]
    split_ifs <;> simp [ih]

theorem ordered_allNames (stores : List (FlowStore σ)) : (allNames stores).Pairwise (· < ·) := by
  have hsorted := @List.pairwise_mergeSort String (fun a b => decide (a ≤ b))
    (by simpa using fun _ _ _ => le_trans) (by simpa using le_total) (stores.flatMap names)
  refine (List.Pairwise.eraseReps (fun h h' => ?_) (fun h h' => ?_) hsorted).imp fun h => ?_
  · exact decide_eq_true (le_trans (of_decide_eq_true h) (of_decide_eq_true h'))
  · exact le_antisymm (of_decide_eq_true h) (of_decide_eq_true h')
  · exact lt_of_le_of_ne (of_decide_eq_true h.1) h.2

end FlowStore

namespace Merges

variable {ms ms' : Merges} {b : BlockId}

theorem sublist_enter (ms : Merges) (key : BlockId × String) (shape : Shape Location) :
    ms.Sublist (ms.enter key shape) := by
  induction ms with
  | nil => exact List.nil_sublist _
  | cons m ms ih =>
    simp only [enter]
    split_ifs
    · exact List.sublist_cons_self _ _
    · exact ih.cons_cons m

theorem map_enter_perm (ms : Merges) (key : BlockId × String) (shape : Shape Location) :
    (ms.enter key shape).Perm ((key, shape) :: ms) := by
  induction ms with
  | nil => exact .refl _
  | cons m ms ih =>
    simp only [enter]
    split_ifs
    · exact .refl _
    · exact (ih.cons m).trans (.swap _ _ _)

/-- A block is entered with the shape of any store where none was merged. -/
theorem Enters.get?_eq {store input : FlowStore Location} (h : ms.Enters b store input)
    {name : String} (hnone : ∀ shape, ((b, name), shape) ∉ ms) :
    input.get? name = store.get? name := by
  have hrel := h name
  generalize store.get? name = o, input.get? name = o' at hrel ⊢
  cases hrel with
  | none => rfl
  | some h => rw [h.resolve_right (hnone _)]

/-- A block is read with the store, except where shapes were merged. -/
def Overlays (ms : Merges) (b : BlockId) (store input : FlowStore Location) : Prop :=
  ∀ name, (∀ shape, ((b, name), shape) ∈ ms → input.get? name = some shape) ∧
    ((∀ shape, ((b, name), shape) ∉ ms) → input.get? name = store.get? name)

theorem Overlays.unique {store input input' : FlowStore Location} (h : ms.Overlays b store input)
    (h' : ms.Overlays b store input') (hinput : input.Ordered) (hinput' : input'.Ordered) :
    input = input' := by
  apply hinput.ext hinput'
  intro name
  by_cases hmerged : ∃ shape, ((b, name), shape) ∈ ms
  · obtain ⟨shape, hmem⟩ := hmerged
    rw [(h name).1 shape hmem, (h' name).1 shape hmem]
  · have hnone := not_exists.mp hmerged
    rw [(h name).2 hnone, (h' name).2 hnone]

theorem Overlays.congr {store input : FlowStore Location} (h : ms.Overlays b store input)
    (hms : ∀ name shape, ((b, name), shape) ∈ ms' ↔ ((b, name), shape) ∈ ms) :
    ms'.Overlays b store input := by
  intro name
  simp only [hms]
  exact h name

theorem ofBlock_sublist (h : ms.Sublist ms') (b : BlockId) :
    (ms.ofBlock b).Sublist (ms'.ofBlock b) :=
  (h.filter _).map _

end Merges

namespace MethodContext

variable {c : MethodContext} {P : Event → Prop} {s : FlowState} {b : BlockId}

/-- Merged shapes are only added, at one block and under new keys. -/
structure MergesAt (b : BlockId) (ms ms' : Merges) : Prop where
  sublist : ms.Sublist ms'
  others : ∀ m ∈ ms', m ∈ ms ∨ m.1.1 = b
  nodup : (ms.map (·.1)).Nodup → (ms'.map (·.1)).Nodup

theorem MergesAt.refl (b : BlockId) (ms : Merges) : MergesAt b ms ms :=
  ⟨List.Sublist.refl _, fun _ => .inl, id⟩

theorem MergesAt.trans {ms₁ ms₂ ms₃ : Merges} (h : MergesAt b ms₁ ms₂) (h' : MergesAt b ms₂ ms₃) :
    MergesAt b ms₁ ms₃ where
  sublist := h.sublist.trans h'.sublist
  others m hm := (h'.others m hm).elim (h.others m) .inr
  nodup := h'.nodup ∘ h.nodup

theorem MergesAt.mem_iff {ms ms' : Merges} (h : MergesAt b ms ms') {x : BlockId} (hx : x ≠ b)
    (name : String) (shape : Shape Location) : ((x, name), shape) ∈ ms' ↔ ((x, name), shape) ∈ ms :=
  ⟨fun hm => (h.others _ hm).resolve_right hx, fun hm => h.sublist.subset hm⟩

theorem resolve_mergesAt (b : BlockId) (name : String) (shapes : List (Shape Location))
    (st : Merges × List (Shape Location)) :
    MergesAt b st.1 ((c.resolve b name shapes).run st).2.1 := by
  obtain ⟨hsame, -⟩ | ⟨hlookup, hnew, -⟩ := c.resolve_cases b name shapes st
  · rw [hsame]
    exact .refl b st.1
  · rw [hnew]
    refine ⟨st.1.sublist_enter _ _, fun m hm => ?_, fun hnodup => ?_⟩
    · obtain rfl | hm := Merges.mem_enter.mp hm
      · exact .inr rfl
      · exact .inl hm
    · refine ((st.1.map_enter_perm _ _).map _).nodup_iff.mpr
        (List.nodup_cons.mpr ⟨fun hmem => ?_, hnodup⟩)
      obtain ⟨m, hm, hkey⟩ := List.mem_map.mp hmem
      exact absurd (List.lookup_eq_none_iff.mp hlookup m hm) (by simp [hkey])

theorem join_mergesAt (b : BlockId) (stores : List (FlowStore Location)) (ms : Merges) :
    let r := (FlowStore.join stores (c.resolve b)).run (ms, [])
    MergesAt b ms r.2.1 ∧ r.1.Ordered := by
  have hlocal : ∀ name ∈ FlowStore.allNames stores, ∀ st,
      MergesAt b st.1 ((FlowStore.joinLocal stores (c.resolve b) name).run st).2.1 ∧
        name = ((FlowStore.joinLocal stores (c.resolve b) name).run st).1.1 := by
    intro name _ st
    unfold FlowStore.joinLocal
    cases FlowStore.agreed? (stores.filterMap (·.get? name)) with
    | some shape => exact ⟨.refl b st.1, rfl⟩
    | none => exact ⟨resolve_mergesAt b name _ st, rfl⟩
  obtain ⟨hgrows, hnames⟩ := @List.mapM_run_spec _ _ _ (FlowStore.joinLocal stores (c.resolve b))
    (fun st st' => MergesAt b st.1 st'.1) (fun _ name out => name = out.1) (fun st => .refl b st.1)
    MergesAt.trans (fun _ h => h) _ hlocal (ms, [])
  rw [FlowStore.join_eq]
  refine ⟨hgrows, ?_⟩
  have heq := List.forall₂_map_right_iff.mpr hnames
  rw [List.forall₂_eq_eq_eq] at heq
  have hordered := FlowStore.ordered_allNames stores
  rwa [heq] at hordered

/-- A block is entered with any of its stores, except where shapes were merged. -/
theorem entering_overlays {predecessors : Array (List BlockId)} {input : FlowStore Location}
    {ms : Merges} (hread : (c.entering s predecessors b).Reads P (input, ms))
    (henters : ∀ store ∈ c.incoming s predecessors b, ms.Enters b store input)
    (hnodup : (s.merges.map (·.1)).Nodup) :
    MergesAt b s.merges ms ∧ input.Ordered ∧
      ∀ store ∈ c.incoming s predecessors b, ms.Overlays b store input := by
  obtain ⟨hat, hordered⟩ := c.join_mergesAt b (c.incoming s predecessors b) s.merges
  unfold entering at hread
  generalize (FlowStore.join (c.incoming s predecessors b) (c.resolve b)).run (s.merges, []) =
    r at hread hat hordered
  obtain ⟨joined, ms', made⟩ := r
  simp only [Gen.reads_bind, Gen.reads_pure, Prod.mk.injEq] at hread
  obtain ⟨_, -, hinput, rfl⟩ := hread
  refine ⟨hat, hinput ▸ hordered.foldl_set _, fun store hstore name =>
    ⟨fun shape hmem => ?_, (henters store hstore).get?_eq⟩⟩
  obtain ⟨shape', hmem', hget⟩ :=
    FlowStore.get?_foldl_set_of_mem joined (Merges.mem_ofBlock.mpr hmem)
  obtain rfl : shape = shape' :=
    congrArg Prod.snd
      (List.inj_on_of_nodup_map (hat.nodup hnodup) hmem (Merges.mem_ofBlock.mp hmem') rfl)
  rw [← hinput]
  exact hget

end MethodContext

theorem Terminator.length_successors_le (t : Terminator) : t.successors.length ≤ 2 := by
  cases t <;> simp [successors]

namespace MethodContext

variable {c : MethodContext} {P : Event → Prop} {s s' : FlowState} {b : BlockId}
  {rest : List BlockId}
  {input : FlowStore Location}

theorem foldl_leave_merges (b : BlockId) (s : FlowState)
    (outs : List (BlockId × FlowStore Location)) :
    (outs.foldl (leave b) s).merges = s.merges := by
  induction outs generalizing s with
  | nil => rfl
  | cons out outs ih => rw [List.foldl_cons, ih, leave_merges]

theorem foldl_leave_waiting (b : BlockId) (s : FlowState)
    (outs : List (BlockId × FlowStore Location)) :
    (outs.foldl (leave b) s).waiting.length ≤ s.waiting.length + outs.length := by
  induction outs generalizing s with
  | nil => exact Nat.le_refl _
  | cons out outs ih =>
    have hleave : (leave b s out).waiting.length ≤ s.waiting.length + 1 := by
      unfold leave
      split_ifs <;> simp
    have hrest := ih (leave b s out)
    rw [List.foldl_cons, List.length_cons]
    omega

structure IsRead (c : MethodContext) (s : FlowState) (b : BlockId) (rest : List BlockId)
    (input : FlowStore Location) (s' : FlowState) : Prop where
  lt : b < c.body.blocks.size
  new : s.inputs.getD b none ≠ some input
  inputs : ∀ x, s'.inputs.getD x none = if x = b then some input else s.inputs.getD x none
  edges : ∀ a x, a ≠ b → s'.edges.lookup (a, x) = s.edges.lookup (a, x)
  known : ∀ x, (s.edges.lookup (b, x)).isSome = true → (s'.edges.lookup (b, x)).isSome = true
  waiting : s'.waiting.length ≤ rest.length + 2

/-- All that a visit can do. -/
structure Visits (c : MethodContext) (s : FlowState) (b : BlockId) (rest : List BlockId)
    (input : FlowStore Location) (s' : FlowState) : Prop where
  merges : MergesAt b s.merges s'.merges
  ordered : input.Ordered
  overlays : ∀ store ∈ c.incoming s c.body.predecessors b, s'.merges.Overlays b store input
  cases : s.inputs.getD b none = some input ∧ s'.inputs = s.inputs ∧ s'.edges = s.edges ∧
    s'.waiting = rest ∨
    c.IsRead s b rest input s'

theorem visit_cases (h : c.Settling P s) (hnodup : (s.merges.map (·.1)).Nodup)
    (hwaiting : s.waiting = b :: rest)
    (hread : (c.visit c.body.predecessors { s with waiting := rest } b).Reads P s') :
    ∃ input, c.Visits s b rest input s' := by
  simp only [visit, Gen.reads_bind] at hread
  obtain ⟨⟨input, ms⟩, hentering, hread⟩ := hread
  obtain ⟨-, -, -, henters⟩ :=
    entering_spec hentering (h.waiting b (hwaiting ▸ List.mem_cons_self)) (h.names b) h.merges
  obtain ⟨hat, hordered, hoverlays⟩ := entering_overlays hentering henters hnodup
  refine ⟨input, ?_⟩
  split_ifs at hread with hsame
  · obtain rfl := Gen.reads_pure.mp hread
    exact ⟨hat, hordered, hoverlays, .inl ⟨hsame, rfl, rfl, rfl⟩⟩
  · simp only [Gen.reads_bind, Gen.reads_pure] at hread
    obtain ⟨outs, htransfer, rfl⟩ := hread
    obtain ⟨block, hblock, hnodupOuts, htargets, -⟩ := transfer_targets htransfer
    have hb : b < c.body.blocks.size := (Array.getElem?_eq_some_iff.mp hblock).1
    generalize hstart : (⟨s.inputs.setIfInBounds b (some input), s.edges, ms, rest⟩ : FlowState) =
      start
    obtain ⟨hold, hnew⟩ := lookup_edges_foldl_leave (b := b) hnodupOuts start
    have hlength : outs.length ≤ 2 := by
      have hsub := hnodupOuts.subperm fun target htarget => (htargets target).mp htarget
      have hle := hsub.length_le
      rw [List.length_map] at hle
      exact hle.trans (Terminator.length_successors_le _)
    refine ⟨?_, hordered, ?_, .inr ⟨hb, hsame, fun x => ?_, fun a x ha => ?_, fun x hx => ?_, ?_⟩⟩
    · rw [foldl_leave_merges, ← hstart]
      exact hat
    · rw [foldl_leave_merges, ← hstart]
      exact hoverlays
    · rw [foldl_leave_inputs, ← hstart, Array.getD_setIfInBounds, h.size]
      by_cases hx : x = b
      · rw [if_pos ⟨hx.symm, hx ▸ hb⟩, if_pos hx]
      · rw [if_neg fun hbx => hx hbx.1.symm, if_neg hx]
    · rw [hold (a, x) fun heq => absurd heq ha, ← hstart]
    · by_cases hmem : x ∈ outs.map (·.1)
      · obtain ⟨out, hout, rfl⟩ := List.mem_map.mp hmem
        rw [hnew out hout, Option.isSome_some]
      · rw [hold (b, x) fun _ => hmem, ← hstart]
        exact hx
    · have hle := (foldl_leave_waiting b start outs).trans (Nat.add_le_add_left hlength _)
      subst hstart
      exact hle

end MethodContext

end Qualify
