import Qualify.Proofs.Generation.Simulation

namespace Qualify

namespace FlowStore

variable {σ : Type}

theorem mem_names {s : FlowStore σ} {name : String} :
    name ∈ s.names ↔ (s.get? name).isSome = true := by
  simp only [names, get?, List.lookup_isSome_iff, List.mem_map, beq_iff_eq]
  exact exists_congr fun _ => and_congr_right' eq_comm

theorem mem_allNames {stores : List (FlowStore σ)} {name : String} :
    name ∈ allNames stores ↔ ∃ s ∈ stores, (s.get? name).isSome = true := by
  simp only [allNames, List.mem_eraseReps, List.mem_mergeSort, List.mem_flatMap, mem_names]

theorem agreed?_eq_some [DecidableEq σ] {shapes : List (Shape σ)} {shape : Shape σ}
    (h : agreed? shapes = some shape) : ∀ s ∈ shapes, s = shape := by
  cases shapes with
  | nil => cases h
  | cons s ss =>
    simp only [agreed?, List.all_eq_true, decide_eq_true_eq, Option.ite_none_right_eq_some,
      Option.some.injEq] at h
    obtain ⟨hss, rfl⟩ := h
    exact List.forall_mem_cons.mpr ⟨rfl, hss⟩

/-- Of several shapes set for a name one stands. -/
theorem get?_foldl_set (entries : List (String × Shape σ)) (s : FlowStore σ) (name : String) :
    let t := entries.foldl (fun (store : FlowStore σ) (name, shape) => store.set name shape) s
    t.get? name = s.get? name ∨ ∃ shape, (name, shape) ∈ entries ∧ t.get? name = some shape := by
  induction entries generalizing s with
  | nil => exact .inl rfl
  | cons entry entries ih =>
    obtain ⟨n, sh⟩ := entry
    obtain h | ⟨shape, hmem, h⟩ := ih (s.set n sh)
    · rw [get?_set] at h
      split_ifs at h with hname
      · exact .inr ⟨sh, hname ▸ List.mem_cons_self, h⟩
      · exact .inl h
    · exact .inr ⟨shape, List.mem_cons_of_mem _ hmem, h⟩

def joinLocal {m : Type → Type} [Monad m] [DecidableEq σ] (stores : List (FlowStore σ))
    (resolve : String → List (Shape σ) → m (Shape σ)) (name : String) : m (String × Shape σ) :=
  match agreed? (stores.filterMap (·.get? name)) with
  | some s => return (name, s)
  | none => do return (name, ← resolve name (stores.filterMap (·.get? name)))

theorem join_eq {m : Type → Type} [Monad m] [DecidableEq σ] (stores : List (FlowStore σ))
    (resolve : String → List (Shape σ) → m (Shape σ)) :
    join stores resolve = do return ⟨← (allNames stores).mapM (joinLocal stores resolve)⟩ := rfl

/-- A store listed name by name. -/
theorem get?_of_forall₂ {Q : String → Shape σ → Prop} {names : List String}
    {locals : List (String × Shape σ)}
    (h : List.Forall₂ (fun name entry => entry.1 = name ∧ Q name entry.2) names locals)
    (name : String) :
    ((get? ⟨locals⟩ name).isSome = true ↔ name ∈ names) ∧
      ∀ shape ∈ get? ⟨locals⟩ name, Q name shape := by
  unfold get?
  induction h with
  | nil => simp
  | @cons n entry _ _ hhead _ ih =>
    obtain ⟨_, sh⟩ := entry
    obtain ⟨rfl, hQ⟩ := hhead
    dsimp only at ih ⊢
    rw [List.lookup_cons_eq_ite]
    split_ifs with hname
    · subst hname
      simpa using hQ
    · simpa [hname] using ih

end FlowStore

theorem Shape.root_mem_slots {σ : Type} (s : Shape σ) : s.root ∈ s.slots := by
  cases s
  exact List.mem_cons_self

theorem Merges.mem_enter {key : BlockId × String} {shape : Shape Location} {ms : Merges}
    {m : (BlockId × String) × Shape Location} :
    m ∈ ms.enter key shape ↔ m = (key, shape) ∨ m ∈ ms := by
  induction ms with
  | nil => simp [enter]
  | cons x ms ih =>
    simp only [enter]
    split_ifs
    · simp
    · simp only [List.mem_cons, ih]
      tauto

theorem Merges.mem_ofBlock {ms : Merges} {b : BlockId} {name : String} {shape : Shape Location} :
    (name, shape) ∈ ms.ofBlock b ↔ ((b, name), shape) ∈ ms := by
  simp only [ofBlock, List.mem_map, List.mem_filter, beq_iff_eq, Prod.mk.injEq]
  constructor
  · rintro ⟨⟨⟨_, _⟩, _⟩, ⟨hmem, rfl⟩, rfl, rfl⟩
    exact hmem
  · exact fun hmem => ⟨_, ⟨hmem, rfl⟩, rfl, rfl⟩

theorem Body.mem_predecessors {body : Body} {a b : BlockId} {block : Block}
    (ha : body.blocks[a]? = some block) (hb : b ∈ block.terminator.successors)
    (hsize : b < body.blocks.size) : a ∈ body.predecessors.getD b [] := by
  have hb' : b ∈ List.range body.blocks.size := List.mem_range.mpr hsize
  have ha' : a < body.blocks.size := (Array.getElem?_eq_some_iff.mp ha).1
  simp only [predecessors, Array.getD_eq_getD_getElem?, List.getElem?_toArray, List.getElem?_map,
    List.getElem?_range hsize, Option.map_some, Option.getD_some, List.mem_filter, List.mem_range,
    ha', ha, Option.any_some, List.contains_iff_mem, hb, true_and]

/-- A store enters a block that is read with another: each shape is the same there or was merged
with others. -/
def Merges.Enters (ms : Merges) (b : BlockId) (store input : FlowStore Location) : Prop :=
  ∀ name, Option.Rel (fun shape shape' => shape' = shape ∨ ((b, name), shape') ∈ ms)
    (store.get? name) (input.get? name)

theorem Merges.Enters.mono {ms ms' : Merges} {b : BlockId} {store input : FlowStore Location}
    (h : ms.Enters b store input) (hms : ms ⊆ ms') : ms'.Enters b store input :=
  fun name => (h name).imp fun _ _ => Or.imp_right fun hmem => hms hmem

namespace MethodContext

variable {c : MethodContext} {P : Event → Prop}

/-- Shapes are merged for some names, and the new ones are noted. -/
structure MergesGrow (names : List String) (st st' : Merges × List (Shape Location)) : Prop where
  merges : st.1 ⊆ st'.1
  made : st.2 ⊆ st'.2
  new : ∀ m ∈ st'.1, m ∈ st.1 ∨ m.1.2 ∈ names ∧ m.2 ∈ st'.2

theorem MergesGrow.refl (names : List String) (st : Merges × List (Shape Location)) :
    MergesGrow names st st :=
  ⟨List.Subset.refl _, List.Subset.refl _, fun _ => .inl⟩

theorem MergesGrow.trans {names : List String} {st₁ st₂ st₃ : Merges × List (Shape Location)}
    (h : MergesGrow names st₁ st₂) (h' : MergesGrow names st₂ st₃) : MergesGrow names st₁ st₃ where
  merges := List.Subset.trans h.merges h'.merges
  made := List.Subset.trans h.made h'.made
  new m hm := by
    obtain hm | hm := h'.new m hm
    · exact (h.new m hm).imp_right fun hnew => ⟨hnew.1, h'.made hnew.2⟩
    · exact .inr hm

/-- The merged shape is one that is known, or a new one, which is noted. -/
theorem resolve_cases (b : BlockId) (name : String) (shapes : List (Shape Location))
    (st : Merges × List (Shape Location)) :
    let r := (c.resolve b name shapes).run st
    (r.2 = st ∧ (st.1.lookup (b, name) = some r.1 ∨ shapes = [])) ∨
      (st.1.lookup (b, name) = none ∧ r.2 = (st.1.enter (b, name) r.1, st.2 ++ [r.1]) ∧
        ∃ template, r.1 = mergeShape (c.location (c.mergePosition b name) .merge) template) := by
  obtain ⟨ms, made⟩ := st
  cases hlookup : ms.lookup (b, name) with
  | some shape =>
    have hrun : (c.resolve b name shapes).run (ms, made) = pure (shape, ms, made) := by
      simp [resolve, hlookup]
    rw [hrun]
    exact .inl ⟨rfl, .inl rfl⟩
  | none =>
    cases shapes with
    | nil =>
      have hrun : (c.resolve b name []).run (ms, made) =
          pure (.leaf (c.location (c.mergePosition b name) .merge), ms, made) := by
            simp [resolve, hlookup]
      rw [hrun]
      exact .inl ⟨rfl, .inr rfl⟩
    | cons template rest =>
      let shape := mergeShape (c.location (c.mergePosition b name) .merge) template
      have hrun : (c.resolve b name (template :: rest)).run (ms, made) =
          pure (shape, ms.enter (b, name) shape, made ++ [shape]) := by
            simp [resolve, hlookup, shape]
      rw [hrun]
      exact .inr ⟨rfl, rfl, template, rfl⟩

theorem resolve_spec {names : List String} (b : BlockId) {name : String} (hname : name ∈ names)
    {shapes : List (Shape Location)} (hshapes : shapes ≠ []) (st : Merges × List (Shape Location)) :
    let r := (c.resolve b name shapes).run st
    MergesGrow names st r.2 ∧ ((b, name), r.1) ∈ r.2.1 := by
  obtain ⟨hsame, hlookup⟩ | ⟨-, hnew, -⟩ := c.resolve_cases b name shapes st
  · obtain ⟨before, after, hms, -⟩ := List.lookup_eq_some_iff.mp (hlookup.resolve_right hshapes)
    dsimp only
    rw [hsame, hms]
    exact ⟨.refl _ _, List.mem_append_right _ List.mem_cons_self⟩
  · dsimp only
    rw [hnew]
    refine ⟨⟨fun m hm => Merges.mem_enter.mpr (.inr hm), List.subset_append_left _ _,
      fun m hm => ?_⟩, Merges.mem_enter.mpr (.inl rfl)⟩
    obtain rfl | hm := Merges.mem_enter.mp hm
    · exact .inr ⟨hname, List.mem_append_right _ List.mem_cons_self⟩
    · exact .inl hm

def Joined (stores : List (FlowStore Location)) (b : BlockId) (ms : Merges) (name : String)
    (shape' : Shape Location) :
    Prop :=
  ((b, name), shape') ∈ ms ∨ ∀ store ∈ stores, ∀ shape ∈ store.get? name, shape' = shape

theorem joinLocal_spec (b : BlockId) {stores : List (FlowStore Location)} {name : String}
    (hname : name ∈ FlowStore.allNames stores) (st : Merges × List (Shape Location)) :
    let r := (FlowStore.joinLocal stores (c.resolve b) name).run st
    MergesGrow (FlowStore.allNames stores) st r.2 ∧ r.1.1 = name ∧
      Joined stores b r.2.1 name r.1.2 := by
  unfold FlowStore.joinLocal
  cases hagreed : FlowStore.agreed? (stores.filterMap (·.get? name)) with
  | some shape' =>
    refine ⟨.refl _ _, rfl, .inr fun store hstore shape hshape => ?_⟩
    exact (FlowStore.agreed?_eq_some hagreed shape
      (List.mem_filterMap.mpr ⟨store, hstore, hshape⟩)).symm
  | none =>
    have hshapes : stores.filterMap (·.get? name) ≠ [] := by
      obtain ⟨store, hstore, hsome⟩ := FlowStore.mem_allNames.mp hname
      obtain ⟨shape, hshape⟩ := Option.isSome_iff_exists.mp hsome
      exact List.ne_nil_of_mem (List.mem_filterMap.mpr ⟨store, hstore, hshape⟩)
    obtain ⟨hgrows, hmem⟩ := c.resolve_spec b hname hshapes st
    exact ⟨hgrows, rfl, .inl hmem⟩

/-- The joined store has the names of all stores. -/
theorem join_spec (b : BlockId) (stores : List (FlowStore Location)) (ms : Merges) :
    let r := (FlowStore.join stores (c.resolve b)).run (ms, [])
    MergesGrow (FlowStore.allNames stores) (ms, []) r.2 ∧ ∀ name,
      ((r.1.get? name).isSome = true ↔ name ∈ FlowStore.allNames stores) ∧
      ∀ shape' ∈ r.1.get? name, Joined stores b r.2.1 name shape' := by
  rw [FlowStore.join_eq]
  obtain ⟨hgrows, hlocals⟩ := List.mapM_run_spec (f := FlowStore.joinLocal stores (c.resolve b))
    (Q := fun st name out => out.1 = name ∧ Joined stores b st.1 name out.2) (MergesGrow.refl _)
      MergesGrow.trans
    (fun hgrows => And.imp_right (Or.imp_left fun hmem => hgrows.merges hmem))
      (FlowStore.allNames stores)
    (fun _ hname => joinLocal_spec b hname) (ms, [])
  exact ⟨hgrows, FlowStore.get?_of_forall₂ hlocals⟩

def IsMerge (c : MethodContext) (P : Event → Prop) (m : (BlockId × String) × Shape Location) :
    Prop :=
  (c.declared.get? m.1.2).isSome = true ∧ ∃ init, P (.request m.2.root init)

theorem entering_spec {s : FlowState} {predecessors : Array (List BlockId)} {b : BlockId}
    {input : FlowStore Location} {ms : Merges}
    (hread : (c.entering s predecessors b).Reads P (input, ms))
    (hincoming : c.incoming s predecessors b ≠ [])
    (hnames : ∀ store ∈ c.incoming s predecessors b, store.SameNames c.declared)
    (hmerges : ∀ m ∈ s.merges, c.IsMerge P m) :
    s.merges ⊆ ms ∧ (∀ m ∈ ms, c.IsMerge P m) ∧ input.SameNames c.declared ∧
      ∀ store ∈ c.incoming s predecessors b, ms.Enters b store input := by
  obtain ⟨hgrows, hjoined⟩ := c.join_spec b (c.incoming s predecessors b) s.merges
  unfold entering at hread
  -- What is left of the join is its specification.
  generalize (FlowStore.join (c.incoming s predecessors b) (c.resolve b)).run (s.merges, []) =
    r at hread hgrows hjoined
  obtain ⟨joined, ms', made⟩ := r
  simp only [Gen.reads_bind, Gen.reads_forM, Gen.reads_pure, Gen.reads_discard,
    Surroundings.reads_inferred, Prod.mk.injEq] at hread
  obtain ⟨_, hmade, rfl, rfl⟩ := hread
  -- All stores have the declared names, and there is a store.
  have hdeclared (name : String) :
      name ∈ FlowStore.allNames (c.incoming s predecessors b) ↔
          (c.declared.get? name).isSome = true := by
    rw [FlowStore.mem_allNames]
    constructor
    · rintro ⟨store, hstore, hsome⟩
      rw [← hnames store hstore name, hsome]
    · obtain ⟨store, hstore⟩ := List.exists_mem_of_ne_nil _ hincoming
      exact fun hsome => ⟨store, hstore, by rw [hnames store hstore name, hsome]⟩
  have hms' : ∀ m ∈ ms', c.IsMerge P m := by
    intro m hm
    obtain hm | ⟨hname, hnew⟩ := hgrows.new m hm
    · exact hmerges m hm
    · obtain ⟨_, hrequest, -⟩ :=
        hmade m.2.root (List.mem_flatMap.mpr ⟨m.2, hnew, m.2.root_mem_slots⟩)
      exact ⟨(hdeclared m.1.2).mp hname, _, hrequest⟩
  have hinput (name : String) := FlowStore.get?_foldl_set (ms'.ofBlock b) joined name
  generalize (ms'.ofBlock b).foldl _ joined = input at hinput ⊢
  have hinputNames : input.SameNames c.declared := by
    intro name
    obtain h | ⟨shape, hmem, h⟩ := hinput name
    · rw [h, Bool.eq_iff_iff, (hjoined name).1, hdeclared]
    · rw [h, (hms' _ (Merges.mem_ofBlock.mp hmem)).1, Option.isSome_some]
  refine ⟨hgrows.merges, hms', hinputNames, fun store hstore name => ?_⟩
  refine Option.rel_of_isSome_eq ((hnames store hstore name).trans (hinputNames name).symm)
    fun shape hshape shape' hshape' => ?_
  obtain h | ⟨merged, hmem, h⟩ := hinput name
  · rw [h] at hshape'
    exact ((hjoined name).2 shape' hshape').symm.imp_left
      fun hagree => hagree store hstore shape hshape
  · obtain rfl := Option.some.inj (h.symm.trans hshape')
    exact .inr (Merges.mem_ofBlock.mp hmem)

theorem terminator_targets {b : BlockId} {position : String} {p : Point} {t : Terminator}
    {outs : List (BlockId × FlowStore Location)}
    (hread : (c.terminator b position p t).Reads P outs) :
    (outs.map (·.1)).Nodup ∧ (∀ target, target ∈ outs.map (·.1) ↔ target ∈ t.successors) ∧
      ∀ target ∈ t.successors, target < c.body.blocks.size := by
  have hblock {target : BlockId} {block : Block} (h : (c.block target).Reads P block) :
      target < c.body.blocks.size :=
    (Array.getElem?_eq_some_iff.mp (Gen.reads_ofOption.mp h)).1
  cases t with
  | goto target =>
    simp only [terminator, Gen.reads_bind, Gen.reads_pure] at hread
    obtain ⟨_, htarget, rfl⟩ := hread
    simpa [Terminator.successors] using hblock htarget
  | ret value =>
    have houts : outs = [] := by
      cases value with
      | none => exact (Gen.reads_pure.mp hread).symm
      | some t =>
        simp only [terminator, Gen.reads_bind, Gen.reads_pure] at hread
        obtain ⟨_, -, _, -, _, -, rfl⟩ := hread
        rfl
    simp [houts, Terminator.successors]
  | unreachable => simp [← Gen.reads_pure.mp hread, Terminator.successors]
  | branch condition thenBlock elseBlock =>
    simp only [terminator, Gen.reads_bind] at hread
    obtain ⟨_, hthen, _, helse, v, -, hread⟩ := hread
    have hsize :
        ∀ target ∈ (Terminator.branch condition thenBlock elseBlock).successors,
            target < c.body.blocks.size := by
      simpa [Terminator.successors] using ⟨hblock hthen, hblock helse⟩
    split_ifs at hread with hsame
    · simp [← Gen.reads_pure.mp hread, Terminator.successors, hsame, hblock helse]
    · have houts : outs.map (·.1) = [thenBlock, elseBlock] := by
        split at hread <;> simp only [Gen.reads_bind, Gen.reads_pure] at hread
        · obtain ⟨_, -, rfl⟩ := hread
          rfl
        · obtain ⟨_, -, rfl⟩ := hread
          rfl
        · obtain rfl := hread
          rfl
      rw [houts]
      exact ⟨by simp [hsame], fun _ => Iff.rfl, hsize⟩

theorem transfer_targets {b : BlockId} {store : FlowStore Location}
    {outs : List (BlockId × FlowStore Location)} (hread : (c.transfer b store).Reads P outs) :
    ∃ block, c.body.blocks[b]? = some block ∧ (outs.map (·.1)).Nodup ∧
      (∀ target, target ∈ outs.map (·.1) ↔ target ∈ block.terminator.successors) ∧
      ∀ target ∈ block.terminator.successors, target < c.body.blocks.size := by
  simp only [transfer, block, Gen.reads_bind, Gen.reads_ofOption] at hread
  obtain ⟨block, hblock, _, -, hterminator⟩ := hread
  exact ⟨block, hblock, terminator_targets hterminator⟩

theorem lookup_edges_leave (b : BlockId) (s : FlowState) (out : BlockId × FlowStore Location)
    (e : BlockId × BlockId) :
    (leave b s out).edges.lookup e = if e = (b, out.1) then some out.2 else s.edges.lookup e := by
  unfold leave
  by_cases h : s.edges.lookup (b, out.1) = some out.2
  · rw [if_pos h]
    split_ifs with he
    · rw [he, h]
    · rfl
  · rw [if_neg h, List.lookup_cons_eq_ite]
    split_ifs with he
    · rfl
    · exact List.lookup_filter_ne he s.edges

theorem leave_inputs (b : BlockId) (s : FlowState) (out : BlockId × FlowStore Location) :
    (leave b s out).inputs = s.inputs := by
  unfold leave
  split_ifs <;> rfl

theorem leave_merges (b : BlockId) (s : FlowState) (out : BlockId × FlowStore Location) :
    (leave b s out).merges = s.merges := by
  unfold leave
  split_ifs <;> rfl

/-- Whoever has a new edge is waiting. -/
theorem leave_waiting (b : BlockId) (s : FlowState) (out : BlockId × FlowStore Location) :
    leave b s out = s ∨ ∀ x, x ∈ (leave b s out).waiting ↔ x = out.1 ∨ x ∈ s.waiting := by
  unfold leave
  split_ifs with h hwaiting
  · exact .inl rfl
  · have hmem := List.contains_iff_mem.mp hwaiting
    exact .inr fun x => ⟨.inr, by rintro (rfl | hx) <;> assumption⟩
  · exact .inr fun x => by rw [List.mem_append, List.mem_singleton, or_comm]

/-- What holds of a flow state throughout: the blocks that do not wait were read with all that
enters them. -/
structure Settling (c : MethodContext) (P : Event → Prop) (s : FlowState) : Prop where
  size : s.inputs.size = c.body.blocks.size
  edges : ∀ {e store}, s.edges.lookup e = some store → store.SameNames c.declared
  merges : ∀ m ∈ s.merges, c.IsMerge P m
  waiting : ∀ b ∈ s.waiting, c.incoming s c.body.predecessors b ≠ []
  settled : ∀ b, b ∉ s.waiting → ∀ store ∈ c.incoming s c.body.predecessors b,
    ∃ input, s.inputs.getD b none = some input ∧ s.merges.Enters b store input

theorem mem_incoming {s : FlowState} {predecessors : Array (List BlockId)} {b : BlockId}
    {store : FlowStore Location} :
    store ∈ c.incoming s predecessors b ↔
      (∃ p ∈ predecessors.getD b [], s.edges.lookup (p, b) = some store) ∨ b = c.body.entry ∧
        store = c.declared := by
  unfold incoming
  rw [List.mem_append, List.mem_filterMap]
  split_ifs with hb <;> simp [hb]

theorem Settling.names {s : FlowState} (h : c.Settling P s) (b : BlockId) :
    ∀ store ∈ c.incoming s c.body.predecessors b, store.SameNames c.declared := by
  intro store hstore
  obtain ⟨_, -, hlookup⟩ | ⟨-, rfl⟩ := mem_incoming.mp hstore
  · exact h.edges hlookup
  · exact fun _ => rfl

/-- One way out of a block. -/
theorem Settling.leave {s : FlowState} (h : c.Settling P s) {b : BlockId}
    {out : BlockId × FlowStore Location} (hout : b ∈ c.body.predecessors.getD out.1 [])
    (hnames : out.2.SameNames c.declared) :
    c.Settling P (leave b s out) := by
  obtain heq | hwaiting := leave_waiting b s out
  · rwa [heq]
  -- Only what enters `out.1` has changed, and this block waits.
  have hold {x : BlockId} (hx : x ≠ out.1) :
      c.incoming (MethodContext.leave b s out) c.body.predecessors x =
      c.incoming s c.body.predecessors x := by
    have hne (p : BlockId) : (p, x) ≠ (b, out.1) := fun heq => hx (Prod.mk.inj heq).2
    simp only [incoming, lookup_edges_leave, hne, if_false]
  have hnew : out.2 ∈ c.incoming (MethodContext.leave b s out) c.body.predecessors out.1 :=
    mem_incoming.mpr (.inl ⟨b, hout, by rw [lookup_edges_leave, if_pos rfl]⟩)
  refine ⟨by rw [leave_inputs, h.size], fun {e store} he => ?_,
    by rw [leave_merges]; exact h.merges, fun x hx => ?_, fun x hx store hstore => ?_⟩
  · rw [lookup_edges_leave] at he
    split_ifs at he
    · exact Option.some.inj he ▸ hnames
    · exact h.edges he
  · by_cases hxo : x = out.1
    · exact hxo ▸ List.ne_nil_of_mem hnew
    · rw [hold hxo]
      exact h.waiting x (((hwaiting x).mp hx).resolve_left hxo)
  · obtain ⟨hxo, hx⟩ := not_or.mp (mt (hwaiting x).mpr hx)
    rw [hold hxo] at hstore
    rw [leave_inputs, leave_merges]
    exact h.settled x hx store hstore

theorem Settling.foldl_leave {s : FlowState} (h : c.Settling P s) {b : BlockId}
    {outs : List (BlockId × FlowStore Location)}
    (houts : ∀ out ∈ outs, b ∈ c.body.predecessors.getD out.1 [])
    (hnames : ∀ out ∈ outs, out.2.SameNames c.declared) :
    c.Settling P (outs.foldl (MethodContext.leave b) s) := by
  induction outs generalizing s with
  | nil => exact h
  | cons out outs ih =>
    obtain ⟨hout, houts⟩ := List.forall_mem_cons.mp houts
    obtain ⟨hname, hnames⟩ := List.forall_mem_cons.mp hnames
    exact ih (h.leave hout hname) houts hnames

theorem foldl_leave_inputs (b : BlockId) (s : FlowState)
    (outs : List (BlockId × FlowStore Location)) :
    (outs.foldl (leave b) s).inputs = s.inputs := by
  induction outs generalizing s with
  | nil => rfl
  | cons out outs ih => rw [List.foldl_cons, ih, leave_inputs]

theorem lookup_edges_foldl_leave {b : BlockId} {outs : List (BlockId × FlowStore Location)}
    (houts : (outs.map (·.1)).Nodup) (s : FlowState) :
    (∀ e, (e.1 = b → e.2 ∉ outs.map (·.1)) →
      (outs.foldl (leave b) s).edges.lookup e = s.edges.lookup e) ∧
      ∀ out ∈ outs, (outs.foldl (leave b) s).edges.lookup (b, out.1) = some out.2 := by
  induction outs generalizing s with
  | nil => exact ⟨fun _ _ => rfl, nofun⟩
  | cons out outs ih =>
    rw [List.map_cons, List.nodup_cons] at houts
    obtain ⟨hold, hnew⟩ := ih houts.2 (leave b s out)
    rw [List.foldl_cons]
    refine ⟨fun e he => ?_, List.forall_mem_cons.mpr ⟨?_, hnew⟩⟩
    · have hne : e ≠ (b, out.1) := by
        rintro rfl
        exact he rfl List.mem_cons_self
      rw [hold e fun heb => List.not_mem_of_not_mem_cons (he heb), lookup_edges_leave, if_neg hne]
    · rw [hold (b, out.1) fun _ => houts.1, lookup_edges_leave, if_pos rfl]

/-- A block that was read has its edges. -/
def Recorded (c : MethodContext) (P : Event → Prop) (s : FlowState) (b : BlockId) : Prop :=
  ∀ input, s.inputs.getD b none = some input → input.SameNames c.declared ∧
    ∃ outs, (c.transfer b input).Reads P outs ∧ ∀ out ∈ outs, s.edges.lookup (b, out.1) = some out.2

/-- The first waiting block is entered with all its stores. -/
theorem Settling.enter {s : FlowState} (h : c.Settling P s) {b : BlockId} {rest : List BlockId}
    (hwaiting : s.waiting = b :: rest) {input : FlowStore Location} {ms : Merges}
    (hsub : s.merges ⊆ ms) (hms : ∀ m ∈ ms, c.IsMerge P m)
    (henters : ∀ store ∈ c.incoming s c.body.predecessors b, ms.Enters b store input)
    {inputs : Array (Option (FlowStore Location))} (hsize : inputs.size = s.inputs.size)
    (hinput : inputs.getD b none = some input)
    (hinputs : ∀ x ≠ b, inputs.getD x none = s.inputs.getD x none) :
    c.Settling P ⟨inputs, s.edges, ms, rest⟩ := by
  refine ⟨hsize.trans h.size, h.edges, hms, fun x hx => ?_, fun x hx store hstore => ?_⟩
  · exact h.waiting x (hwaiting ▸ List.mem_cons_of_mem b hx)
  · by_cases hxb : x = b
    · subst hxb
      exact ⟨input, hinput, henters store hstore⟩
    · have hx' : x ∉ s.waiting := by
        rw [hwaiting]
        exact List.not_mem_cons_of_ne_of_not_mem hxb hx
      obtain ⟨old, hold, hentersOld⟩ := h.settled x hx' store hstore
      exact ⟨old, (hinputs x hxb).trans hold, hentersOld.mono hsub⟩

theorem visit_spec {s s' : FlowState} (h : c.Settling P s) (hrecorded : ∀ b, c.Recorded P s b)
    {b : BlockId} {rest : List BlockId} (hwaiting : s.waiting = b :: rest)
    (hread : (c.visit c.body.predecessors { s with waiting := rest } b).Reads P s') :
    c.Settling P s' ∧ ∀ a, c.Recorded P s' a := by
  simp only [visit, Gen.reads_bind] at hread
  obtain ⟨⟨input, ms⟩, hentering, hread⟩ := hread
  obtain ⟨hsub, hms, hnames, henters⟩ :=
    entering_spec hentering (h.waiting b (hwaiting ▸ List.mem_cons_self)) (h.names b) h.merges
  split_ifs at hread with hsame
  · obtain rfl := Gen.reads_pure.mp hread
    exact ⟨h.enter hwaiting hsub hms henters rfl hsame fun _ _ => rfl, hrecorded⟩
  · simp only [Gen.reads_bind, Gen.reads_pure] at hread
    obtain ⟨outs, htransfer, rfl⟩ := hread
    obtain ⟨block, hblock, hnodup, htargets, hsize⟩ := transfer_targets htransfer
    -- The input of `b` changes before its edges do, so `Recorded` comes back only after all of them
    -- are noted.
    have hb : b < s.inputs.size := h.size ▸ (Array.getElem?_eq_some_iff.mp hblock).1
    have hget (x : BlockId) : (s.inputs.setIfInBounds b (some input)).getD x none =
        if b = x ∧ x < s.inputs.size then some input else s.inputs.getD x none :=
          Array.getD_setIfInBounds ..
    have hentered : c.Settling P ⟨s.inputs.setIfInBounds b (some input), s.edges, ms, rest⟩ := by
      refine h.enter hwaiting hsub hms henters Array.size_setIfInBounds ?_ fun x hx => ?_
      · rw [hget, if_pos ⟨rfl, hb⟩]
      · rw [hget, if_neg fun hbx => hx hbx.1.symm]
    obtain ⟨hold, hnew⟩ := lookup_edges_foldl_leave (b := b) hnodup
      ⟨s.inputs.setIfInBounds b (some input), s.edges, ms, rest⟩
    refine ⟨hentered.foldl_leave (fun out hout => ?_) (transfer_names hnames htransfer),
      fun a old holdInput => ?_⟩
    · have hsucc := (htargets out.1).mp (List.mem_map_of_mem hout)
      exact Body.mem_predecessors hblock hsucc (hsize _ hsucc)
    · rw [foldl_leave_inputs, hget] at holdInput
      split_ifs at holdInput with hba
      · obtain ⟨rfl, -⟩ := hba
        obtain rfl := Option.some.inj holdInput
        exact ⟨hnames, outs, htransfer, hnew⟩
      · have hab : a ≠ b := fun hab => hba ⟨hab.symm, hab ▸ hb⟩
        obtain ⟨hnamesOld, outs', htransferOld, hedges⟩ := hrecorded a old holdInput
        refine ⟨hnamesOld, outs', htransferOld, fun out hout => ?_⟩
        rw [hold (a, out.1) fun heq => absurd heq hab]
        exact hedges out hout

theorem settle_spec {visits : Nat} {s s' : FlowState} (h : c.Settling P s)
    (hrecorded : ∀ b, c.Recorded P s b)
    (hread : (c.settle c.body.predecessors visits s).Reads P s') :
    c.Settling P s' ∧ (∀ b, c.Recorded P s' b) ∧ s'.waiting = [] := by
  induction visits generalizing s with
  | zero =>
    unfold settle at hread
    split at hread
    · obtain rfl := Gen.reads_pure.mp hread
      exact ⟨h, hrecorded, ‹_›⟩
    · exact absurd hread Gen.not_reads_fail
  | succ visits ih =>
    unfold settle at hread
    split at hread
    · obtain rfl := Gen.reads_pure.mp hread
      exact ⟨h, hrecorded, ‹_›⟩
    · obtain ⟨s₁, hvisit, hread⟩ := Gen.reads_bind.mp hread
      obtain ⟨h₁, hrecorded₁⟩ := visit_spec h hrecorded ‹_› hvisit
      exact ih h₁ hrecorded₁ hread

def start (c : MethodContext) : FlowState :=
  { inputs := Array.replicate c.body.blocks.size none, waiting := [c.body.entry] }

theorem start_inputs (b : BlockId) : c.start.inputs.getD b none = none :=
  Array.getD_replicate_self ..

theorem settling_start : c.Settling P c.start ∧ ∀ b, c.Recorded P c.start b := by
  refine ⟨⟨Array.size_replicate, ?_, ?_, fun b hb => ?_, fun b hb store hstore => ?_⟩,
    fun b input hinput => ?_⟩
  · rintro _ _ ⟨⟩
  · rintro _ ⟨⟩
  · rw [List.mem_singleton.mp hb]
    exact List.ne_nil_of_mem (mem_incoming.mpr (.inr ⟨rfl, rfl⟩))
  · obtain ⟨_, -, hlookup⟩ | ⟨hentry, -⟩ := mem_incoming.mp hstore
    · cases hlookup
    · exact absurd (List.mem_singleton.mpr hentry) hb
  · rw [start_inputs] at hinput
    cases hinput

/-- At the end every block was read with all that enters it, and its edges are what it was left
with. -/
theorem fixpoint_spec {s : FlowState} (hread : c.fixpoint.Reads P s) :
    (∀ m ∈ s.merges, c.IsMerge P m) ∧ (∀ b, c.Recorded P s b) ∧
      ∀ b, ∀ store ∈ c.incoming s c.body.predecessors b,
        ∃ input, s.inputs.getD b none = some input ∧ s.merges.Enters b store input := by
  simp only [fixpoint, Gen.reads_bind] at hread
  obtain ⟨_, -, hread⟩ := hread
  obtain ⟨hstart, hunread⟩ := c.settling_start (P := P)
  obtain ⟨hsettling, hrecorded, hdone⟩ := settle_spec hstart hunread hread
  exact ⟨hsettling.merges, hrecorded, fun b => hsettling.settled b (hdone ▸ List.not_mem_nil)⟩

end MethodContext

end Qualify
