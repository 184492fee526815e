import Qualify.Proofs.Generation.Merging

namespace Qualify

/-- Books on a flow analysis under way. -/
structure Ledger where
  /-- How often each block was read. -/
  reads : BlockId → Nat
  /-- From where a block was entered when it was first read, or none where the body starts. -/
  origin : BlockId → Option BlockId
  /-- The number of blocks on the way back over the origins. -/
  depth : BlockId → Nat

namespace Ledger

/-- How often the origin of a block may have sent it something new. -/
def deliveries (l : Ledger) (b : BlockId) : Nat :=
  match l.origin b with
  | some a => l.reads a
  | none => 1

/-- The block is read once more; if it was never read, its origin is new, too. -/
structure Counts (l : Ledger) (b : BlockId) (l' : Ledger) : Prop where
  reads : l'.reads b = l.reads b + 1
  others : ∀ x ≠ b, l'.reads x = l.reads x ∧ l'.origin x = l.origin x ∧ l'.depth x = l.depth x

end Ledger

namespace MethodContext

variable {c : MethodContext} {P : Event → Prop} {s s' : FlowState} {l l' : Ledger} {b : BlockId}
  {rest : List BlockId}
  {input : FlowStore Location} {k : Nat}

def delivered (c : MethodContext) (s : FlowState) (b : BlockId) :
    Option BlockId → Option (FlowStore Location)
  | some a => s.edges.lookup (a, b)
  | none => some c.declared

/-- Where a block is entered from: a block that was read, or the start of the body. -/
def IsOrigin (c : MethodContext) (s : FlowState) (l : Ledger) (b : BlockId) : Option BlockId → Prop
  | some a =>
    a ∈ c.body.predecessors.getD b [] ∧ (s.inputs.getD a none).isSome = true ∧
      l.depth b = l.depth a + 1
  | none => b = c.body.entry ∧ l.depth b = 1

/-- What the books say on a block that was read with `input`. Whenever it is read again, its origin
sent something new, or shapes were merged. -/
structure Balanced (c : MethodContext) (s : FlowState) (l : Ledger) (b : BlockId)
    (input : FlowStore Location) :
    Prop where
  ordered : input.Ordered
  read : 1 ≤ l.reads b
  reads_le : l.reads b ≤ (s.merges.ofBlock b).length + l.deliveries b
  origin : c.IsOrigin s l b (l.origin b)
  store : ∃ store, c.delivered s b (l.origin b) = some store ∧
    (s.merges.Overlays b store input ∨ l.reads b < (s.merges.ofBlock b).length + l.deliveries b)

theorem mem_incoming_of_delivered {store : FlowStore Location}
    (horigin : c.IsOrigin s l b (l.origin b))
    (hdelivered : c.delivered s b (l.origin b) = some store) :
    store ∈ c.incoming s c.body.predecessors b := by
  rw [mem_incoming]
  generalize l.origin b = o at horigin hdelivered
  cases o with
  | some a => exact .inl ⟨a, horigin.1, hdelivered⟩
  | none => exact .inr ⟨horigin.1, (Option.some.inj hdelivered).symm⟩

/-- The books of a block that is not visited stay right. -/
theorem Balanced.other (h : c.Balanced s l b input) (hmerges : s.merges.Sublist s'.merges)
    (hmem : ∀ name shape, ((b, name), shape) ∈ s'.merges ↔ ((b, name), shape) ∈ s.merges)
    (hreads : l'.reads b = l.reads b) (hsame : l'.origin b = l.origin b)
    (horigin : c.IsOrigin s' l' b (l.origin b))
    (hdelivered : c.delivered s' b (l.origin b) = c.delivered s b (l.origin b) ∧
      l'.deliveries b = l.deliveries b ∨ (c.delivered s' b (l.origin b)).isSome = true ∧
      l.deliveries b < l'.deliveries b) : c.Balanced s' l' b input := by
  have hlength := (Merges.ofBlock_sublist hmerges b).length_le
  have hread := h.read
  have hle := h.reads_le
  obtain ⟨store, hstore, hoverlays⟩ := h.store
  rcases hdelivered with ⟨hdelivered, heq⟩ | ⟨hdelivered, hlt⟩
  · refine ⟨h.ordered, by omega, by omega, hsame ▸ horigin, store, ?_, ?_⟩
    · rw [hsame, hdelivered, hstore]
    · exact hoverlays.imp (fun ho => ho.congr hmem) fun hlt => by omega
  · obtain ⟨store', hstore'⟩ := Option.isSome_iff_exists.mp hdelivered
    exact ⟨h.ordered, by omega, by omega, hsame ▸ horigin, store', by rw [hsame, hstore'],
      .inr (by omega)⟩

def readBlocks (c : MethodContext) (s : FlowState) : Finset BlockId :=
  (Finset.range c.body.blocks.size).filter fun b => (s.inputs.getD b none).isSome = true

structure Balances (c : MethodContext) (s : FlowState) (l : Ledger) (k : Nat) : Prop where
  nodup : (s.merges.map (·.1)).Nodup
  edges : ∀ a x store, s.edges.lookup (a, x) = some store → (s.inputs.getD a none).isSome = true
  unread : ∀ x, s.inputs.getD x none = none → l.reads x = 0
  balanced : ∀ x input, s.inputs.getD x none = some input → c.Balanced s l x input
  depth_le : ∀ x, (s.inputs.getD x none).isSome = true → l.depth x ≤ (c.readBlocks s).card
  visits : k + s.waiting.length ≤ 1 + 2 * ∑ x ∈ Finset.range c.body.blocks.size, l.reads x

/-- Nothing is new: only shapes may be merged that the block had already. -/
theorem Balances.keep (h : c.Balances s l k) (hwaiting : s.waiting = b :: rest)
    (hv : c.Visits s b rest input s') (hsame : s.inputs.getD b none = some input)
    (hinputs : s'.inputs = s.inputs) (hedges : s'.edges = s.edges) (hrest : s'.waiting = rest) :
    c.Balances s' l (k + 1) := by
  have hdelivered (x : BlockId) (o : Option BlockId) : c.delivered s' x o = c.delivered s x o := by
    cases o <;> simp [delivered, hedges]
  have horigin (x : BlockId) (o : Option BlockId) : c.IsOrigin s' l x o ↔ c.IsOrigin s l x o := by
    cases o <;> simp [IsOrigin, hinputs]
  refine ⟨hv.merges.nodup h.nodup, by rw [hinputs, hedges]; exact h.edges,
    by rw [hinputs]; exact h.unread, fun x old hold => ?_, by
      rw [readBlocks, hinputs]; exact h.depth_le, ?_⟩
  · rw [hinputs] at hold
    have hx := h.balanced x old hold
    by_cases hxb : x = b
    · subst hxb
      obtain rfl := Option.some.inj (hsame.symm.trans hold)
      obtain ⟨store, hstore, -⟩ := hx.store
      have hlength := (Merges.ofBlock_sublist hv.merges.sublist x).length_le
      refine ⟨hx.ordered, hx.read, hx.reads_le.trans (by omega), (horigin x _).mpr hx.origin, store,
        ?_, .inl ?_⟩
      · rw [hdelivered, hstore]
      · exact hv.overlays store (mem_incoming_of_delivered hx.origin hstore)
    · exact hx.other hv.merges.sublist (hv.merges.mem_iff hxb) rfl rfl ((horigin x _).mpr hx.origin)
        (.inl ⟨hdelivered x _, rfl⟩)
  · have hvisits := h.visits
    rw [hwaiting, List.length_cons] at hvisits
    rw [hrest]
    omega

theorem IsRead.readBlocks_eq (hr : c.IsRead s b rest input s') :
    c.readBlocks s' = insert b (c.readBlocks s) := by
  ext x
  simp only [readBlocks, Finset.mem_insert, Finset.mem_filter, Finset.mem_range, hr.inputs]
  by_cases hx : x = b
  · simp [hx, hr.lt]
  · simp [hx]

/-- A block is read: what is left to show is what the books say on it. -/
theorem Balances.advance (h : c.Balances s l k) (hwaiting : s.waiting = b :: rest)
    (hv : c.Visits s b rest input s') (hr : c.IsRead s b rest input s') (hl : l.Counts b l')
    (hdepth : (s.inputs.getD b none).isSome = true → l'.depth b = l.depth b)
    (hle : l'.depth b ≤ (c.readBlocks s').card) (hb : c.Balanced s' l' b input) :
    c.Balances s' l' (k + 1) := by
  have hread (x : BlockId) (hx : (s.inputs.getD x none).isSome = true) :
      (s'.inputs.getD x none).isSome = true := by
    rw [hr.inputs]
    split_ifs
    · rfl
    · exact hx
  have hsum : ∑ x ∈ Finset.range c.body.blocks.size, l'.reads x =
      ∑ x ∈ Finset.range c.body.blocks.size, l.reads x + 1 := by
    have hmem : b ∈ Finset.range c.body.blocks.size := Finset.mem_range.mpr hr.lt
    rw [← Finset.add_sum_erase _ _ hmem, ← Finset.add_sum_erase _ l.reads hmem, hl.reads,
      Finset.sum_congr rfl fun x hx => (hl.others x (Finset.ne_of_mem_erase hx)).1]
    exact Nat.add_right_comm _ _ _
  refine ⟨hv.merges.nodup h.nodup, fun a x store hstore => ?_, fun x hx => ?_, fun x old hold => ?_,
    fun x hx => ?_, ?_⟩
  · by_cases ha : a = b
    · rw [hr.inputs, if_pos ha, Option.isSome_some]
    · rw [hr.edges a x ha] at hstore
      exact hread a (h.edges a x store hstore)
  · rw [hr.inputs] at hx
    split_ifs at hx with hxb
    rw [(hl.others x hxb).1]
    exact h.unread x hx
  · rw [hr.inputs] at hold
    split_ifs at hold with hxb
    · obtain rfl := Option.some.inj hold
      exact hxb ▸ hb
    · have hx := h.balanced x old hold
      obtain ⟨hreads, hsame, hdepthx⟩ := hl.others x hxb
      have horigin := hx.origin
      obtain ⟨store, hstore, -⟩ := hx.store
      refine hx.other hv.merges.sublist (hv.merges.mem_iff hxb) hreads hsame ?_ ?_
      · cases ho : l.origin x with
        | none =>
          rw [ho] at horigin
          exact ⟨horigin.1, hdepthx.trans horigin.2⟩
        | some a =>
          rw [ho] at horigin
          obtain ⟨hpred, hreada, hdeptha⟩ := horigin
          have heq : l'.depth a = l.depth a := by
            by_cases hab : a = b
            · subst hab
              exact hdepth hreada
            · exact (hl.others a hab).2.2
          exact ⟨hpred, hread a hreada, by rw [hdepthx, hdeptha, heq]⟩
      · simp only [Ledger.deliveries, hsame]
        cases ho : l.origin x with
        | none => exact .inl ⟨rfl, rfl⟩
        | some a =>
          by_cases hab : a = b
          · subst hab
            rw [ho] at hstore
            refine .inr ⟨hr.known x ?_, (Nat.lt_succ_self _).trans_eq hl.reads.symm⟩
            exact Option.isSome_iff_exists.mpr ⟨store, hstore⟩
          · exact .inl ⟨hr.edges a x hab, (hl.others a hab).1⟩
  · by_cases hxb : x = b
    · exact hxb ▸ hle
    · rw [hr.inputs, if_neg hxb] at hx
      rw [(hl.others x hxb).2.2, hr.readBlocks_eq]
      exact (h.depth_le x hx).trans (Finset.card_le_card (Finset.subset_insert _ _))
  · have hvisits := h.visits
    have hlength := hr.waiting
    rw [hwaiting, List.length_cons] at hvisits
    omega

/-- Read again, the block has something new from its origin, or a merged shape that it had not. -/
theorem Balances.reread (h : c.Balances s l k) (hwaiting : s.waiting = b :: rest)
    (hv : c.Visits s b rest input s') (hr : c.IsRead s b rest input s') {old : FlowStore Location}
    (hold : s.inputs.getD b none = some old) :
    ∃ l', c.Balances s' l' (k + 1) := by
  let l' : Ledger := { l with reads := Function.update l.reads b (l.reads b + 1) }
  have hreads : l'.reads b = l.reads b + 1 := Function.update_self ..
  have hothers (x : BlockId) (hx : x ≠ b) : l'.reads x = l.reads x := Function.update_of_ne hx ..
  have hl : l.Counts b l' := ⟨hreads, fun x hx => ⟨hothers x hx, rfl, rfl⟩⟩
  have hb := h.balanced b old hold
  have hsome : (s.inputs.getD b none).isSome = true := by rw [hold, Option.isSome_some]
  have hcard : l'.depth b ≤ (c.readBlocks s').card := by
    rw [hr.readBlocks_eq]
    exact (h.depth_le b hsome).trans (Finset.card_le_card (Finset.subset_insert _ _))
  refine ⟨l', h.advance hwaiting hv hr hl (fun _ => rfl) hcard ?_⟩
  -- The origin is another block, so that nothing changes there.
  have horigin (a : BlockId) (ha : l.origin b = some a) : a ≠ b := by
    have hdepth := hb.origin
    rw [ha] at hdepth
    rintro rfl
    exact absurd hdepth.2.2 (Nat.ne_of_lt (Nat.lt_succ_self _))
  have hdeliveries : l'.deliveries b = l.deliveries b := by
    show (match l.origin b with | some a => l'.reads a | none => 1) = _
    unfold Ledger.deliveries
    cases ho : l.origin b with
    | none => rfl
    | some a => exact hothers a (horigin a ho)
  have hdelivered : c.delivered s' b (l.origin b) = c.delivered s b (l.origin b) := by
    cases ho : l.origin b with
    | none => rfl
    | some a => exact hr.edges a b (horigin a ho)
  obtain ⟨store, hstore, hstale⟩ := hb.store
  have hoverlays := hv.overlays store (mem_incoming_of_delivered hb.origin hstore)
  have hle : l.reads b + 1 ≤ (s'.merges.ofBlock b).length + l.deliveries b := by
    have hsub := Merges.ofBlock_sublist hv.merges.sublist b
    rcases hstale with hstale | hlt
    · have hne : s.merges.ofBlock b ≠ s'.merges.ofBlock b := by
        intro heq
        have hsame : s'.merges.Overlays b store old := hstale.congr fun name shape => by
          rw [← Merges.mem_ofBlock, ← Merges.mem_ofBlock, heq]
        exact hr.new (hold.trans (congrArg some (hsame.unique hoverlays hb.ordered hv.ordered)))
      have hlt := lt_of_le_of_ne hsub.length_le fun heq => hne (hsub.eq_of_length heq)
      have hle := hb.reads_le
      omega
    · have hle := hsub.length_le
      omega
  refine ⟨hv.ordered, by omega, by omega, ?_, store, hdelivered.trans hstore, .inl hoverlays⟩
  show c.IsOrigin s' l' b (l.origin b)
  have hfrom := hb.origin
  cases ho : l.origin b with
  | none =>
    rw [ho] at hfrom
    exact hfrom
  | some a =>
    rw [ho] at hfrom
    refine ⟨hfrom.1, ?_, hfrom.2.2⟩
    rw [hr.inputs, if_neg (horigin a ho)]
    exact hfrom.2.1

/-- A block that was never read has an origin that was. -/
theorem Balances.firstRead (h : c.Balances s l k) (hs : c.Settling P s)
    (hwaiting : s.waiting = b :: rest) (hv : c.Visits s b rest input s')
    (hr : c.IsRead s b rest input s') (hnone : s.inputs.getD b none = none) :
    ∃ l', c.Balances s' l' (k + 1) := by
  have hnotSome : ¬(s.inputs.getD b none).isSome = true := by rw [hnone]; exact Bool.false_ne_true
  have hcard : (c.readBlocks s').card = (c.readBlocks s).card + 1 := by
    rw [hr.readBlocks_eq, Finset.card_insert_of_notMem]
    exact fun hmem => hnotSome (Finset.mem_filter.mp hmem).2
  obtain ⟨store, hstore⟩ :=
    List.exists_mem_of_ne_nil _ (hs.waiting b (hwaiting ▸ List.mem_cons_self))
  have hoverlays := hv.overlays store hstore
  -- Whatever the origin is, it and its depth are noted.
  have hnote (o : Option BlockId) (depth : Nat) (hdepth : depth ≤ (c.readBlocks s').card)
      (hdelivered : c.delivered s' b o = some store)
        (hpositive : ∀ a, o = some a → a ≠ b ∧ 1 ≤ l.reads a)
      (horigin : ∀ l' : Ledger, l'.depth b = depth → (∀ x ≠ b, l'.depth x = l.depth x) →
        c.IsOrigin s' l' b o) :
      ∃ l', c.Balances s' l' (k + 1) := by
    let l' : Ledger :=
      ⟨Function.update l.reads b 1, Function.update l.origin b o, Function.update l.depth b depth⟩
    have hreads : l'.reads b = 1 := Function.update_self ..
    have hdepthb : l'.depth b = depth := Function.update_self ..
    have horiginb : l'.origin b = o := Function.update_self ..
    have hothers (x : BlockId) (hx : x ≠ b) :
        l'.reads x = l.reads x ∧ l'.origin x = l.origin x ∧ l'.depth x = l.depth x :=
      ⟨Function.update_of_ne hx .., Function.update_of_ne hx .., Function.update_of_ne hx ..⟩
    have hl : l.Counts b l' := ⟨by rw [hreads, h.unread b hnone], hothers⟩
    have hdeliveries : 1 ≤ l'.deliveries b := by
      unfold Ledger.deliveries
      rw [horiginb]
      cases o with
      | none => exact Nat.le_refl 1
      | some a =>
        obtain ⟨hne, hpos⟩ := hpositive a rfl
        exact hpos.trans_eq (hothers a hne).1.symm
    refine ⟨l', h.advance hwaiting hv hr hl (fun hsome => absurd hsome hnotSome)
      (hdepthb ▸ hdepth) ?_⟩
    refine ⟨hv.ordered, by omega, by omega, ?_, store, horiginb.symm ▸ hdelivered, .inl hoverlays⟩
    rw [horiginb]
    exact horigin l' hdepthb fun x hx => (hothers x hx).2.2
  rcases mem_incoming.mp hstore with ⟨a, hpred, hedge⟩ | ⟨hentry, rfl⟩
  · have hread := h.edges a b store hedge
    have hab : a ≠ b := by
      rintro rfl
      exact hnotSome hread
    obtain ⟨olda, holda⟩ := Option.isSome_iff_exists.mp hread
    refine hnote (some a) (l.depth a + 1) ?_ ((hr.edges a b hab).trans hedge) ?_ ?_
    · have hle := h.depth_le a hread
      omega
    · rintro _ ⟨⟩
      exact ⟨hab, (h.balanced a olda holda).read⟩
    · intro l' hdepth hdepths
      refine ⟨hpred, ?_, by rw [hdepth, hdepths a hab]⟩
      rw [hr.inputs, if_neg hab]
      exact hread
  · refine hnote none 1 (by omega) rfl (by rintro _ ⟨⟩) fun l' hdepth _ => ⟨hentry, hdepth⟩

theorem Balances.visit (h : c.Balances s l k) (hs : c.Settling P s)
    (hwaiting : s.waiting = b :: rest)
    (hread : (c.visit c.body.predecessors { s with waiting := rest } b).Reads P s') :
    ∃ l', c.Balances s' l' (k + 1) := by
  obtain ⟨input, hv⟩ := visit_cases hs h.nodup hwaiting hread
  rcases hv.cases with ⟨hsame, hinputs, hedges, hrest⟩ | hr
  · exact ⟨l, h.keep hwaiting hv hsame hinputs hedges hrest⟩
  · cases hold : s.inputs.getD b none with
    | some old => exact h.reread hwaiting hv hr hold
    | none => exact h.firstRead hs hwaiting hv hr hold

/-- At most one shape is merged for each declared name. -/
theorem Balances.ofBlock_length_le (h : c.Balances s l k) (hs : c.Settling P s) (b : BlockId) :
    (s.merges.ofBlock b).length ≤ c.declared.size := by
  have hnodup : ((s.merges.ofBlock b).map (·.1)).Nodup := by
    unfold Merges.ofBlock
    rw [List.map_map]
    refine List.Nodup.map_on ?_ (List.Nodup.of_map _ h.nodup |>.filter _)
    intro m hm m' hm' heq
    obtain ⟨hm, hb⟩ := List.mem_filter.mp hm
    obtain ⟨hm', hb'⟩ := List.mem_filter.mp hm'
    apply List.inj_on_of_nodup_map h.nodup hm hm'
    exact Prod.ext ((beq_iff_eq.mp hb).trans (beq_iff_eq.mp hb').symm) heq
  have hsub : (s.merges.ofBlock b).map (·.1) ⊆ c.declared.names := by
    intro name hname
    obtain ⟨⟨_, shape⟩, hmem, rfl⟩ := List.mem_map.mp hname
    exact FlowStore.mem_names.mpr (hs.merges _ (Merges.mem_ofBlock.mp hmem)).1
  have hle := (hnodup.subperm hsub).length_le
  rwa [List.length_map, FlowStore.names, List.length_map] at hle

/-- The longer the way from the entry, the more often a block may be read. -/
theorem Balances.reads_le (h : c.Balances s l k) (hs : c.Settling P s) (x : BlockId)
    (hx : (s.inputs.getD x none).isSome = true) : l.reads x ≤ 1 + c.declared.size * l.depth x := by
  induction hd : l.depth x using Nat.strong_induction_on generalizing x with
  | _ d ih =>
    obtain ⟨input, hinput⟩ := Option.isSome_iff_exists.mp hx
    have hb := h.balanced x input hinput
    have hmerges := h.ofBlock_length_le hs x
    have hle := hb.reads_le
    have horigin := hb.origin
    unfold Ledger.deliveries at hle
    cases ho : l.origin x with
    | none =>
      rw [ho] at horigin hle
      have hdepth : d = 1 := hd.symm.trans horigin.2
      rw [hdepth, Nat.mul_one]
      dsimp only at hle
      omega
    | some a =>
      rw [ho] at horigin hle
      obtain ⟨-, hread, hdepth⟩ := horigin
      have ha := ih (l.depth a) (by omega) a hread rfl
      rw [← hd, hdepth, Nat.mul_succ]
      dsimp only at hle
      omega

theorem Balances.visits_le (h : c.Balances s l k) (hs : c.Settling P s) :
    k + s.waiting.length ≤ c.visitLimit := by
  have hreads (x : BlockId) : l.reads x ≤ 1 + c.declared.size * c.body.blocks.size := by
    by_cases hx : (s.inputs.getD x none).isSome = true
    · have hdepth : l.depth x ≤ c.body.blocks.size := by
        refine (h.depth_le x hx).trans ((Finset.card_filter_le _ _).trans ?_)
        rw [Finset.card_range]
      exact (h.reads_le hs x hx).trans (Nat.add_le_add_left (Nat.mul_le_mul_left _ hdepth) 1)
    · rw [h.unread x (Option.not_isSome_iff_eq_none.mp hx)]
      exact Nat.zero_le _
  have hsum := Finset.sum_le_card_nsmul (Finset.range c.body.blocks.size) l.reads _
    fun x _ => hreads x
  rw [Finset.card_range, smul_eq_mul] at hsum
  have hvisits := h.visits
  unfold visitLimit
  generalize c.body.blocks.size = n at *
  generalize c.declared.size = m at *
  nlinarith

end MethodContext

end Qualify
