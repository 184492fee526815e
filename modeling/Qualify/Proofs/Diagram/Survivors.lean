import Qualify.Proofs.Diagram.Alike
import Qualify.Proofs.Diagram.Support

namespace Qualify.Diagram

section Marked

variable {d : Diagram} {roots : List Edge}

/-- Marks only go from a node to its children. -/
theorem markDown_sound {P : Nat → Prop}
    (hP : ∀ i, P i → i ≠ Edge.terminal → P (d.node i).low.node ∧ P (d.node i).high.node) (i : Nat) :
    ∀ {marks : Array Bool}, (∀ j, marks.getD j false = true → P j) →
      ∀ j, (d.markDown i marks).getD j false = true → P j := by
  induction i with
  | zero => exact fun h => h
  | succ i ih =>
    intro marks hmarks
    unfold markDown
    split_ifs with h
    · obtain ⟨hlow, hhigh⟩ := hP _ (hmarks _ h.2) h.1
      refine ih fun j hj => ?_
      rcases getD_mark.mp hj with hj | ⟨rfl, -⟩
      · rcases getD_mark.mp hj with hj | ⟨rfl, -⟩
        · exact hmarks j hj
        · exact hlow
      · exact hhigh
    · exact ih hmarks

variable (hd : d.Reduced)

include hd

theorem terminal_mem_descendants : Edge.terminal ∈ d.descendants roots := by
  have hpos : 0 < d.nodeCount := hd.nodeCount_pos
  refine (mem_descendants roots).mpr ⟨hpos, markDown_of_marked ?_ _⟩
  refine ((foldl_marks roots _).2 _).mpr (.inl (getD_mark.mpr (.inr ⟨rfl, ?_⟩)))
  simpa [Edge.terminal] using hpos

variable (hroots : ∀ e ∈ roots, d.Has e)

include hroots

/-- The descendants of the roots are exactly the nodes below them. -/
theorem mem_descendants_iff {i : Nat} : i ∈ d.descendants roots ↔ d.Below roots i := by
  constructor
  · intro hi
    refine markDown_sound (P := d.Below roots) (fun j hj hne => ⟨hj.low hne, hj.high hne⟩)
      d.nodeCount (fun j hj => ?_) i ((mem_descendants roots).mp hi).2
    rw [rootMarks, (foldl_marks roots _).2, getD_mark, Array.getD_replicate_self] at hj
    rcases hj with (h | ⟨rfl, -⟩) | ⟨e, he, rfl, -⟩
    · cases h
    · exact .terminal
    · exact .root he
  · intro hi
    have hinner : ∀ {j}, j ∈ d.descendants roots → j ≠ Edge.terminal → 1 < j := fun hj hne =>
      lt_of_le_of_ne (descendants_pos hd hroots hj) (Ne.symm hne)
    induction hi with
    | terminal => exact terminal_mem_descendants hd
    | @root e he => exact node_mem_descendants he (hroots e he)
    | low _ hne ih => exact (children_mem_descendants hd ih (hinner ih hne)).1
    | high _ hne ih => exact (children_mem_descendants hd ih (hinner ih hne)).2

end Marked

section Names

variable {d : Diagram} {roots : List Edge}

theorem size_copyNodes_le (is : List Nat) (s : UniqueTable Node × Array Nat) :
    (is.foldl d.copyNode s).1.size ≤ s.1.size + (is.filter (· ≠ Edge.terminal)).length := by
  induction is generalizing s with
  | nil => exact Nat.le_refl _
  | cons i is ih =>
    rw [List.foldl_cons, List.filter_cons]
    refine (ih _).trans ?_
    by_cases hi : i = Edge.terminal
    · simp [copyNode, hi]
    · have hput :=
        s.1.size_put_le ⟨(d.node i).var, rename s.2 (d.node i).low, rename s.2 (d.node i).high⟩
      rw [copyNode, if_neg hi, if_pos (decide_eq_true hi), List.length_cons]
      dsimp only
      omega

theorem Named.alike {s : UniqueTable Node × Array Nat} (hd : d.Reduced) (hs : (d.copied s).Sound)
    {e : Edge} (he : d.Has e) (h : d.Named s e.node) : Alike d (d.copied s) e (rename s.2 e) :=
  ⟨hd, hs.toReduced, he, h.has_edge, fun a => (h.eval_edge a).symm⟩

theorem Alike.right_unique {d' : Diagram} {e f g : Edge} (h : Alike d d' e f)
    (h' : Alike d d' e g) : f = g :=
  h.reduced'.eq_of_eval_eq h.has' h'.has' fun a => (h.eval a).symm.trans (h'.eval a)

variable (hd : d.Reduced) (hroots : ∀ e ∈ roots, d.Has e)

include hd hroots

theorem alike_of_below {e : Edge} (h : d.Below roots e.node) :
    Alike d (d.collect roots).2 e (rename (d.copies roots).2 e) := by
  obtain ⟨hsound, hnamed⟩ := copies_named hd hroots
  rw [collect_eq]
  exact (hnamed _ ((mem_descendants_iff hd hroots).mpr h)).alike hd hsound (h.has hd hroots)

/-- Nodes of the same name have the same values, and so they are the same. -/
theorem name_injOn : Set.InjOn ((d.copies roots).2.getD · 0) {i | d.Below roots i} := by
  intro i hi j hj hij
  have hi' := alike_of_below hd hroots (e := ⟨i, false⟩) hi
  have hj' := alike_of_below hd hroots (e := ⟨j, false⟩) hj
  have hname : rename (d.copies roots).2 ⟨i, false⟩ = rename (d.copies roots).2 ⟨j, false⟩ :=
    congrArg (Edge.mk · false) hij
  rw [hname] at hi'
  exact congrArg Edge.node (hi'.symm.right_unique hj'.symm)

theorem name_mapsTo : Set.MapsTo ((d.copies roots).2.getD · 0) {i | d.Below roots i}
    (Finset.Icc 1 (d.collect roots).2.nodeCount) := by
  intro i hi
  exact Finset.mem_coe.mpr (Finset.mem_Icc.mpr (alike_of_below hd hroots (e := ⟨i, false⟩) hi).has')

theorem ncard_below : Set.ncard {i | d.Below roots i} = (d.descendants roots).length := by
  have hset : {i | d.Below roots i} = ((d.descendants roots).toFinset : Set Nat) :=
    Set.ext fun i =>
      ((Finset.mem_coe.trans List.mem_toFinset).trans (mem_descendants_iff hd hroots)).symm
  rw [hset, Set.ncard_coe_finset,
    List.toFinset_card_of_nodup ((descendants_increasing roots).imp Nat.ne_of_lt)]

theorem nodeCount_collect_le : (d.collect roots).2.nodeCount ≤ Set.ncard {i | d.Below roots i} := by
  have hnodup : (d.descendants roots).Nodup := (descendants_increasing roots).imp Nat.ne_of_lt
  have hle : (d.collect roots).2.nodeCount ≤
      1 + ((d.descendants roots).filter (· ≠ Edge.terminal)).length :=
    size_copyNodes_le (d.descendants roots) _
  have hfilter : (d.descendants roots).filter (· ≠ Edge.terminal) =
      (d.descendants roots).erase Edge.terminal := by
    rw [hnodup.erase_eq_filter]
    exact List.filter_congr fun i _ => by rw [Bool.eq_iff_iff]; simp
  have hlength := List.length_erase_add_one (@terminal_mem_descendants d roots hd)
  rw [hfilter] at hle
  rw [ncard_below hd hroots]
  omega

theorem nodeCount_collect : (d.collect roots).2.nodeCount = Set.ncard {i | d.Below roots i} := by
  apply Nat.le_antisymm (nodeCount_collect_le hd hroots)
  -- Different nodes have different values, and so different names.
  have hle := Set.ncard_le_ncard_of_injOn _ (name_mapsTo hd hroots) (name_injOn hd hroots)
  rwa [Set.ncard_coe_finset, Nat.card_Icc, Nat.add_sub_cancel] at hle

/-- No name is given twice, and there are no more nodes than names. -/
theorem name_surjOn : Set.SurjOn ((d.copies roots).2.getD · 0) {i | d.Below roots i}
    (Finset.Icc 1 (d.collect roots).2.nodeCount) := by
  intro j hj
  have hcard : Set.ncard (Finset.Icc 1 (d.collect roots).2.nodeCount : Set Nat) ≤
      Set.ncard {i | d.Below roots i} := by
    rw [Set.ncard_coe_finset, Nat.card_Icc, Nat.add_sub_cancel]
    exact nodeCount_collect_le hd hroots
  obtain ⟨i, hi, hij⟩ := Set.surj_on_of_inj_on_of_ncard_le (fun i _ => (d.copies roots).2.getD i 0)
    (fun i hi => name_mapsTo hd hroots hi) (fun i j hi hj => name_injOn hd hroots hi hj) hcard
    (Finset.finite_toSet _) j hj
  exact ⟨i, hi, hij.symm⟩

/-- The new name of a node below the roots is below the new names of the roots. -/
theorem below_name {i : Nat} (h : d.Below roots i) :
    (d.collect roots).2.Below (d.collect roots).1 ((d.copies roots).2.getD i 0) := by
  induction h with
  | terminal =>
    have hone := (alike_of_below hd hroots (e := .one) .terminal).eq_of_terminal rfl
    have hname : (d.copies roots).2.getD Edge.terminal 0 = Edge.terminal :=
      congrArg Edge.node hone.symm
    rw [hname]
    exact .terminal
  | root he => exact .root (List.mem_map_of_mem he)
  | @low i hi hne ih =>
    have halike := alike_of_below hd hroots (e := ⟨i, false⟩) hi
    have hlow := (halike.low hne).right_unique (alike_of_below hd hroots (hi.low hne))
    have hnode : ((d.collect roots).2.node ((d.copies roots).2.getD i 0)).low.node =
        (d.copies roots).2.getD (d.node i).low.node 0 := congrArg Edge.node hlow
    rw [← hnode]
    exact ih.low (halike.ne_terminal hne)
  | @high i hi hne ih =>
    have halike := alike_of_below hd hroots (e := ⟨i, false⟩) hi
    have hhigh := (halike.high hne).right_unique (alike_of_below hd hroots (hi.high hne))
    have hnode : ((d.collect roots).2.node ((d.copies roots).2.getD i 0)).high.node =
        (d.copies roots).2.getD (d.node i).high.node 0 := congrArg Edge.node hhigh
    rw [← hnode]
    exact ih.high (halike.ne_terminal hne)

end Names

section Session

open Session

/-- What a collection leaves of the diagram `d`: the roots under new names, and what is below
them. -/
structure Collected (d : Diagram) (roots : List Edge) (r : List Edge × Diagram) : Prop where
  /-- A root has its sign and its function under the new name. -/
  renamed : List.Forall₂ (fun e e' => e'.negated = e.negated ∧ ∀ a, r.2.eval a e' = d.eval a e)
    roots r.1
  canonical : Session.Canonical ⟨r.2, .one :: .zero :: r.1⟩
  /-- The number of nodes left is what a collection reports. -/
  nodeCount_eq : r.2.nodeCount = Set.ncard {i | d.Below roots i}
  below : ∀ i, 1 ≤ i → i ≤ r.2.nodeCount → r.2.Below r.1 i
  /-- Whatever is asked or collected later on, equal functions have equal edges. -/
  later : ∀ (cs : List Command) (s : Session), run? ⟨r.2, .one :: .zero :: r.1⟩ cs = some s →
    s.Canonical
  /-- Until the next collection, an edge is the new name of a root exactly if it has the function of
  that root. -/
  recognized : ∀ (rs : List Request) (s : Session),
    run? ⟨r.2, .one :: .zero :: r.1⟩ (rs.map .ask) = some s →
    List.Forall₂ (fun e e' => ∀ f, s.diagram.Has f →
      (f = e' ↔ ∀ a, s.diagram.eval a f = d.eval a e)) roots r.1

/-- In every state of a diagram a collection keeps its roots and nothing else, and the run can go on
with them. -/
theorem run_collect (sizing : Sizing) (cs : List Command) (s : Session)
    (h : (start sizing).run? cs = some s) (roots : List Edge)
    (hroots : ∀ e ∈ roots, s.diagram.Has e) :
    Collected s.diagram roots (s.diagram.collect roots) := by
  have hd := (run?_valid (start_valid sizing) h).sound.toReduced
  have hvalid := collect_valid hd hroots
  have hkept : ∀ e ∈ roots, ∀ a,
      (s.diagram.collect roots).2.eval a (rename (s.diagram.copies roots).2 e) =
          s.diagram.eval a e :=
    fun e he a => ((alike_of_below hd hroots (.root he)).eval a).symm
  refine ⟨?_, hvalid.canonical, nodeCount_collect hd hroots, fun i hi hic => ?_,
    fun cs' s' h' => (run?_valid hvalid h').canonical, fun rs s' h' => ?_⟩
  · exact List.forall₂_map_right_iff.mpr (List.forall₂_same.mpr fun e he => ⟨rfl, hkept e he⟩)
  · obtain ⟨j, hj, rfl⟩ := name_surjOn hd hroots (Finset.mem_coe.mpr (Finset.mem_Icc.mpr ⟨hi, hic⟩))
    exact below_name hd hroots hj
  · refine List.forall₂_map_right_iff.mpr (List.forall₂_same.mpr fun e he f hf => ?_)
    have hvalid' := run?_valid hvalid h'
    obtain ⟨hmem, heval⟩ := run?_asks hvalid h' (e := rename (s.diagram.copies roots).2 e)
      (List.mem_cons_of_mem _ (List.mem_cons_of_mem _ (List.mem_map_of_mem he)))
    refine (hvalid'.canonical.eq_iff f _ hf (hvalid'.has _ hmem)).trans (forall_congr' fun a => ?_)
    rw [heval a, hkept e he a]

/-- The roots are a literal, a constant and a negated term that comes twice; the nodes of two
literals are dropped. -/
theorem run_collect_repeated :
    ∃ s, (start ⟨0, 0⟩).run? [.ask (.lit ⟨1, by decide⟩), .ask (.lit ⟨-2, by decide⟩),
      .ask (.lit ⟨3, by decide⟩),
        .ask (.and ⟨2, false⟩ ⟨4, false⟩)] = some s ∧ s.diagram.nodeCount = 5 ∧
      (s.diagram.collect [⟨5, true⟩, ⟨4, false⟩, .zero, ⟨5, true⟩]).1 =
        [⟨3, true⟩, ⟨2, false⟩, .zero, ⟨3, true⟩] ∧
      Collected s.diagram [⟨5, true⟩, ⟨4, false⟩, .zero, ⟨5, true⟩]
        (s.diagram.collect [⟨5, true⟩, ⟨4, false⟩, .zero, ⟨5, true⟩]) := by
  have hrun : ((start ⟨0, 0⟩).run? [.ask (.lit ⟨1, by decide⟩), .ask (.lit ⟨-2, by decide⟩),
      .ask (.lit ⟨3, by decide⟩), .ask (.and ⟨2, false⟩ ⟨4, false⟩)]).map (fun s =>
      (s.diagram.nodeCount, (s.diagram.collect [⟨5, true⟩, ⟨4, false⟩, .zero, ⟨5, true⟩]).1)) =
      some (5, [⟨3, true⟩, ⟨2, false⟩, .zero, ⟨3, true⟩]) := by cbv
  obtain ⟨s, hs, hvalue⟩ := Option.map_eq_some_iff.mp hrun
  rw [Prod.mk.injEq] at hvalue
  have hroots : ∀ e ∈ [⟨5, true⟩, ⟨4, false⟩, Edge.zero, ⟨5, true⟩], s.diagram.Has e := by
    simp only [Has, hvalue.1]
    decide
  exact ⟨s, hs, hvalue.1, hvalue.2, run_collect _ _ s hs _ hroots⟩

end Session

end Qualify.Diagram
