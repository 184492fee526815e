import Qualify.Diagram.Collection
import Qualify.Proofs.Lists
import Qualify.Proofs.Diagram.Growth

namespace Qualify.Diagram

section Fresh

theorem coherent_terminalTable (bits : Fin 32) : (terminalTable bits).Coherent :=
  (UniqueTable.coherent_empty bits).addLoose Node.terminal

theorem reduced_terminalTable (sizing : Sizing) (cache : ResultCache (Edge × Edge × Edge) Edge) :
    Reduced ⟨sizing, terminalTable sizing.storageBits, cache⟩ where
  coherent := coherent_terminalTable _
  terminal := rfl
  linked_iff n := by
    have hc : nodeCount ⟨sizing, terminalTable sizing.storageBits, cache⟩ = 1 := rfl
    have hl : UniqueTable.linked (terminalTable sizing.storageBits).links n = false := by
      rcases n with _ | n <;> rfl
    rw [hc, hl]
    simp
    omega
  proper i h1 hi := absurd hi (Nat.not_le_of_lt h1)

theorem sound_new (sizing : Sizing) : (Diagram.new sizing).Sound :=
  ⟨reduced_terminalTable sizing _, fun k f g h r hk => by
    simp [Diagram.new, ResultCache.empty, Array.getElem?_replicate] at hk⟩

/-- Clearing the cache forgets every result. -/
theorem Reduced.sound_clear {d : Diagram} {cache : ResultCache (Edge × Edge × Edge) Edge}
    (hd : d.Reduced) (hc : d.cache = cache.clear) : d.Sound :=
  ⟨hd, fun k f g h r hk => by simp [hc, ResultCache.clear, Array.getElem?_replicate] at hk⟩

end Fresh

section Marks

variable {d : Diagram}

theorem getD_mark {marks : Array Bool} {i j : Nat} :
    (marks.setIfInBounds i true).getD j false = true ↔ marks.getD j false = true ∨ i = j ∧
      j < marks.size := by
  rw [Array.getD_setIfInBounds]
  split_ifs with h
  · simp only [h, and_self, or_true]
  · simp only [h, or_false]

theorem markDown_of_marked {marks : Array Bool} {j : Nat} (h : marks.getD j false = true)
    (i : Nat) :
    (d.markDown i marks).getD j false = true := by
  induction i generalizing marks with
  | zero => exact h
  | succ i ih =>
    unfold markDown
    split_ifs
    · exact ih (getD_mark.mpr (.inl (getD_mark.mpr (.inl h))))
    · exact ih h

variable (hd : d.Reduced)

include hd

/-- Children come before their parents, so that the pass over the first nodes leaves the others
alone; no node is a child at index zero. -/
theorem markDown_of_le {marks : Array Bool} {i j : Nat} (hi : i ≤ d.nodeCount)
    (hij : j = 0 ∨ i ≤ j) :
    (d.markDown i marks).getD j false = true ↔ marks.getD j false = true := by
  induction i generalizing marks with
  | zero => rfl
  | succ i ih =>
    unfold markDown
    split_ifs with h
    · have hp := hd.proper (i + 1) (lt_of_le_of_ne (Nat.succ_pos i) (Ne.symm h.1)) hi
      have hl := hp.low_lt
      have hh := hp.high_lt
      have hl1 := hp.low_pos
      have hh1 := hp.high_pos
      rw [ih (by omega) (by omega), getD_mark, getD_mark, or_assoc, or_iff_left]
      omega
    · exact ih (by omega) (by omega)

theorem markDown_closed {marks : Array Bool} (hm : marks.size = d.nodeCount + 1) {i : Nat}
    (hi : i ≤ d.nodeCount) :
    ∀ j ≤ i, 1 < j → (d.markDown i marks).getD j false = true →
      (d.markDown i marks).getD (d.node j).low.node false = true ∧
        (d.markDown i marks).getD (d.node j).high.node false = true := by
  induction i generalizing marks with
  | zero => intro j hj h1; omega
  | succ i ih =>
    intro j hj h1 hmark
    by_cases hji : j ≤ i
    · unfold markDown at hmark ⊢
      split_ifs at hmark ⊢
      · exact ih (by simpa using hm) (by omega) j hji h1 hmark
      · exact ih hm (by omega) j hji h1 hmark
    · obtain rfl : j = i + 1 := by omega
      have hp := hd.proper (i + 1) h1 hi
      have hl := hp.low_lt
      have hh := hp.high_lt
      rw [markDown_of_le hd hi (.inr (Nat.le_refl _))] at hmark
      unfold markDown
      rw [if_pos ⟨Nat.ne_of_gt h1, hmark⟩]
      refine ⟨markDown_of_marked (getD_mark.mpr (.inl (getD_mark.mpr (.inr ⟨rfl, ?_⟩)))) i,
        markDown_of_marked (getD_mark.mpr (.inr ⟨rfl, ?_⟩)) i⟩
      · omega
      · rw [Array.size_setIfInBounds]
        omega

end Marks

section Descendants

variable {d : Diagram} (roots : List Edge)

def rootMarks (d : Diagram) (roots : List Edge) : Array Bool :=
  roots.foldl (fun m e => m.setIfInBounds e.node true)
    ((Array.replicate (d.nodeCount + 1) false).setIfInBounds Edge.terminal true)

theorem foldl_marks (marks : Array Bool) :
    (roots.foldl (fun m e => m.setIfInBounds e.node true) marks).size = marks.size ∧
      ∀ i, (roots.foldl (fun m e => m.setIfInBounds e.node true) marks).getD i false = true ↔
        marks.getD i false = true ∨ ∃ e ∈ roots, e.node = i ∧ i < marks.size := by
  induction roots generalizing marks with
  | nil => simp
  | cons e roots ih =>
    obtain ⟨hsize, hmarks⟩ := ih (marks.setIfInBounds e.node true)
    rw [Array.size_setIfInBounds] at hsize hmarks
    refine ⟨hsize, fun i => ?_⟩
    rw [List.foldl_cons, hmarks i, getD_mark, List.exists_mem_cons_iff, or_assoc]

theorem size_rootMarks : (d.rootMarks roots).size = d.nodeCount + 1 := by
  rw [rootMarks, (foldl_marks roots _).1]
  simp

theorem mem_descendants {i : Nat} : i ∈ d.descendants roots ↔
    i ≤ d.nodeCount ∧ (d.markDown d.nodeCount (d.rootMarks roots)).getD i false = true := by
  rw [descendants, List.mem_filter, List.mem_range, Nat.lt_succ_iff]
  rfl

theorem descendants_increasing : (d.descendants roots).Pairwise (· < ·) :=
  List.pairwise_lt_range.sublist List.filter_sublist

variable {roots}

theorem node_mem_descendants {e : Edge} (he : e ∈ roots) (hh : d.Has e) :
    e.node ∈ d.descendants roots := by
  refine (mem_descendants roots).mpr ⟨hh.2, markDown_of_marked ?_ _⟩
  refine ((foldl_marks roots _).2 _).mpr (.inr ⟨e, he, rfl, ?_⟩)
  simpa using Nat.lt_succ_of_le hh.2

variable (hd : d.Reduced)

include hd

theorem descendants_pos (hroots : ∀ e ∈ roots, d.Has e) {i : Nat} (hi : i ∈ d.descendants roots) :
    1 ≤ i := by
  refine Nat.pos_of_ne_zero fun h0 => ?_
  subst h0
  have hmark := ((mem_descendants roots).mp hi).2
  rw [markDown_of_le hd (Nat.le_refl _) (.inl rfl), rootMarks, (foldl_marks roots _).2, getD_mark,
    Array.getD_replicate_self] at hmark
  obtain h | ⟨e, he, h0, -⟩ := hmark
  · simp [Edge.terminal] at h
  · have := (hroots e he).1
    omega

theorem children_mem_descendants {i : Nat} (hi : i ∈ d.descendants roots) (h1 : 1 < i) :
    (d.node i).low.node ∈ d.descendants roots ∧ (d.node i).high.node ∈ d.descendants roots := by
  obtain ⟨hic, hmark⟩ := (mem_descendants roots).mp hi
  have hp := hd.proper i h1 hic
  obtain ⟨hl, hh⟩ := markDown_closed hd (size_rootMarks roots) (Nat.le_refl _) i hic h1 hmark
  exact ⟨(mem_descendants roots).mpr ⟨hp.low_lt.le.trans hic, hl⟩,
    (mem_descendants roots).mpr ⟨hp.high_lt.le.trans hic, hh⟩⟩

end Descendants

section Copy

def copied (d : Diagram) (s : UniqueTable Node × Array Nat) : Diagram :=
  ⟨d.sizing, s.1, d.cache.clear⟩

structure Named (d : Diagram) (s : UniqueTable Node × Array Nat) (i : Nat) : Prop where
  has : (d.copied s).Has (rename s.2 ⟨i, false⟩)
  eval : ∀ a, (d.copied s).eval a (rename s.2 ⟨i, false⟩) = d.eval a ⟨i, false⟩

variable {d : Diagram} {s : UniqueTable Node × Array Nat}

theorem Named.has_edge {e : Edge} (h : d.Named s e.node) : (d.copied s).Has (rename s.2 e) := h.has

theorem Named.eval_edge {e : Edge} (h : d.Named s e.node) (a : Nat → Bool) :
    (d.copied s).eval a (rename s.2 e) = d.eval a e := by
  have := h.eval a
  simp only [rename, Diagram.eval, Bool.xor_false] at this ⊢
  rw [this]

variable (hd : d.Reduced) (hs : (d.copied s).Sound) (hsize : s.2.size = d.nodeCount + 1)

include hd hs hsize

theorem copyNode_spec {i : Nat} (hi : 1 < i) (hic : i ≤ d.nodeCount)
    (hlow : d.Named s (d.node i).low.node) (hhigh : d.Named s (d.node i).high.node) :
    (d.copied (d.copyNode s i)).Sound ∧ (d.copyNode s i).2.size = d.nodeCount + 1 ∧
      d.Named (d.copyNode s i) i ∧
      ∀ j, d.Named s j → d.Named (d.copyNode s i) j := by
  have hp := hd.proper i hi hic
  have hpast : ∀ e : Edge, d.Has e → d.Past (d.node i).var e → d.Named s e.node →
      (d.copied s).Past (d.node i).var (rename s.2 e) := by
    intro e he hpe hn
    apply hs.past_of_eval_congr hn.has_edge
    intro a b hab
    rw [hn.eval_edge a, hn.eval_edge b, hd.eval_congr hab he hpe]
  have hl : d.Has (d.node i).low := ⟨hp.low_pos, hp.low_lt.le.trans hic⟩
  have hh : d.Has (d.node i).high := ⟨hp.high_pos, hp.high_lt.le.trans hic⟩
  -- Names keep the values, so that different branches have different names.
  have hne : rename s.2 (d.node i).low ≠ rename s.2 (d.node i).high := by
    intro he
    apply hp.different
    apply hd.eq_of_eval_eq hl hh
    intro a
    rw [← hlow.eval_edge a, ← hhigh.eval_edge a, he]
  have hyields := mkNode_yields hs hp.var_pos hlow.has_edge hhigh.has_edge
    (hpast _ hl hp.low_past hlow) (hpast _ hh hp.high_past hhigh)
  have hmake : (d.copied s).mkNode (d.node i).var (rename s.2 (d.node i).low)
      (rename s.2 (d.node i).high) =
      (rename (d.copyNode s i).2 ⟨i, false⟩, d.copied (d.copyNode s i)) := by
    have hplain : (rename s.2 (d.node i).high).negated = false := hp.plain
    rw [mkNode, if_neg hne, copyNode, if_neg (show i ≠ Edge.terminal from Nat.ne_of_gt hi), hplain]
    simp only [rename, Array.getD_setIfInBounds, hsize]
    rw [if_pos ⟨trivial, by omega⟩]
    rfl
  rw [hmake] at hyields
  have hnew : d.Named (d.copyNode s i) i := by
    refine ⟨hyields.has, fun a => ?_⟩
    rw [hyields.eval a, hd.eval_eq a (e := ⟨i, false⟩) ⟨hi.le, hic⟩ (Nat.ne_of_gt hi),
      hlow.eval_edge, hhigh.eval_edge]
    rfl
  obtain ⟨k, hnames⟩ : ∃ k, (d.copyNode s i).2 = s.2.setIfInBounds i k :=
    ⟨_, by rw [copyNode, if_neg (show i ≠ Edge.terminal from Nat.ne_of_gt hi)]⟩
  refine ⟨hyields.sound, ?_, hnew, fun j hj => ?_⟩
  · rw [hnames, Array.size_setIfInBounds, hsize]
  · by_cases hij : i = j
    · exact hij ▸ hnew
    · have hkept : rename (d.copyNode s i).2 ⟨j, false⟩ = rename s.2 ⟨j, false⟩ := by
        rw [hnames, rename, rename, Array.getD_setIfInBounds, if_neg fun h => hij h.1]
      refine ⟨hkept ▸ hyields.grows.has hj.has, fun a => ?_⟩
      rw [hkept, hyields.grows.eval_eq hj.has hs.toReduced, hj.eval]

/-- Names are given in order, so that the children of a node have theirs before it. -/
theorem copyNodes_spec (is : List Nat) (hinc : is.Pairwise (· < ·))
    (hcount : ∀ i ∈ is, 1 ≤ i ∧ i ≤ d.nodeCount) (hone : d.Named s Edge.terminal)
    (hclosed : ∀ i ∈ is, 1 < i → (d.Named s (d.node i).low.node ∨ (d.node i).low.node ∈ is) ∧
      (d.Named s (d.node i).high.node ∨ (d.node i).high.node ∈ is)) :
    (d.copied (is.foldl d.copyNode s)).Sound ∧ (∀ i ∈ is, d.Named (is.foldl d.copyNode s) i) ∧
      ∀ j, d.Named s j → d.Named (is.foldl d.copyNode s) j := by
  induction is generalizing s with
  | nil => exact ⟨hs, by simp, fun j hj => hj⟩
  | cons i is ih =>
    obtain ⟨hlt, hinc⟩ := List.pairwise_cons.mp hinc
    obtain ⟨h1, hic⟩ := hcount i List.mem_cons_self
    have hstep : (d.copied (d.copyNode s i)).Sound ∧ (d.copyNode s i).2.size = d.nodeCount + 1 ∧
        d.Named (d.copyNode s i) i ∧ ∀ j, d.Named s j → d.Named (d.copyNode s i) j := by
      by_cases ht : i = Edge.terminal
      · rw [copyNode, if_pos ht]
        exact ⟨hs, hsize, ht ▸ hone, fun j hj => hj⟩
      · have hi : 1 < i := lt_of_le_of_ne h1 (Ne.symm ht)
        have hp := hd.proper i hi hic
        -- a smaller index is not to come any more
        have hbefore : ∀ j, j < i → d.Named s j ∨ j ∈ i :: is → d.Named s j := by
          rintro j hj (hn | hmem)
          · exact hn
          · rcases List.mem_cons.mp hmem with rfl | hmem
            · exact absurd hj (lt_irrefl _)
            · exact absurd (hlt j hmem) hj.not_gt
        obtain ⟨hl, hh⟩ := hclosed i List.mem_cons_self hi
        exact copyNode_spec hd hs hsize hi hic (hbefore _ hp.low_lt hl) (hbefore _ hp.high_lt hh)
    obtain ⟨hr, hsz, hnew, hkeep⟩ := hstep
    have hdone : ∀ j, d.Named s j ∨ j ∈ i :: is → d.Named (d.copyNode s i) j ∨ j ∈ is := by
      rintro j (hn | hmem)
      · exact .inl (hkeep j hn)
      · rcases List.mem_cons.mp hmem with rfl | hmem
        · exact .inl hnew
        · exact .inr hmem
    obtain ⟨hr', hall, hkeep'⟩ :=
      ih hr hsz hinc (fun j hj => hcount j (List.mem_cons_of_mem _ hj)) (hkeep _ hone)
      fun j hj hj1 => (hclosed j (List.mem_cons_of_mem _ hj) hj1).imp (hdone _) (hdone _)
    refine ⟨hr', fun j hj => ?_, fun j hj => hkeep' j (hkeep j hj)⟩
    rcases List.mem_cons.mp hj with rfl | hj
    · exact hkeep' _ hnew
    · exact hall j hj

end Copy

section Collect

def copies (d : Diagram) (roots : List Edge) : UniqueTable Node × Array Nat :=
  (d.descendants roots).foldl d.copyNode (terminalTable d.sizing.storageBits,
    (Array.replicate (d.nodeCount + 1) 0).setIfInBounds Edge.terminal Edge.terminal)

theorem collect_eq (d : Diagram) (roots : List Edge) :
    d.collect roots = (roots.map (rename (d.copies roots).2), d.copied (d.copies roots)) := rfl

variable {d : Diagram} (hd : d.Reduced) {roots : List Edge} (hroots : ∀ e ∈ roots, d.Has e)

include hd hroots

theorem copies_named :
    (d.copied (d.copies roots)).Sound ∧ ∀ i ∈ d.descendants roots, d.Named (d.copies roots) i := by
  let names := (Array.replicate (d.nodeCount + 1) 0).setIfInBounds Edge.terminal Edge.terminal
  have hname : rename names ⟨Edge.terminal, false⟩ = .one := by
    have := hd.nodeCount_pos
    rw [rename, Array.getD_setIfInBounds, if_pos ⟨rfl, by simp [Edge.terminal]; omega⟩]
    rfl
  have hstart : (d.copied (terminalTable d.sizing.storageBits, names)).Sound :=
    (reduced_terminalTable d.sizing d.cache.clear).sound_clear rfl
  have hone : d.Named (terminalTable d.sizing.storageBits, names) Edge.terminal :=
    ⟨by rw [hname]; exact hstart.has_one, fun a => by rw [hname]; rfl⟩
  obtain ⟨hsound, hall, -⟩ := copyNodes_spec hd hstart (by simp [names]) (d.descendants roots)
    (descendants_increasing roots)
    (fun i hi => ⟨descendants_pos hd hroots hi, ((mem_descendants roots).mp hi).1⟩) hone
    fun i hi h1 => (children_mem_descendants hd hi h1).imp .inr .inr
  exact ⟨hsound, hall⟩

/-- After a collection the roots have their values under new names, in a sound diagram. -/
theorem collect_spec : (d.collect roots).2.Sound ∧
    List.Forall₂ (fun e e' => (d.collect roots).2.Has e' ∧
      ∀ a, (d.collect roots).2.eval a e' = d.eval a e)
      roots (d.collect roots).1 := by
  obtain ⟨hsound, hall⟩ := copies_named hd hroots
  rw [collect_eq]
  refine ⟨hsound, List.forall₂_map_right_iff.mpr (List.forall₂_same.mpr fun e he => ?_)⟩
  have hn := hall e.node (node_mem_descendants he (hroots e he))
  exact ⟨hn.has_edge, hn.eval_edge⟩

end Collect

end Qualify.Diagram
