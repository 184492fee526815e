import Qualify.Proofs.Diagram.Canonical

namespace Qualify.Diagram

/-- Every node of `d` stands at the same index in `d'`. -/
structure Extends (d d' : Diagram) : Prop where
  nodeCount_le : d.nodeCount ≤ d'.nodeCount
  node_eq : ∀ i ≤ d.nodeCount, d'.node i = d.node i

namespace Extends

variable {d d' d'' : Diagram}

@[refl] theorem refl (d : Diagram) : d.Extends d := ⟨Nat.le_refl _, fun _ _ => rfl⟩

theorem trans (h : d.Extends d') (h' : d'.Extends d'') : d.Extends d'' :=
  ⟨h.nodeCount_le.trans h'.nodeCount_le,
    fun i hi => (h'.node_eq i (hi.trans h.nodeCount_le)).trans (h.node_eq i hi)⟩

variable (h : d.Extends d') {e : Edge} (he : d.Has e)

include h he

theorem has : d'.Has e := ⟨he.1, he.2.trans h.nodeCount_le⟩

theorem varOf_eq : d'.varOf e = d.varOf e := by rw [varOf, varOf, h.node_eq _ he.2]

theorem past_iff {v : Nat} : d'.Past v e ↔ d.Past v e := by rw [Past, Past, h.varOf_eq he]

theorem eval_eq (hd : d.Reduced) (a : Nat → Bool) : d'.eval a e = d.eval a e := by
  -- The edges of an old node go to old nodes, so that the new ones are never met.
  have hn : ∀ fuel i, 1 ≤ i → i ≤ d.nodeCount → d'.nodeValue a fuel i = d.nodeValue a fuel i := by
    intro fuel
    induction fuel with
    | zero => exact fun _ _ _ => rfl
    | succ fuel ih =>
      intro i hi hc
      unfold nodeValue
      rw [h.node_eq i hc]
      by_cases ht : i = Edge.terminal
      · simp [ht]
      · have hp := hd.proper i (lt_of_le_of_ne hi (Ne.symm ht)) hc
        simp only [if_neg ht]
        congr 1
        split_ifs
        · exact ih _ hp.high_pos ((Nat.le_of_lt hp.high_lt).trans hc)
        · exact ih _ hp.low_pos ((Nat.le_of_lt hp.low_lt).trans hc)
  unfold eval
  rw [hn _ _ he.1 he.2]

end Extends

theorem Proper.extend {d d' : Diagram} {i : Nat} {n : Node} (hp : d.Proper i n) (hx : d.Extends d')
    (hi : i ≤ d.nodeCount) : d'.Proper i n where
  var_pos := hp.var_pos
  low_pos := hp.low_pos
  low_lt := hp.low_lt
  high_pos := hp.high_pos
  high_lt := hp.high_lt
  low_past := (hx.past_iff ⟨hp.low_pos, (Nat.le_of_lt hp.low_lt).trans hi⟩).mpr hp.low_past
  high_past := (hx.past_iff ⟨hp.high_pos, (Nat.le_of_lt hp.high_lt).trans hi⟩).mpr hp.high_past
  different := hp.different
  plain := hp.plain

/-- A result of the conditional that may be remembered. -/
structure Recalls (d : Diagram) (f g h r : Edge) : Prop where
  has_condition : d.Has f
  has_then : d.Has g
  has_else : d.Has h
  has_result : d.Has r
  eval : ∀ a, d.eval a r = if d.eval a f then d.eval a g else d.eval a h

/-- A reduced diagram whose cache holds right results only. -/
structure Sound (d : Diagram) : Prop extends d.Reduced where
  recalls : ∀ (k : Nat) f g h r, d.cache.lines[k]? = some (some ((f, g, h), r)) → d.Recalls f g h r

theorem Recalls.extend {d d' : Diagram} (hd : d.Reduced) (hx : d.Extends d') {f g h r : Edge}
    (hr : d.Recalls f g h r) : d'.Recalls f g h r where
  has_condition := hx.has hr.has_condition
  has_then := hx.has hr.has_then
  has_else := hx.has hr.has_else
  has_result := hx.has hr.has_result
  eval a := by
    rw [hx.eval_eq hr.has_result hd, hx.eval_eq hr.has_condition hd, hx.eval_eq hr.has_then hd,
      hx.eval_eq hr.has_else hd, hr.eval a]

/-- The edge of `r` has the values `f` in a diagram that has all nodes of `d` unchanged. -/
structure Yields (d : Diagram) (f : (Nat → Bool) → Bool) (r : Edge × Diagram) : Prop where
  sound : r.2.Sound
  grows : d.Extends r.2
  has : r.2.Has r.1
  eval : ∀ a, r.2.eval a r.1 = f a

namespace Yields

variable {d : Diagram} {f : (Nat → Bool) → Bool} {r : Edge × Diagram}

theorem self (hd : d.Sound) {e : Edge} (he : d.Has e) : d.Yields (fun a => d.eval a e) (e, d) :=
  ⟨hd, .refl d, he, fun _ => rfl⟩

theorem congr {g : (Nat → Bool) → Bool} (h : d.Yields f r) (hfg : ∀ a, f a = g a) : d.Yields g r :=
  ⟨h.sound, h.grows, h.has, fun a => (h.eval a).trans (hfg a)⟩

theorem after {d₀ : Diagram} (h : d.Yields f r) (hx : d₀.Extends d) : d₀.Yields f r :=
  ⟨h.sound, hx.trans h.grows, h.has, h.eval⟩

theorem negateIf (h : d.Yields f r) (b : Bool) :
    d.Yields (fun a => f a ^^ b) (r.1.negateIf b, r.2) :=
  ⟨h.sound, h.grows, has_negateIf.mpr h.has, fun a => by rw [eval_negateIf, h.eval]⟩

/-- A function of the variables after `v` alone is given by an edge past `v`. -/
theorem past (h : d.Yields f r) {v : Nat} (hf : ∀ a b, (∀ u, v < u → a u = b u) → f a = f b) :
    r.2.Past v r.1 :=
  h.sound.past_of_eval_congr h.has fun a b hab => by rw [h.eval a, h.eval b, hf a b hab]

end Yields

section Put

variable {d : Diagram} (hd : d.Reduced) {n : Node} (hv : 0 < n.var) (hl : d.Has n.low)
  (hh : d.Has n.high)
  (hlp : d.Past n.var n.low) (hhp : d.Past n.var n.high) (hne : n.low ≠ n.high)
    (hplain : n.high.negated = false)

include hd hv hl hh hlp hhp hne hplain

/-- A proper node is found or appended, and the diagram stays reduced. -/
theorem Reduced.put :
    ({ d with table := (d.table.put n).2 } : Diagram).Reduced ∧
      d.Extends { d with table := (d.table.put n).2 } ∧
      1 < (d.table.put n).1 ∧ (d.table.put n).1 ≤ (d.table.put n).2.size ∧
      ({ d with table := (d.table.put n).2 } : Diagram).node (d.table.put n).1 = n := by
  rcases UniqueTable.put_cases hd.coherent n with
    ⟨m, hm, he, hlm, hval⟩ | ⟨-, hi, hc, hvals, hlinks⟩
  · rw [he]
    -- the terminal is in no bucket, and so it is never found
    have hm1 : 0 < m := ((hd.linked_iff m).mp hlm).1
    exact ⟨hd, .refl d, by dsimp only; omega, hm, node_succ hval⟩
  · have hsize : (d.table.put n).2.size = d.nodeCount + 1 := by
      simp [UniqueTable.size, hvals, nodeCount]
    have hpos := hd.nodeCount_pos
    have hx : d.Extends { d with table := (d.table.put n).2 } := by
      refine ⟨by simp only [nodeCount] at *; omega, fun i hi' => ?_⟩
      rcases Nat.eq_zero_or_pos i with rfl | hi0
      · simp [node, UniqueTable.value?]
      · have hlt : i - 1 < d.table.values.size := by
          simp only [nodeCount, UniqueTable.size] at hi'; omega
        simp [node, UniqueTable.value?, hvals, Array.getElem?_push, Nat.ne_of_gt hi0,
          Nat.ne_of_lt hlt]
    have hnode : ({ d with table := (d.table.put n).2 } : Diagram).node (d.nodeCount + 1) = n :=
      node_succ (by simp [hvals, nodeCount, UniqueTable.size])
    refine ⟨⟨hc, ?_, fun k => ?_, fun i hi1 hic => ?_⟩, hx, ?_, ?_, hi ▸ hnode⟩
    · rw [hvals, Array.getElem?_push,
        if_neg (Nat.ne_of_lt (show 0 < d.table.values.size from hpos))]
      exact hd.terminal
    · rw [hlinks k, UniqueTable.linked_pushed hd.coherent, hd.linked_iff k]
      change _ ∨ k = d.nodeCount ↔ 0 < k ∧ k < (d.table.put n).2.size
      omega
    · change i ≤ (d.table.put n).2.size at hic
      rcases Nat.lt_or_ge d.nodeCount i with hgt | hle
      · obtain rfl : i = d.nodeCount + 1 := by omega
        rw [hsize] at hic
        rw [hnode]
        exact ⟨hv, hl.1, Nat.lt_succ_of_le hl.2, hh.1, Nat.lt_succ_of_le hh.2,
          (hx.past_iff hl).mpr hlp, (hx.past_iff hh).mpr hhp, hne, hplain⟩
      · rw [hx.node_eq i hle]
        exact (hd.proper i hi1 hle).extend hx hle
    · rw [hi]
      simp only [nodeCount] at hpos
      omega
    · rw [hi, hsize]
      rfl

end Put

/-- A diagram that keeps its cache and only gets more nodes stays sound. -/
theorem Sound.extend {d : Diagram} (hd : d.Sound) {table : UniqueTable Node}
    (hr : ({ d with table } : Diagram).Reduced) (hx : d.Extends { d with table }) :
    ({ d with table } : Diagram).Sound :=
  ⟨hr, fun k f g h r hk => (hd.recalls k f g h r hk).extend hd.toReduced hx⟩

theorem Extends.withCache (d : Diagram) (cache : ResultCache (Edge × Edge × Edge) Edge) :
    d.Extends { d with cache } :=
  ⟨Nat.le_refl _, fun _ _ => rfl⟩

/-- The cache has no part in being reduced. -/
theorem Reduced.withCache {d : Diagram} (hd : d.Reduced)
    (cache : ResultCache (Edge × Edge × Edge) Edge) :
    ({ d with cache } : Diagram).Reduced :=
  ⟨hd.coherent, hd.terminal, hd.linked_iff,
    fun i h1 hi => (hd.proper i h1 hi).extend (.withCache d cache) hi⟩

theorem Sound.withCache {d : Diagram} (hd : d.Sound) {cache : ResultCache (Edge × Edge × Edge) Edge}
    (h : ∀ (k : Nat) f g h r, cache.lines[k]? = some (some ((f, g, h), r)) → d.Recalls f g h r) :
    ({ d with cache } : Diagram).Sound :=
  ⟨hd.toReduced.withCache cache,
    fun k f g h' r hk => (h k f g h' r hk).extend hd.toReduced (.withCache d cache)⟩

section Make

variable {d : Diagram} (hd : d.Sound)

include hd

theorem mkNode_yields {v : Nat} {low high : Edge} (hv : 0 < v) (hl : d.Has low) (hh : d.Has high)
    (hlp : d.Past v low) (hhp : d.Past v high) :
    d.Yields (fun a => if a v then d.eval a high else d.eval a low) (d.mkNode v low high) := by
  by_cases hne : low = high
  · subst hne
    rw [mkNode, if_pos rfl]
    exact (Yields.self hd hl).congr fun a => by simp
  · -- The sign of the high edge moves to the new edge.
    let n : Node := ⟨v, low.negateIf high.negated, high.negateIf high.negated⟩
    obtain ⟨hr, hx, hi1, hic, hnode⟩ :=
      hd.toReduced.put (n := n) hv (has_negateIf.mpr hl) (has_negateIf.mpr hh)
      (past_negateIf.mpr hlp) (past_negateIf.mpr hhp) (by rwa [Ne, Edge.negateIf_inj]) (by simp [n])
    have he : d.mkNode v low high =
        (⟨(d.table.put n).1, high.negated⟩, { d with table := (d.table.put n).2 }) := by
      rw [mkNode, if_neg hne]
    rw [he]
    have hhas : Has { d with table := (d.table.put n).2 } ⟨(d.table.put n).1, high.negated⟩ :=
      ⟨Nat.le_of_lt hi1, hic⟩
    refine ⟨hd.extend hr hx, hx, hhas, fun a => ?_⟩
    rw [hr.eval_eq a hhas (Nat.ne_of_gt hi1)]
    simp only [varOf, Diagram.low, Diagram.high, hnode]
    simp only [n, Edge.negateIf_negateIf_self, hx.eval_eq hl hd.toReduced,
      hx.eval_eq hh hd.toReduced]

theorem mkVar_yields (v : Var) : d.Yields (fun a => a v.number) (d.mkVar v) :=
  (mkNode_yields hd v.positive hd.has_zero hd.has_one past_zero past_one).congr fun a => by simp

theorem mkLit_yields (l : Lit) : d.Yields (fun a => a l.var.number ^^ l.isNegated) (d.mkLit l) :=
  (mkVar_yields hd l.var).negateIf l.isNegated

end Make

end Qualify.Diagram
