import Qualify.Diagram.Basic
import Qualify.Proofs.UniqueTable

namespace Qualify

namespace Edge

@[simp] theorem node_neg (e : Edge) : (-e).node = e.node := rfl

@[simp] theorem negated_neg (e : Edge) : (-e).negated = !e.negated := rfl

instance : InvolutiveNeg Edge := ⟨fun e => by cases e; simp [Neg.neg]⟩

@[simp] theorem negateIf_false (e : Edge) : e.negateIf false = e := rfl

@[simp] theorem negateIf_true (e : Edge) : e.negateIf true = -e := rfl

@[simp] theorem node_negateIf (e : Edge) (b : Bool) : (e.negateIf b).node = e.node := by
  cases b <;> rfl

@[simp] theorem negated_negateIf (e : Edge) (b : Bool) :
    (e.negateIf b).negated = (e.negated ^^ b) := by
  cases b <;> simp

@[simp] theorem negateIf_negateIf_self (e : Edge) (b : Bool) : (e.negateIf b).negateIf b = e := by
  cases b <;> simp

theorem negateIf_inj {e e' : Edge} {b : Bool} : e.negateIf b = e'.negateIf b ↔ e = e' := by
  cases b <;> simp

theorem ext_iff {e e' : Edge} : e = e' ↔ e.node = e'.node ∧ e.negated = e'.negated := by
  cases e; cases e'; simp

end Edge

namespace Diagram

def nodeValue (d : Diagram) (a : Nat → Bool) : Nat → Nat → Bool
  | 0, _ => true
  | fuel + 1, i =>
    if i = Edge.terminal then true
    else
      let n := d.node i
      let e := if a n.var then n.high else n.low
      nodeValue d a fuel e.node ^^ e.negated

/-- The value of an edge where the variables have the values `a`. -/
def eval (d : Diagram) (a : Nat → Bool) (e : Edge) : Bool :=
  d.nodeValue a e.node e.node ^^ e.negated

/-- The edge goes to a stored node. -/
def Has (d : Diagram) (e : Edge) : Prop := 1 ≤ e.node ∧ e.node ≤ d.nodeCount

/-- Every variable that the edge tests comes after `v`. -/
def Past (d : Diagram) (v : Nat) (e : Edge) : Prop := e.node = Edge.terminal ∨ v < d.varOf e

/-- What the node at index `i` looks like: its edges go to older nodes that test later variables,
they differ, and the high one is not negated. -/
structure Proper (d : Diagram) (i : Nat) (n : Node) : Prop where
  var_pos : 0 < n.var
  low_pos : 1 ≤ n.low.node
  low_lt : n.low.node < i
  high_pos : 1 ≤ n.high.node
  high_lt : n.high.node < i
  low_past : d.Past n.var n.low
  high_past : d.Past n.var n.high
  different : n.low ≠ n.high
  plain : n.high.negated = false

/-- A reduced ordered diagram: the terminal is the only node outside of the buckets, and all others
are proper. -/
structure Reduced (d : Diagram) : Prop where
  coherent : d.table.Coherent
  terminal : d.table.values[0]? = some Node.terminal
  linked_iff : ∀ n, UniqueTable.linked d.table.links n = true ↔ 0 < n ∧ n < d.nodeCount
  proper : ∀ i, 1 < i → i ≤ d.nodeCount → d.Proper i (d.node i)

section Access

variable {d : Diagram}

theorem values_pred {i : Nat} (h : 1 ≤ i) (hi : i ≤ d.nodeCount) :
    d.table.values[i - 1]? = some (d.node i) := by
  have hlt : i - 1 < d.table.values.size := by simp only [nodeCount, UniqueTable.size] at hi; omega
  simp [node, UniqueTable.value?, Nat.ne_of_gt h, Array.getElem?_eq_getElem hlt]

theorem node_succ {m : Nat} {n : Node} (h : d.table.values[m]? = some n) : d.node (m + 1) = n := by
  simp [node, UniqueTable.value?, h]

@[simp] theorem has_neg {e : Edge} : d.Has (-e) ↔ d.Has e := Iff.rfl

@[simp] theorem has_negateIf {e : Edge} {b : Bool} : d.Has (e.negateIf b) ↔ d.Has e := by simp [Has]

@[simp] theorem varOf_negateIf (e : Edge) (b : Bool) : d.varOf (e.negateIf b) = d.varOf e := by
  simp [varOf]

@[simp] theorem past_neg {v : Nat} {e : Edge} : d.Past v (-e) ↔ d.Past v e := Iff.rfl

@[simp] theorem past_negateIf {v : Nat} {e : Edge} {b : Bool} :
    d.Past v (e.negateIf b) ↔ d.Past v e := by
  simp [Past]

theorem Past.mono {u v : Nat} {e : Edge} (h : d.Past v e) (huv : u ≤ v) : d.Past u e :=
  h.imp id fun h => Nat.lt_of_le_of_lt huv h

@[simp] theorem past_one {v : Nat} : d.Past v .one := .inl rfl

@[simp] theorem past_zero {v : Nat} : d.Past v .zero := .inl rfl

theorem eq_one_or_zero {e : Edge} (h : e.node = Edge.terminal) : e = .one ∨ e = .zero := by
  rcases e with ⟨i, _ | _⟩
  · exact .inl (by simp_all [Edge.one])
  · exact .inr (by simp_all [Edge.zero])

end Access

section Evaluation

variable {d : Diagram} (a : Nat → Bool)

@[simp] theorem eval_neg (e : Edge) : d.eval a (-e) = !d.eval a e := by simp [eval]

@[simp] theorem eval_negateIf (e : Edge) (b : Bool) :
    d.eval a (e.negateIf b) = (d.eval a e ^^ b) := by
  cases b <;> simp

@[simp] theorem eval_one : d.eval a .one = true := rfl

@[simp] theorem eval_zero : d.eval a .zero = false := rfl

end Evaluation

namespace Reduced

variable {d : Diagram} (hd : d.Reduced)

include hd

theorem nodeCount_pos : 1 ≤ d.nodeCount := (Array.getElem?_eq_some_iff.mp hd.terminal).1

theorem has_one : d.Has .one := ⟨Nat.le_refl 1, hd.nodeCount_pos⟩

theorem has_zero : d.Has .zero := ⟨Nat.le_refl 1, hd.nodeCount_pos⟩

theorem node_terminal : d.node Edge.terminal = Node.terminal := node_succ hd.terminal

theorem varOf_eq_zero {e : Edge} (he : d.Has e) : d.varOf e = 0 ↔ e.node = Edge.terminal := by
  constructor
  · intro h
    by_contra hne
    have hlt : 1 < e.node := lt_of_le_of_ne he.1 (Ne.symm hne)
    exact absurd h (Nat.ne_of_gt (hd.proper _ hlt he.2).var_pos)
  · intro h
    rw [varOf, h, hd.node_terminal]
    rfl

section Inner

variable {e : Edge} (he : d.Has e) (hne : e.node ≠ Edge.terminal)

include he hne

theorem proper_of_ne : d.Proper e.node (d.node e.node) :=
  hd.proper _ (lt_of_le_of_ne he.1 (Ne.symm hne)) he.2

theorem varOf_pos : 0 < d.varOf e := (hd.proper_of_ne he hne).var_pos

theorem low_lt : (d.low e).node < e.node := by
  simpa [low] using (hd.proper_of_ne he hne).low_lt

theorem high_lt : (d.high e).node < e.node := by
  simpa [high] using (hd.proper_of_ne he hne).high_lt

theorem has_low : d.Has (d.low e) :=
  ⟨by simpa [low] using (hd.proper_of_ne he hne).low_pos,
    (Nat.le_of_lt (hd.low_lt he hne)).trans he.2⟩

theorem has_high : d.Has (d.high e) :=
  ⟨by simpa [high] using (hd.proper_of_ne he hne).high_pos,
    (Nat.le_of_lt (hd.high_lt he hne)).trans he.2⟩

theorem past_low : d.Past (d.varOf e) (d.low e) := by
  simpa [low, varOf] using (hd.proper_of_ne he hne).low_past

theorem past_high : d.Past (d.varOf e) (d.high e) := by
  simpa [high, varOf] using (hd.proper_of_ne he hne).high_past

theorem low_ne_high : d.low e ≠ d.high e := by
  unfold low high
  rw [Ne, Edge.negateIf_inj]
  exact (hd.proper_of_ne he hne).different

end Inner

/-- More depth than the index of the node changes nothing. -/
theorem nodeValue_eq (a : Nat → Bool) {i : Nat} (hi : 1 ≤ i) (hc : i ≤ d.nodeCount) :
    ∀ {fuel}, i ≤ fuel → d.nodeValue a fuel i = d.nodeValue a i i := by
  induction i using Nat.strong_induction_on with
  | _ i ih =>
    intro fuel hf
    obtain ⟨fuel, rfl⟩ := Nat.exists_eq_add_of_le' (hi.trans hf)
    obtain ⟨j, rfl⟩ := Nat.exists_eq_add_of_le' hi
    unfold nodeValue
    by_cases ht : j + 1 = Edge.terminal
    · simp [ht]
    · have hp := hd.proper (j + 1) (lt_of_le_of_ne hi (Ne.symm ht)) hc
      have hlow := hp.low_lt
      have hhigh := hp.high_lt
      simp only [if_neg ht]
      congr 1
      split_ifs
      · rw [ih _ hhigh hp.high_pos (by omega) (by omega),
          ih _ hhigh hp.high_pos (by omega) (by omega : _ ≤ j)]
      · rw [ih _ hlow hp.low_pos (by omega) (by omega),
          ih _ hlow hp.low_pos (by omega) (by omega : _ ≤ j)]

/-- An edge to an inner node has the value of the edge that its variable chooses. -/
theorem eval_eq (a : Nat → Bool) {e : Edge} (he : d.Has e) (hne : e.node ≠ Edge.terminal) :
    d.eval a e = if a (d.varOf e) then d.eval a (d.high e) else d.eval a (d.low e) := by
  have hp := hd.proper_of_ne he hne
  obtain ⟨j, hj⟩ := Nat.exists_eq_add_of_le' he.1
  have hlow := hp.low_lt
  have hhigh := hp.high_lt
  have hc := he.2
  unfold eval low high varOf
  simp only [Edge.node_negateIf, Edge.negated_negateIf]
  rw [hj] at hne hp hlow hhigh hc ⊢
  conv_lhs => rw [nodeValue]
  simp only [if_neg hne]
  split_ifs
  · rw [hd.nodeValue_eq a hp.high_pos (by omega) (by omega), Bool.xor_assoc]
  · rw [hd.nodeValue_eq a hp.low_pos (by omega) (by omega), Bool.xor_assoc]

/-- Only the variables after `v` matter to an edge that tests no others. -/
theorem eval_congr {v : Nat} {a b : Nat → Bool} (hab : ∀ u, v < u → a u = b u) {e : Edge}
    (he : d.Has e) (hp : d.Past v e) : d.eval a e = d.eval b e := by
  induction hn : e.node using Nat.strong_induction_on generalizing e with
  | _ n ih =>
    subst hn
    by_cases hne : e.node = Edge.terminal
    · rcases eq_one_or_zero hne with rfl | rfl <;> rfl
    · have hv : v < d.varOf e := hp.resolve_left hne
      rw [hd.eval_eq a he hne, hd.eval_eq b he hne, hab _ hv]
      have hlow := ih _ (hd.low_lt he hne) (hd.has_low he hne)
        ((hd.past_low he hne).mono (Nat.le_of_lt hv)) rfl
      have hhigh := ih _ (hd.high_lt he hne) (hd.has_high he hne)
        ((hd.past_high he hne).mono (Nat.le_of_lt hv)) rfl
      rw [hlow, hhigh]

theorem eval_update {v : Nat} (a : Nat → Bool) (b : Bool) {e : Edge} (he : d.Has e)
    (hp : d.Past v e) :
    d.eval (Function.update a v b) e = d.eval a e :=
  hd.eval_congr (fun _ hu => Function.update_of_ne (Nat.ne_of_gt hu) _ _) he hp

/-- No high edge is negated, so that every node is true where all variables are. -/
theorem eval_true {e : Edge} (he : d.Has e) : d.eval (fun _ => true) e = !e.negated := by
  induction hn : e.node using Nat.strong_induction_on generalizing e with
  | _ n ih =>
    subst hn
    by_cases hne : e.node = Edge.terminal
    · rcases eq_one_or_zero hne with rfl | rfl <;> rfl
    · rw [hd.eval_eq _ he hne, if_pos rfl, ih _ (hd.high_lt he hne) (hd.has_high he hne) rfl]
      simp [high, (hd.proper_of_ne he hne).plain]

theorem node_injective {i j : Nat} (hi : 1 < i) (hic : i ≤ d.nodeCount) (hj : 1 < j)
    (hjc : j ≤ d.nodeCount) (h : d.node i = d.node j) : i = j := by
  have hvi := values_pred (Nat.le_of_lt hi) hic
  have hvj := values_pred (Nat.le_of_lt hj) hjc
  rw [h] at hvi
  have hli : UniqueTable.linked d.table.links (i - 1) = true := (hd.linked_iff _).mpr (by omega)
  have hlj : UniqueTable.linked d.table.links (j - 1) = true := (hd.linked_iff _).mpr (by omega)
  have := hd.coherent.distinct _ _ _ hli hlj hvi hvj
  omega

/-- The terminal is no copy of another node either, as it tests no variable. -/
theorem node_inj {i j : Nat} (hi : 1 ≤ i) (hic : i ≤ d.nodeCount) (hj : 1 ≤ j)
    (hjc : j ≤ d.nodeCount) (h : d.node i = d.node j) : i = j := by
  have hvar : d.varOf ⟨i, false⟩ = d.varOf ⟨j, false⟩ := congrArg Node.var h
  have hti := hd.varOf_eq_zero (e := ⟨i, false⟩) ⟨hi, hic⟩
  have htj := hd.varOf_eq_zero (e := ⟨j, false⟩) ⟨hj, hjc⟩
  rw [hvar, htj] at hti
  by_cases ht : i = Edge.terminal
  · exact ht.trans (hti.mpr ht).symm
  · have htj : j ≠ Edge.terminal := fun hj => ht (hti.mp hj)
    exact hd.node_injective (lt_of_le_of_ne hi (Ne.symm ht)) hic
      (lt_of_le_of_ne hj (Ne.symm htj)) hjc h

/-- Two edges of an inner node that have the same values everywhere are not two. -/
theorem branches_differ {e : Edge} (he : d.Has e) (hne : e.node ≠ Edge.terminal)
    (hcanon : ∀ f g : Edge, d.Has f → d.Has g → f.node < e.node → g.node < e.node →
      (∀ a, d.eval a f = d.eval a g) → f = g) :
    ¬∀ a b, (∀ u, u ≠ d.varOf e → a u = b u) → d.eval a e = d.eval b e := by
  intro hind
  apply hd.low_ne_high he hne
  apply hcanon _ _ (hd.has_low he hne) (hd.has_high he hne) (hd.low_lt he hne) (hd.high_lt he hne)
  intro a
  have h := hind (Function.update a (d.varOf e) false) (Function.update a (d.varOf e) true)
      fun u hu => by
    rw [Function.update_of_ne hu, Function.update_of_ne hu]
  rw [hd.eval_eq _ he hne, hd.eval_eq _ he hne] at h
  simpa [hd.eval_update _ _ (hd.has_low he hne) (hd.past_low he hne),
    hd.eval_update _ _ (hd.has_high he hne) (hd.past_high he hne)] using h

/-- Edges of the same values that test the same variable have branches of the same values. -/
theorem branch_eval_eq {e f : Edge} (he : d.Has e) (hf : d.Has f) (het : e.node ≠ Edge.terminal)
    (hft : f.node ≠ Edge.terminal) (hvar : d.varOf e = d.varOf f) (h : ∀ a, d.eval a e = d.eval a f)
    (b : Bool) (a : Nat → Bool) :
    d.eval a (if b then d.high e else d.low e) = d.eval a (if b then d.high f else d.low f) := by
  have hb := h (Function.update a (d.varOf e) b)
  rw [hd.eval_eq _ he het, hd.eval_eq _ hf hft, ← hvar, Function.update_self,
    hd.eval_update _ _ (hd.has_low he het) (hd.past_low he het),
    hd.eval_update _ _ (hd.has_high he het) (hd.past_high he het),
    hd.eval_update _ _ (hd.has_low hf hft) (hvar ▸ hd.past_low hf hft),
    hd.eval_update _ _ (hd.has_high hf hft) (hvar ▸ hd.past_high hf hft)] at hb
  cases b <;> simpa using hb

/-- A node is stored once, so that its variable and branches decide an edge up to its sign. -/
theorem eq_of_branches {e f : Edge} (he : d.Has e) (hf : d.Has f) (het : e.node ≠ Edge.terminal)
    (hft : f.node ≠ Edge.terminal) (hsign : e.negated = f.negated) (hvar : d.varOf e = d.varOf f)
    (hlow : d.low e = d.low f) (hhigh : d.high e = d.high f) : e = f := by
  unfold low at hlow
  unfold high at hhigh
  rw [hsign, Edge.negateIf_inj] at hlow hhigh
  have hnode : d.node e.node = d.node f.node := by
    cases hE : d.node e.node
    cases hF : d.node f.node
    simp_all [varOf]
  refine Edge.ext_iff.mpr ⟨?_, hsign⟩
  exact hd.node_injective (lt_of_le_of_ne he.1 (Ne.symm het)) he.2
    (lt_of_le_of_ne hf.1 (Ne.symm hft)) hf.2 hnode

theorem eq_of_eval_eq_below (n : Nat) :
    ∀ e f : Edge, d.Has e → d.Has f → e.node ≤ n → f.node ≤ n → (∀ a, d.eval a e = d.eval a f) →
      e = f := by
  induction n with
  | zero =>
    intro e f he hf hen
    have := he.1
    omega
  | succ n ih =>
    intro e f he hf hen hfn h
    -- The values where all variables are true tell the signs apart.
    have hsign : e.negated = f.negated := by
      have ht := h fun _ => true
      rwa [hd.eval_true he, hd.eval_true hf, Bool.not_inj_iff] at ht
    have hcanon : ∀ {e : Edge}, e.node ≤ n + 1 → ∀ f g : Edge, d.Has f → d.Has g → f.node < e.node →
        g.node < e.node →
        (∀ a, d.eval a f = d.eval a g) → f = g := by
      intro e hen f g hf hg hfe hge
      exact ih f g hf hg (by omega) (by omega)
    -- A node tests the smallest variable on which its values depend.
    have hless : ∀ {e f : Edge}, d.Has e → d.Has f → e.node ≤ n + 1 →
        (∀ a, d.eval a e = d.eval a f) →
        e.node ≠ Edge.terminal → ¬d.Past (d.varOf e) f := by
      intro e f he hf hen h hne hp
      apply hd.branches_differ he hne (hcanon hen)
      intro a b hab
      rw [h a, h b]
      exact hd.eval_congr (fun u hu => hab u (Nat.ne_of_gt hu)) hf hp
    by_cases het : e.node = Edge.terminal
    · by_cases hft : f.node = Edge.terminal
      · exact Edge.ext_iff.mpr ⟨het.trans hft.symm, hsign⟩
      · exact absurd (.inl het) (hless hf he hfn (fun a => (h a).symm) hft)
    · by_cases hft : f.node = Edge.terminal
      · exact absurd (.inl hft) (hless he hf hen h het)
      · have hvar : d.varOf e = d.varOf f := by
          apply Nat.le_antisymm
          · exact Nat.le_of_not_lt fun hlt => hless hf he hfn (fun a => (h a).symm) hft (.inr hlt)
          · exact Nat.le_of_not_lt fun hlt => hless he hf hen h het (.inr hlt)
        -- The nodes are the same as soon as their branches are, and these go to smaller nodes.
        have hchild := hd.branch_eval_eq he hf het hft hvar h
        have hle := hd.low_lt he het
        have hlf := hd.low_lt hf hft
        have hhe := hd.high_lt he het
        have hhf := hd.high_lt hf hft
        have hlow : d.low e = d.low f :=
          ih _ _ (hd.has_low he het) (hd.has_low hf hft) (by omega) (by omega) (hchild false)
        have hhigh : d.high e = d.high f :=
          ih _ _ (hd.has_high he het) (hd.has_high hf hft) (by omega) (by omega) (hchild true)
        exact hd.eq_of_branches he hf het hft hsign hvar hlow hhigh

/-- A reduced diagram is canonical: edges with the same values are the same. -/
theorem eq_of_eval_eq {e f : Edge} (he : d.Has e) (hf : d.Has f)
    (h : ∀ a, d.eval a e = d.eval a f) : e = f :=
  hd.eq_of_eval_eq_below (max e.node f.node) e f he hf (Nat.le_max_left _ _)
    (Nat.le_max_right _ _) h

theorem eq_zero_iff {e : Edge} (he : d.Has e) : e = .zero ↔ ∀ a, d.eval a e = false :=
  ⟨fun h a => by rw [h, eval_zero],
    fun h => hd.eq_of_eval_eq he hd.has_zero fun a => by rw [h a, eval_zero]⟩

/-- An edge that depends on the variables after `v` alone tests no others. -/
theorem past_of_eval_congr {v : Nat} {e : Edge} (he : d.Has e)
    (h : ∀ a b, (∀ u, v < u → a u = b u) → d.eval a e = d.eval b e) : d.Past v e := by
  by_cases hne : e.node = Edge.terminal
  · exact .inl hne
  · refine .inr (Nat.lt_of_not_le fun hle => ?_)
    apply hd.branches_differ he hne fun f g hf hg _ _ hfg => hd.eq_of_eval_eq hf hg hfg
    intro a b hab
    exact h a b fun u hu => hab u (Nat.ne_of_gt (hle.trans_lt hu))

end Reduced

end Diagram

end Qualify
