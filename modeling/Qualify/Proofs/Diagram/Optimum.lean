import Qualify.Proofs.Diagram.Gains
import Qualify.Proofs.Diagram.Models

namespace Qualify.Diagram

/-- The entries of a table that is filled node by node. -/
theorem foldl_nodes_spec {β : Type} (f : Array β → Node → β) {d : Diagram} (x y : β) {i : Nat}
    (hi : 1 < i) (hic : i ≤ d.nodeCount) :
    ∃ older : Array β, (∀ j < i, older[j]? = ((d.table.values.toList.drop 1).foldl
      (fun r n => r.push (f r n)) #[x, y])[j]?) ∧
      ((d.table.values.toList.drop 1).foldl (fun r n => r.push (f r n)) #[x, y])[i]? =
        some (f older (d.node i)) := by
  obtain ⟨-, -, hnew⟩ := List.foldl_push_spec f (d.table.values.toList.drop 1) #[x, y]
  rw [show (#[x, y] : Array β).size = 2 from rfl] at hnew
  have hval : (d.table.values.toList.drop 1)[i - 2]? = some (d.node i) := by
    rw [List.getElem?_drop, Array.getElem?_toList, show 1 + (i - 2) = i - 1 by omega]
    exact values_pred hi.le hic
  obtain ⟨older, hsize, hprev, hentry⟩ := hnew (i - 2) _ hval
  rw [show 2 + (i - 2) = i by omega] at hsize hentry
  exact ⟨older, fun j hj => hprev j (by omega), hentry⟩

namespace Best

variable {d : Diagram} {g : Gains}

/-- The higher branch is taken if it is better, or if there is no other. -/
def goesHigh : Option Weight → Option Weight → Bool
  | some h, some l => decide (h > l)
  | some _, none => true
  | none, _ => false

theorem larger_eq (h l : Option Weight) : larger h l = if goesHigh h l then h else l := by
  rcases h with _ | h <;> rcases l with _ | l
  · rfl
  · rfl
  · rfl
  · change some (if h ≤ l then l else h) = if decide (l < h) = true then some h else some l
    by_cases hhl : h ≤ l
    · simp [hhl, UInt64.not_lt.mpr hhl]
    · simp [hhl, UInt64.not_le.mp hhl]

theorem larger_eq_none_iff {h l : Option Weight} : larger h l = none ↔ h = none ∧ l = none := by
  cases h <;> cases l <;> simp [larger]

theorem larger_bounds {h l : Option Weight} {w : Weight} (hw : larger h l = some w) :
    (h = some w ∨ l = some w) ∧ (∀ x, h = some x → x.toNat ≤ w.toNat) ∧ ∀ x, l = some x →
      x.toNat ≤ w.toNat := by
  rcases h with _ | h <;> rcases l with _ | l
  · cases hw
  · obtain rfl := Option.some.inj hw
    simp
  · obtain rfl := Option.some.inj hw
    simp
  · have hmax : w.toNat = max h.toNat l.toNat := by
      rw [← Option.some.inj hw, Weight.toNat_max]
    refine ⟨?_, by simp [hmax], by simp [hmax]⟩
    rw [larger_eq] at hw
    split_ifs at hw
    · exact .inl hw
    · exact .inr hw

theorem table_terminal : (table d g)[Edge.terminal]? = some ⟨some 0, none⟩ :=
  (List.foldl_push_spec (fun bests n => ofNode d g bests n) (d.table.values.toList.drop 1)
    #[⟨none, none⟩, ⟨some 0, none⟩]).2.1 1 (by decide)

theorem of_one : of (table d g) .one = some 0 := by
  rw [of, Array.getD_eq_getD_getElem?, show Edge.one.node = Edge.terminal from rfl, table_terminal]
  rfl

theorem of_zero : of (table d g) .zero = none := by
  rw [of, Array.getD_eq_getD_getElem?, show Edge.zero.node = Edge.terminal from rfl, table_terminal]
  rfl

section Table

variable (hd : d.Reduced)

include hd

theorem table_entry {i : Nat} (hi : 1 < i) (hic : i ≤ d.nodeCount) :
    (table d g)[i]? = some (ofNode d g (table d g) (d.node i)) := by
  obtain ⟨older, hprev, hentry⟩ :=
    foldl_nodes_spec (fun bests n => ofNode d g bests n) ⟨none, none⟩ ⟨some 0, none⟩ hi hic
  -- the entries that count are those of the node's own edges, which are older
  have hof : ∀ e : Edge, e.node < i → of older e = of (table d g) e := by
    intro e he
    rw [of, of, Array.getD_eq_getD_getElem?, Array.getD_eq_getD_getElem?, hprev _ he]
    rfl
  have hp := hd.proper i hi hic
  refine hentry.trans (congrArg some ?_)
  simp only [ofNode, branch]
  rw [hof _ (by simpa using hp.high_lt), hof _ (by simpa using hp.low_lt),
    hof _ (by simpa using hp.high_lt), hof _ (by simpa using hp.low_lt)]

/-- The best of an inner edge is that of the branch it goes to. -/
theorem of_eq_branch {e : Edge} (he : d.Has e) (hne : e.node ≠ Edge.terminal) :
    of (table d g) e = larger (branch d g (table d g) (d.varOf e) true (d.high e))
      (branch d g (table d g) (d.varOf e) false (d.low e)) := by
  have hentry := table_entry (g := g) hd (lt_of_le_of_ne he.1 (Ne.symm hne)) he.2
  rw [of, Array.getD_eq_getD_getElem?, hentry, Option.getD_some]
  cases hneg : e.negated <;> simp [ofNode, Diagram.high, Diagram.low, varOf, hneg]

/-- Whether anything is to be had does not depend on the weights. -/
theorem of_eq_none_iff {e : Edge} (he : d.Has e) : of (table d g) e = none ↔ e = .zero := by
  induction hn : e.node using Nat.strong_induction_on generalizing e with
  | _ n ih =>
    subst hn
    by_cases hne : e.node = Edge.terminal
    · rcases eq_one_or_zero hne with rfl | rfl
      · rw [of_one]
        simp [Edge.one, Edge.zero]
      · simp [of_zero]
    · have hz : e ≠ .zero := fun h => hne (h ▸ rfl)
      have hhigh := ih _ (hd.high_lt he hne) (hd.has_high he hne) rfl
      have hlow := ih _ (hd.low_lt he hne) (hd.has_low he hne) rfl
      rw [of_eq_branch hd he hne, larger_eq_none_iff, branch, branch, Option.map_eq_none_iff,
        Option.map_eq_none_iff, hhigh, hlow]
      exact ⟨fun h => absurd h.2 (high_or_low_ne_zero hd he hne h.1), fun h => absurd h hz⟩

theorem exists_of {e : Edge} (he : d.Has e) (hz : e ≠ .zero) : ∃ w, of (table d g) e = some w :=
  Option.ne_none_iff_exists'.mp fun h => hz ((of_eq_none_iff hd he).mp h)

theorem exists_branch {f : Edge} (hf : d.Has f) {a : Nat → Bool} (ha : d.eval a f = true) (v : Nat)
    (b : Bool) :
    ∃ w, branch d g (table d g) v b f = some w := by
  obtain ⟨w, hw⟩ := exists_of hd hf (g := g) fun hz => by
    rw [hz, eval_zero] at ha
    cases ha
  exact ⟨_, by rw [branch, hw]; rfl⟩

end Table

end Best

section Level

variable {d : Diagram} (hd : d.Reduced) {n : Nat} {e : Edge} (he : d.Has e)

theorem level_of_ne (hne : e.node ≠ Edge.terminal) : d.level n e = d.varOf e := by
  simp [level, Edge.isTerminal, hne]

theorem level_of_eq (ht : e.node = Edge.terminal) : d.level n e = n + 1 := by
  simp [level, Edge.isTerminal, ht]

include hd he in
theorem level_pos : 1 ≤ d.level n e := by
  by_cases hne : e.node = Edge.terminal
  · rw [level_of_eq hne]
    omega
  · rw [level_of_ne hne]
    exact hd.varOf_pos he hne

theorem Past.succ_le_level {v : Nat} (hp : d.Past v e) : v + 1 ≤ d.level n e ∨ n < d.level n e := by
  by_cases hne : e.node = Edge.terminal
  · rw [level_of_eq hne]
    omega
  · rw [level_of_ne hne]
    exact .inl (hp.resolve_left hne)

end Level

section Way

def follow (d : Diagram) (a : Nat → Bool) (e : Edge) : Edge :=
  if a (d.varOf e) then d.high e else d.low e

def testedFrom (d : Diagram) (a : Nat → Bool) : Nat → Nat → List Nat
  | 0, _ => []
  | fuel + 1, i =>
    if i = Edge.terminal then []
    else
      let n := d.node i
      n.var :: testedFrom d a fuel (if a n.var then n.high else n.low).node

/-- The variables tested on the way from an edge to the terminal where the variables have the values
`a`. -/
def tested (d : Diagram) (a : Nat → Bool) (e : Edge) : List Nat := d.testedFrom a e.node e.node

variable {d : Diagram} {a b : Nat → Bool} {e : Edge}

theorem tested_of_eq (ht : e.node = Edge.terminal) : d.tested a e = [] := by
  rw [tested, ht]
  rfl

variable (hd : d.Reduced)

include hd

theorem testedFrom_eq {i : Nat} (hi : 1 ≤ i) (hc : i ≤ d.nodeCount) :
    ∀ {fuel}, i ≤ fuel → d.testedFrom a fuel i = d.testedFrom a i i := by
  induction i using Nat.strong_induction_on with
  | _ i ih =>
    intro fuel hf
    obtain ⟨fuel, rfl⟩ := Nat.exists_eq_add_of_le' (hi.trans hf)
    obtain ⟨j, rfl⟩ := Nat.exists_eq_add_of_le' hi
    unfold testedFrom
    by_cases ht : j + 1 = Edge.terminal
    · simp [ht]
    · have hp := hd.proper (j + 1) (lt_of_le_of_ne hi (Ne.symm ht)) hc
      have hlow := hp.low_lt
      have hhigh := hp.high_lt
      simp only [if_neg ht]
      congr 1
      split_ifs
      · rw [ih _ hhigh hp.high_pos (by omega) (by omega),
          ih _ hhigh hp.high_pos (by omega) (by omega : _ ≤ j)]
      · rw [ih _ hlow hp.low_pos (by omega) (by omega),
          ih _ hlow hp.low_pos (by omega) (by omega : _ ≤ j)]

section Inner

variable (he : d.Has e) (hne : e.node ≠ Edge.terminal)

include he hne

theorem follow_spec (a : Nat → Bool) : d.Has (d.follow a e) ∧ (d.follow a e).node < e.node ∧
    d.Past (d.varOf e) (d.follow a e) ∧ d.eval a (d.follow a e) = d.eval a e := by
  have heval := hd.eval_eq a he hne
  unfold follow
  cases h : a (d.varOf e) with
  | true =>
    exact ⟨hd.has_high he hne, hd.high_lt he hne, hd.past_high he hne, by rw [heval, h]; rfl⟩
  | false => exact ⟨hd.has_low he hne, hd.low_lt he hne, hd.past_low he hne, by rw [heval, h]; rfl⟩

theorem tested_eq (a : Nat → Bool) : d.tested a e = d.varOf e :: d.tested a (d.follow a e) := by
  obtain ⟨hhas, hlt, -⟩ := follow_spec hd he hne a
  have hnode : (d.follow a e).node =
      (if a (d.node e.node).var then (d.node e.node).high else (d.node e.node).low).node := by
    unfold follow varOf high low
    split_ifs <;> rw [Edge.node_negateIf]
  obtain ⟨j, hj⟩ := Nat.exists_eq_add_of_le' he.1
  have hfuel := testedFrom_eq (a := a) hd hhas.1 hhas.2 (by omega : _ ≤ j)
  conv_lhs => rw [tested, hj, testedFrom, if_neg (hj ▸ hne), ← hj]
  dsimp only
  rw [← hnode, hfuel]
  rfl

end Inner

theorem lt_of_mem_tested (he : d.Has e) {v : Nat} (hp : d.Past v e) :
    ∀ u ∈ d.tested a e, v < u := by
  induction hn : e.node using Nat.strong_induction_on generalizing e v with
  | _ n ih =>
    subst hn
    intro u hu
    by_cases hne : e.node = Edge.terminal
    · rw [tested_of_eq hne] at hu
      cases hu
    · obtain ⟨hhas, hlt, hpast, -⟩ := follow_spec hd he hne a
      have hv : v < d.varOf e := hp.resolve_left hne
      rw [tested_eq hd he hne, List.mem_cons] at hu
      rcases hu with rfl | hu
      · exact hv
      · exact hv.trans (ih _ hlt hhas hpast rfl u hu)

theorem level_le_of_mem_tested (he : d.Has e) {n : Nat} : ∀ u ∈ d.tested a e, d.level n e ≤ u := by
  intro u hu
  by_cases hne : e.node = Edge.terminal
  · rw [tested_of_eq hne] at hu
    cases hu
  · obtain ⟨hhas, -, hpast, -⟩ := follow_spec hd he hne a
    rw [tested_eq hd he hne, List.mem_cons] at hu
    rw [level_of_ne hne]
    rcases hu with rfl | hu
    · exact Nat.le_refl _
    · exact (lt_of_mem_tested hd hhas hpast u hu).le

/-- Only the values of the tested variables matter to the way. -/
theorem tested_congr (he : d.Has e) (hab : ∀ u ∈ d.tested a e, b u = a u) :
    d.tested b e = d.tested a e := by
  induction hn : e.node using Nat.strong_induction_on generalizing e with
  | _ n ih =>
    subst hn
    by_cases hne : e.node = Edge.terminal
    · rw [tested_of_eq hne, tested_of_eq hne]
    · obtain ⟨hhas, hlt, -⟩ := follow_spec hd he hne a
      rw [tested_eq hd he hne] at hab
      have hv : b (d.varOf e) = a (d.varOf e) := hab _ List.mem_cons_self
      have hfollow : d.follow b e = d.follow a e := by rw [follow, follow, hv]
      rw [tested_eq hd he hne, tested_eq hd he hne, hfollow,
        ih _ hlt hhas (fun u hu => hab u (List.mem_cons_of_mem _ hu)) rfl]

theorem Upto.eval_congr {n : Nat} (he : d.Has e) (hn : d.Upto n e)
    (hab : ∀ u, 1 ≤ u → u ≤ n → a u = b u) :
    d.eval a e = d.eval b e := by
  have hp : d.Past 0 e := (em (e.node = Edge.terminal)).imp id fun hne => hd.varOf_pos he hne
  rw [← hd.eval_update a (b 0) he hp]
  apply hn
  intro u hu
  by_cases h0 : u = 0
  · rw [h0, Function.update_self]
  · rw [Function.update_of_ne h0, hab u (by omega) hu]

theorem Upto.tested_le {n : Nat} (he : d.Has e) (hn : d.Upto n e) : ∀ u ∈ d.tested a e, u ≤ n := by
  induction hi : e.node using Nat.strong_induction_on generalizing e with
  | _ i ih =>
    subst hi
    intro u hu
    by_cases hne : e.node = Edge.terminal
    · rw [tested_of_eq hne] at hu
      cases hu
    · obtain ⟨hhas, hlt, -⟩ := follow_spec hd he hne a
      have hfollow : d.Upto n (d.follow a e) := by
        unfold follow
        split
        · exact Upto.high hd he hne hn
        · exact Upto.low hd he hne hn
      rw [tested_eq hd he hne, List.mem_cons] at hu
      rcases hu with rfl | hu
      · exact Upto.varOf_le hd he hne hn
      · exact ih _ hlt hhas hfollow rfl u hu

end Way

section Score

/-- What variable `v` counts on the way of the values `a`: its gain if it is tested, else its
credit. -/
def counted (d : Diagram) (g : Gains) (a : Nat → Bool) (e : Edge) (v : Nat) : Nat :=
  if v ∈ d.tested a e then g.worth v (a v) else g.credit v

def score (d : Diagram) (g : Gains) (a : Nat → Bool) (e : Edge) : Nat :=
  ∑ v ∈ Finset.Ico (d.level g.size e) (g.size + 1), d.counted g a e v

variable {d : Diagram} {g : Gains} {a b : Nat → Bool} {e : Edge}

theorem counted_eq_zero {v : Nat} (h : g.size < v) : d.counted g a e v = 0 := by
  unfold counted
  rw [Gains.worth_eq_zero h, Gains.credit_eq_zero h, ite_self]

theorem counted_le_top {v : Nat} (h1 : 1 ≤ v) : d.counted g a e v ≤ g.top v := by
  unfold counted
  split_ifs
  · exact Gains.worth_le_top v (a v)
  · exact Gains.credit_le_top h1

theorem counted_congr (htested : d.tested b e = d.tested a e) (hab : ∀ u ∈ d.tested a e, b u = a u)
    (v : Nat) :
    d.counted g b e v = d.counted g a e v := by
  unfold counted
  rw [htested]
  split_ifs with h
  · rw [hab v h]
  · rfl

theorem score_one : d.score g a .one = 0 := by
  rw [score, level_of_eq rfl, Finset.Ico_self, Finset.sum_empty]

section Reduced

variable (hd : d.Reduced) (he : d.Has e)

include hd he

theorem score_congr (hab : ∀ u ∈ d.tested a e, b u = a u) : d.score g b e = d.score g a e :=
  Finset.sum_congr rfl fun v _ => counted_congr (tested_congr hd he hab) hab v

/-- Variables before the top of the edge are passed over. -/
theorem counted_of_lt_level {v : Nat} (hv : v < d.level g.size e) :
    d.counted g a e v = g.credit v :=
  if_neg fun hmem => Nat.not_le_of_lt hv (level_le_of_mem_tested hd he v hmem)

/-- The sum over all variables is that of those before the edge, which are passed over, and those
from there on. -/
theorem sum_counted {lo : Nat} (h : lo ≤ d.level g.size e ∨ g.size < d.level g.size e) :
    ∑ v ∈ Finset.Ico lo (g.size + 1), d.counted g a e v =
      ∑ v ∈ Finset.Ico lo (d.level g.size e), g.credit v + d.score g a e := by
  rw [← sum_split (fun v hv => counted_eq_zero hv) h, score]
  congr 1
  apply Finset.sum_congr rfl
  intro v hv
  exact counted_of_lt_level hd he (Finset.mem_Ico.mp hv).2

theorem score_eq (hne : e.node ≠ Edge.terminal) (a : Nat → Bool) :
    d.score g a e = g.worth (d.varOf e) (a (d.varOf e)) +
      ∑ v ∈ Finset.Ico (d.varOf e + 1) (d.level g.size (d.follow a e)), g.credit v +
        d.score g a (d.follow a e) := by
  obtain ⟨hhas, -, hpast, -⟩ := follow_spec hd he hne a
  have htested := tested_eq hd he hne a
  have hhead : d.counted g a e (d.varOf e) = g.worth (d.varOf e) (a (d.varOf e)) :=
    if_pos (htested ▸ List.mem_cons_self)
  have htail : ∀ v ∈ Finset.Ico (d.varOf e + 1) (g.size + 1),
      d.counted g a e v = d.counted g a (d.follow a e) v := by
    intro v hv
    have hvar : v ≠ d.varOf e := by
      rw [Finset.mem_Ico] at hv
      omega
    simp only [counted, htested, List.mem_cons, hvar, false_or]
  calc d.score g a e
      = ∑ v ∈ Finset.Ico (d.varOf e) (g.size + 1), d.counted g a e v := by
        rw [score, level_of_ne hne]
    _ = d.counted g a e (d.varOf e) + ∑ v ∈ Finset.Ico (d.varOf e + 1) (g.size + 1),
        d.counted g a e v := by
      rw [← sum_split (fun v hv => counted_eq_zero hv) (.inl (Nat.le_succ (d.varOf e))),
        Nat.succ_eq_add_one, Nat.Ico_succ_singleton, Finset.sum_singleton]
    _ = g.worth (d.varOf e) (a (d.varOf e)) +
        (∑ v ∈ Finset.Ico (d.varOf e + 1) (d.level g.size (d.follow a e)), g.credit v +
          d.score g a (d.follow a e)) := by
      rw [hhead, Finset.sum_congr rfl htail, sum_counted hd hhas hpast.succ_le_level]
    _ = _ := (add_assoc _ _ _).symm

end Reduced

variable (hd : d.Reduced) (hg : g.Summed)

include hg in
/-- What a branch is worth, where sums stop at the largest word. -/
theorem toNat_branch {v : Nat} {b : Bool} {f : Edge} {below w : Weight}
    (hbelow : Best.of (Best.table d g) f = some below)
    (hw : Best.branch d g (Best.table d g) v b f = some w) :
    w.toNat = min (g.worth v b +
      ∑ u ∈ Finset.Ico (v + 1) (d.level g.size f), g.credit u + below.toNat) (2 ^ 64 - 1) := by
  rw [Best.branch, hbelow, Option.map_some] at hw
  obtain rfl := Option.some.inj hw
  rw [Weight.toNat_plus, Weight.toNat_plus, hg _ _ (Nat.le_add_left 1 v), Gains.worth]
  omega

include hd in
theorem branch_le (he : d.Has e) (hne : e.node ≠ Edge.terminal) {w x : Weight}
    (hw : Best.of (Best.table d g) e = some w)
    (hx : Best.branch d g (Best.table d g) (d.varOf e) (a (d.varOf e)) (d.follow a e) = some x) :
    x.toNat ≤ w.toNat := by
  rw [Best.of_eq_branch hd he hne] at hw
  obtain ⟨-, hhigh, hlow⟩ := Best.larger_bounds hw
  unfold follow at hx
  cases ha : a (d.varOf e) with
  | true => exact hhigh x (by simpa [ha] using hx)
  | false => exact hlow x (by simpa [ha] using hx)

include hd hg in
/-- No model of an edge has a larger score than its entry says. -/
theorem capped_score_le (he : d.Has e) {w : Weight} (hw : Best.of (Best.table d g) e = some w)
    (ha : d.eval a e = true) : min (d.score g a e) (2 ^ 64 - 1) ≤ w.toNat := by
  induction hn : e.node using Nat.strong_induction_on generalizing e w with
  | _ n ih =>
    subst hn
    by_cases hne : e.node = Edge.terminal
    · rcases eq_one_or_zero hne with rfl | rfl
      · rw [score_one]
        omega
      · rw [eval_zero] at ha
        cases ha
    · obtain ⟨hhas, hlt, -, heval⟩ := follow_spec hd he hne a
      rw [← heval] at ha
      obtain ⟨x, hx⟩ := Best.exists_branch hd hhas ha (g := g) (d.varOf e) (a (d.varOf e))
      obtain ⟨below, hbelow, -⟩ := Option.map_eq_some_iff.mp hx
      have hle := branch_le hd he hne hw hx
      have hrest := ih _ hlt hhas hbelow ha rfl
      rw [toNat_branch hg hbelow hx] at hle
      rw [score_eq hd he hne]
      omega

end Score

section Passed

variable {d : Diagram} {g : Gains} {a : Nat → Bool} {e : Edge}
  (hpassed : ∀ v, 1 ≤ v → v ≤ g.size → v ∉ d.tested a e → a v = g.choice v)

include hpassed

theorem worth_of_passed {v : Nat} (hv : 1 ≤ v) (hvs : v ≤ g.size) (hnot : v ∉ d.tested a e) :
    g.worth v (a v) = g.top v := by
  rw [hpassed v hv hvs hnot]
  exact Gains.worth_choice hv hvs

/-- If variables that are passed over have their better values, none counts more than it earns. -/
theorem sum_counted_le :
    ∑ v ∈ Finset.Ico 1 (g.size + 1), d.counted g a e v ≤ g.earned a 1 (g.size + 1) := by
  apply Finset.sum_le_sum
  intro v hv
  rw [Finset.mem_Ico] at hv
  unfold counted
  split_ifs with hnot
  · exact le_rfl
  · rw [worth_of_passed hpassed hv.1 (by omega) hnot]
    exact Gains.credit_le_top hv.1

theorem sum_counted_eq
    (hroom : ∀ v, 1 ≤ v → v ≤ g.size → v ∉ d.tested a e → g.most 1 (v + 1) < 2 ^ 64) :
    ∑ v ∈ Finset.Ico 1 (g.size + 1), d.counted g a e v = g.earned a 1 (g.size + 1) := by
  apply Finset.sum_congr rfl
  intro v hv
  rw [Finset.mem_Ico] at hv
  unfold counted
  split_ifs with hnot
  · rfl
  · rw [worth_of_passed hpassed hv.1 (by omega) hnot,
      Gains.credit_eq_top hv.1 (hroom v hv.1 (by omega) hnot)]

end Passed

section Fill

variable {g : Gains}

theorem fill_spec (assignment : Array Bool) {first : Nat} (h1 : 1 ≤ first) (stop : Nat) :
    (fill g assignment first stop).size = assignment.size ∧
      ∀ v, 1 ≤ v → v ≤ assignment.size → valuation (fill g assignment first stop) v =
        if first ≤ v ∧ v < stop ∧ v ≤ g.size then g.choice v else valuation assignment v := by
  obtain ⟨hsize, hget⟩ := List.foldl_setIfInBounds (fun v => v - 1)
    (fun v => (g.each.getD (v - 1) default).choice)
    (fun i => (g.each.getD i default).choice) (List.range' first (min stop (g.size + 1) - first))
      (fun _ _ => rfl)
    assignment
  refine ⟨hsize, fun v hv hvs => ?_⟩
  have hmem : (∃ u ∈ List.range' first (min stop (g.size + 1) - first), u - 1 = v - 1) ↔
      first ≤ v ∧ v < stop ∧ v ≤ g.size := by
    simp only [List.mem_range'_1]
    refine ⟨fun ⟨u, hu, huv⟩ => ?_, fun h => ⟨v, by omega, rfl⟩⟩
    obtain rfl : u = v := by omega
    omega
  unfold valuation
  rw [fill, hget]
  simp only [hmem, show v - 1 < assignment.size by omega, and_true]
  rfl

theorem valuation_set (assignment : Array Bool) {u v : Nat} (hu : 1 ≤ u) (hv : 1 ≤ v)
    (hvs : v ≤ assignment.size) (b : Bool) :
    valuation (assignment.setIfInBounds (u - 1) b) v = if v = u then b
      else valuation assignment v := by
  unfold valuation
  rw [Array.getD_setIfInBounds]
  by_cases h : v = u
  · rw [if_pos ⟨by rw [h], by omega⟩, if_pos h]
  · rw [if_neg (by omega), if_neg h]

end Fill

section Path

variable {d : Diagram} {g : Gains}

def takesHigh (d : Diagram) (g : Gains) (e : Edge) : Bool :=
  Best.goesHigh (Best.branch d g (Best.table d g) (d.varOf e) true (d.high e))
    (Best.branch d g (Best.table d g) (d.varOf e) false (d.low e))

def taken (d : Diagram) (g : Gains) (e : Edge) : Edge :=
  if takesHigh d g e then d.high e else d.low e

theorem bestPath_succ {e : Edge} (h1 : e ≠ .one) (fuel : Nat) (assignment : Array Bool) :
    bestPath d g (Best.table d g) (fuel + 1) e assignment =
      bestPath d g (Best.table d g) fuel (taken d g e)
      (fill g (assignment.setIfInBounds (d.varOf e - 1) (takesHigh d g e)) (d.varOf e + 1)
        (d.level g.size (taken d g e))) := by
  rw [bestPath, if_neg h1]
  rfl

theorem follow_of_takesHigh {a : Nat → Bool} {e : Edge} (h : a (d.varOf e) = takesHigh d g e) :
    d.follow a e = taken d g e := by rw [follow, h, taken]

section Taken

variable (hd : d.Reduced) {e : Edge} (he : d.Has e) (hne : e.node ≠ Edge.terminal)

include hd he hne

theorem of_eq_taken : Best.of (Best.table d g) e =
    Best.branch d g (Best.table d g) (d.varOf e) (takesHigh d g e) (taken d g e) := by
  rw [Best.of_eq_branch hd he hne, Best.larger_eq, taken, ← takesHigh]
  cases takesHigh d g e <;> rfl

theorem taken_spec :
    d.Has (taken d g e) ∧ (taken d g e).node < e.node ∧ d.Past (d.varOf e) (taken d g e) := by
  obtain ⟨hhas, hlt, hpast, -⟩ := follow_spec hd he hne fun _ => takesHigh d g e
  exact ⟨hhas, hlt, hpast⟩

theorem taken_ne_zero : taken d g e ≠ .zero := by
  intro hz
  have hof := of_eq_taken (g := g) hd he hne
  rw [hz, Best.branch, Best.of_zero] at hof
  exact hne ((Best.of_eq_none_iff hd he).mp hof ▸ rfl)

end Taken

variable (hd : d.Reduced)

include hd

/-- The path changes nothing before the variable of its edge. -/
theorem bestPath_before (fuel : Nat) :
    ∀ {e : Edge} {assignment : Array Bool}, d.Has e → e ≠ .zero → e.node ≤ fuel →
    assignment.size = g.size → (bestPath d g (Best.table d g) fuel e assignment).size = g.size ∧
      ∀ v, 1 ≤ v → v ≤ g.size → v < d.level g.size e →
        valuation (bestPath d g (Best.table d g) fuel e assignment) v = valuation assignment v := by
  induction fuel with
  | zero =>
    intro e assignment he _ hf
    have := he.1
    omega
  | succ fuel ih =>
    intro e assignment he hz hf hsize
    by_cases h1 : e = .one
    · rw [bestPath, if_pos h1]
      exact ⟨hsize, fun _ _ _ _ => rfl⟩
    · have hne : e.node ≠ Edge.terminal := fun ht => (eq_one_or_zero ht).elim h1 hz
      obtain ⟨hhas, hlt, hpast⟩ := taken_spec (g := g) hd he hne
      have hv := hd.varOf_pos he hne
      have hlevel := hpast.succ_le_level (n := g.size)
      obtain ⟨hfsize, hfill⟩ := fill_spec (g := g)
        (assignment.setIfInBounds (d.varOf e - 1) (takesHigh d g e)) (Nat.succ_pos (d.varOf e))
        (d.level g.size (taken d g e))
      rw [Array.size_setIfInBounds, hsize] at hfsize hfill
      obtain ⟨hrsize, hbefore⟩ := ih hhas (taken_ne_zero hd he hne) (by omega) hfsize
      rw [bestPath_succ h1, level_of_ne hne]
      refine ⟨hrsize, fun v h1v hvs hlt => ?_⟩
      rw [hbefore v h1v hvs (by omega), hfill v h1v hvs, if_neg (by omega),
        valuation_set assignment hv h1v (by omega), if_neg (by omega)]

/-- One step of the path: the variable of the edge gets its value, and those up to the next edge
their better ones. -/
theorem bestPath_step {fuel : Nat} {e : Edge} {assignment : Array Bool} (he : d.Has e)
    (hne : e.node ≠ Edge.terminal) (hf : e.node ≤ fuel + 1) (hsize : assignment.size = g.size) :
    ∃ assignment', assignment'.size = g.size ∧
      bestPath d g (Best.table d g) (fuel + 1) e assignment =
        bestPath d g (Best.table d g) fuel (taken d g e) assignment' ∧
      (d.varOf e ≤ g.size →
        valuation (bestPath d g (Best.table d g) (fuel + 1) e assignment) (d.varOf e) =
          takesHigh d g e) ∧
      ∀ v, d.varOf e < v → v ≤ g.size → v < d.level g.size (taken d g e) →
        valuation (bestPath d g (Best.table d g) (fuel + 1) e assignment) v = g.choice v := by
  have h1 : e ≠ .one := fun h => hne (h ▸ rfl)
  obtain ⟨hhas, hlt, hpast⟩ := taken_spec (g := g) hd he hne
  have hv := hd.varOf_pos he hne
  have hlevel := hpast.succ_le_level (n := g.size)
  obtain ⟨hfsize, hfill⟩ := fill_spec (g := g)
    (assignment.setIfInBounds (d.varOf e - 1) (takesHigh d g e)) (Nat.succ_pos (d.varOf e))
    (d.level g.size (taken d g e))
  rw [Array.size_setIfInBounds, hsize] at hfsize hfill
  obtain ⟨-, hbefore⟩ := bestPath_before (g := g) hd fuel hhas (taken_ne_zero hd he hne)
    (by omega) hfsize
  refine ⟨_, hfsize, bestPath_succ h1 fuel assignment, fun hvs => ?_, fun v hlo hvs hhi => ?_⟩
  · rw [bestPath_succ h1, hbefore _ hv hvs (by omega), hfill _ hv hvs, if_neg (by omega),
      valuation_set assignment hv hv (by omega), if_pos rfl]
  · rw [bestPath_succ h1, hbefore v (by omega) hvs hhi, hfill v (by omega) hvs,
      if_pos ⟨hlo, hhi, hvs⟩]

/-- With some values for the variables that have no gains, the path makes the edge true. It gives
the better values to the variables that are passed over, and its score is the entry of the edge. -/
theorem bestPath_spec (hg : g.Summed) (fuel : Nat) :
    ∀ {e : Edge} {assignment : Array Bool} {w : Weight}, d.Has e →
    Best.of (Best.table d g) e = some w → e.node ≤ fuel → assignment.size = g.size →
    ∃ a : Nat → Bool, (∀ v, 1 ≤ v → v ≤ g.size →
        a v = valuation (bestPath d g (Best.table d g) fuel e assignment) v) ∧ d.eval a e = true ∧
      (∀ v, d.level g.size e ≤ v → v ≤ g.size → v ∉ d.tested a e → a v = g.choice v) ∧
      w.toNat = min (d.score g a e) (2 ^ 64 - 1) := by
  induction fuel with
  | zero =>
    intro e assignment w he _ hf
    have := he.1
    omega
  | succ fuel ih =>
    intro e assignment w he hw hf hsize
    by_cases h1 : e = .one
    · subst h1
      rw [Best.of_one] at hw
      obtain rfl := Option.some.inj hw
      refine ⟨_, fun _ _ _ => rfl, eval_one _, fun v hlo hvs => ?_, ?_⟩
      · rw [level_of_eq rfl] at hlo
        omega
      · rw [score_one]
        rfl
    · have hz : e ≠ .zero := fun h => by simp [h, Best.of_zero] at hw
      have hne : e.node ≠ Edge.terminal := fun ht => (eq_one_or_zero ht).elim h1 hz
      obtain ⟨hhas, hlt, hpast⟩ := taken_spec (g := g) hd he hne
      rw [of_eq_taken hd he hne] at hw
      obtain ⟨below, hbelow, -⟩ := Option.map_eq_some_iff.mp hw
      obtain ⟨assignment', hsize', hpath, hchosen, hfree⟩ :=
        bestPath_step (g := g) hd he hne hf hsize
      obtain ⟨a, hvalues, heval, hskip, hscore⟩ := ih hhas hbelow (by omega) hsize'
      rw [hpath] at hchosen hfree ⊢
      -- The variable of the edge may have no gain, and is then not among those that the path gives
      -- a value to.
      set a' := Function.update a (d.varOf e) (takesHigh d g e) with ha'
      have hself : a' (d.varOf e) = takesHigh d g e := Function.update_self ..
      have hother : ∀ v, v ≠ d.varOf e → a' v = a v := fun v hv => Function.update_of_ne hv ..
      have hlater : ∀ u ∈ d.tested a (taken d g e), a' u = a u := fun u hu =>
        hother u (Nat.ne_of_gt (lt_of_mem_tested hd hhas hpast u hu))
      have hfollow : d.follow a' e = taken d g e := follow_of_takesHigh hself
      have htested : d.tested a' e = d.varOf e :: d.tested a (taken d g e) := by
        rw [tested_eq hd he hne, hfollow, tested_congr hd hhas hlater]
      refine ⟨a', fun v hv hvs => ?_, ?_, fun v hlo hvs hnot => ?_, ?_⟩
      · by_cases h : v = d.varOf e
        · rw [h, hself, hchosen (h ▸ hvs)]
        · rw [hother v h, hvalues v hv hvs]
      · rw [← (follow_spec hd he hne a').2.2.2, hfollow, ha', hd.eval_update _ _ hhas hpast, heval]
      · rw [htested, List.mem_cons, not_or] at hnot
        rw [level_of_ne hne] at hlo
        rw [hother v hnot.1]
        by_cases hlevel : v < d.level g.size (taken d g e)
        · have hpos := hd.varOf_pos he hne
          rw [hvalues v (by omega) hvs, hfree v (by omega) hvs hlevel]
        · exact hskip v (by omega) hvs hnot.2
      · rw [toNat_branch hg hbelow hw, hscore, score_eq hd he hne, hfollow, hself,
          score_congr hd hhas hlater]
        omega

/-- An edge other than zero has a best model. With some values for the variables without gains it
satisfies the edge; variables that are passed over have their better values. The gain that comes
with it is its score, and no model has a larger one, where sums stop at the largest word. -/
theorem bestModel?_score {e : Edge} (he : d.Has e) (hz : e ≠ .zero) (gains : Array Gain) {g : Gains}
    (hg : g = Gains.ofArray gains) :
    ∃ m w a, d.bestModel? e gains = some (m, w) ∧ m.size = gains.size ∧
      (∀ v, 1 ≤ v → v ≤ gains.size → a v = valuation m v) ∧ d.eval a e = true ∧
      (∀ v, 1 ≤ v → v ≤ gains.size → v ∉ d.tested a e → a v = g.choice v) ∧
      w.toNat = min (∑ v ∈ Finset.Ico 1 (gains.size + 1), d.counted g a e v) (2 ^ 64 - 1) ∧
      ∀ b, d.eval b e = true →
        min (∑ v ∈ Finset.Ico 1 (gains.size + 1), d.counted g b e v) (2 ^ 64 - 1) ≤ w.toNat := by
  have hsize : g.size = gains.size := by rw [hg]; rfl
  have hbest : d.bestModel? e gains = (Best.of (Best.table d g) e).map fun below =>
      (bestPath d g (Best.table d g) (e.node + 1) e
        (fill g (Array.replicate g.size false) 1 (d.level g.size e)),
        Weight.plus below (g.free 1 (d.level g.size e))) := by
    rw [hg]
    rfl
  have hsummed : g.Summed := hg ▸ Gains.ofArray_summed
  rw [hbest, ← hsize]
  obtain ⟨below, hbelow⟩ := Best.exists_of hd he hz (g := g)
  have hpos := level_pos hd he (n := g.size)
  obtain ⟨hfsize, hfill⟩ :=
    fill_spec (g := g) (Array.replicate g.size false) (Nat.le_refl 1) (d.level g.size e)
  rw [Array.size_replicate] at hfsize hfill
  obtain ⟨hrsize, hbefore⟩ := bestPath_before (g := g) hd (e.node + 1) he hz (Nat.le_succ _) hfsize
  obtain ⟨a, hvalues, heval, hskip, hscore⟩ :=
    bestPath_spec hd hsummed (e.node + 1) he hbelow (Nat.le_succ _) hfsize
  have htotal : (Weight.plus below (g.free 1 (d.level g.size e))).toNat =
      min (∑ v ∈ Finset.Ico 1 (d.level g.size e), g.credit v + below.toNat) (2 ^ 64 - 1) := by
    rw [Weight.toNat_plus, hsummed _ _ (Nat.le_refl 1), Nat.add_comm]
  refine ⟨_, _, a, by rw [hbelow]; rfl, hrsize, hvalues, heval, fun v hv hvs hnot => ?_, ?_,
    fun b hb => ?_⟩
  · by_cases hlevel : v < d.level g.size e
    · rw [hvalues v hv hvs, hbefore v hv hvs hlevel, hfill v hv hvs, if_pos ⟨hv, hlevel, hvs⟩]
    · exact hskip v (by omega) hvs hnot
  · rw [htotal, sum_counted hd he (.inl hpos), hscore]
    omega
  · have hle := capped_score_le hd hsummed he hbelow hb
    rw [htotal, sum_counted hd he (.inl hpos)]
    omega

omit hd in
/-- If the sums fit, no variable counts less than it earns, and the sums of what they count fit,
too. -/
theorem Gains.Fits.earned_le_counted {g : Gains} (h : g.Fits) (a : Nat → Bool) (e : Edge) {lo : Nat}
    (h1 : 1 ≤ lo) :
    g.earned a lo (g.size + 1) ≤ ∑ v ∈ Finset.Ico lo (g.size + 1), d.counted g a e v ∧
      ∑ v ∈ Finset.Ico lo (g.size + 1), d.counted g a e v < 2 ^ 64 := by
  constructor
  · apply Finset.sum_le_sum
    intro v hv
    rw [Finset.mem_Ico] at hv
    unfold counted
    split_ifs
    · exact le_rfl
    · rw [h.credit_eq_top (by omega) (by omega)]
      exact Gains.worth_le_top v (a v)
  · calc ∑ v ∈ Finset.Ico lo (g.size + 1), d.counted g a e v
        ≤ g.most lo (g.size + 1) :=
          Finset.sum_le_sum fun v hv => counted_le_top (h1.trans (Finset.mem_Ico.mp hv).1)
      _ ≤ g.most 1 (g.size + 1) := Finset.sum_le_sum_of_subset (Finset.Ico_subset_Ico_left h1)
      _ < 2 ^ 64 := h

/-- As long as the sums fit, the best model earns what is said, and no model earns more. -/
theorem bestModel?_optimal {e : Edge} (he : d.Has e) (hz : e ≠ .zero) {gains : Array Gain}
    (hfits : (Gains.ofArray gains).Fits) :
    ∃ m w a, d.bestModel? e gains = some (m, w) ∧ m.size = gains.size ∧
      (∀ v, 1 ≤ v → v ≤ gains.size → a v = valuation m v) ∧ d.eval a e = true ∧
      w.toNat = (Gains.ofArray gains).earned (valuation m) 1 (gains.size + 1) ∧
      ∀ b, d.eval b e = true → (Gains.ofArray gains).earned b 1 (gains.size + 1) ≤ w.toNat := by
  obtain ⟨m, w, a, hm, hsize, hvalues, heval, hskip, htotal, hbound⟩ :=
    bestModel?_score hd he hz gains rfl
  have hcounts := fun b => hfits.earned_le_counted (d := d) b e (Nat.le_refl 1)
  generalize hg : Gains.ofArray gains = g at *
  have hgsize : g.size = gains.size := by rw [← hg]; rfl
  rw [hgsize] at hcounts
  have hearned : ∑ v ∈ Finset.Ico 1 (gains.size + 1), d.counted g a e v =
      g.earned a 1 (gains.size + 1) := by
    rw [← hgsize] at hskip ⊢
    exact sum_counted_eq hskip fun v _ hvs _ => (Gains.most_mono (by omega)).trans_lt hfits
  refine ⟨m, w, a, hm, hsize, hvalues, heval, ?_, fun b hb => ?_⟩
  · have hlt := (hcounts a).2
    rw [← Gains.earned_congr fun v hv hvs => hvalues v hv (by omega), ← hearned, htotal]
    omega
  · have hle := hcounts b
    have := hbound b hb
    omega

/-- An edge of variables that have gains has a best model. It satisfies the edge whatever the
weights are, and no model earns more as long as the sums fit. -/
theorem bestModel?_spec {e : Edge} (he : d.Has e) (hz : e ≠ .zero) {gains : Array Gain}
    (hn : d.Upto gains.size e) :
    ∃ m w, d.bestModel? e gains = some (m, w) ∧ m.size = gains.size ∧
      d.eval (valuation m) e = true ∧
      ((Gains.ofArray gains).Fits →
        w.toNat = (Gains.ofArray gains).earned (valuation m) 1 (gains.size + 1) ∧
          ∀ a, d.eval a e = true →
            (Gains.ofArray gains).earned a 1 (gains.size + 1) ≤ w.toNat) := by
  obtain ⟨m, w, a, hm, hsize, hvalues, heval, -⟩ := bestModel?_score hd he hz gains rfl
  refine ⟨m, w, hm, hsize, ?_, fun hfits => ?_⟩
  · rw [← heval]
    exact Upto.eval_congr hd he hn fun v hv hvs => (hvalues v hv hvs).symm
  · obtain ⟨m', w', -, hm', -, -, -, hbest⟩ := bestModel?_optimal hd he hz hfits
    obtain ⟨rfl, rfl⟩ : m' = m ∧ w' = w := by simpa [hm'] using hm
    exact hbest

end Path

end Qualify.Diagram
