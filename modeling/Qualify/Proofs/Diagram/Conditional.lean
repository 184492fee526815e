import Qualify.Diagram.Conditional
import Qualify.Proofs.Diagram.Growth

namespace Qualify.Diagram

def evalIf (d : Diagram) (a : Nat → Bool) (f g h : Edge) : Bool :=
  if d.eval a f then d.eval a g else d.eval a h

def spots (f g h : Edge) : Finset Nat := {f.node, g.node, h.node}

/-- The work that a conditional may need: the terminal needs none, and a node that occurs twice
counts once. -/
def effort (f g h : Edge) : Nat := ∑ i ∈ spots f g h, (i - 1)

theorem mem_spots {f g h : Edge} {i : Nat} :
    i ∈ spots f g h ↔ i = f.node ∨ i = g.node ∨ i = h.node := by
  simp [spots]

theorem effort_le_of_subset {f g h f' g' h' : Edge}
    (hs : spots f' g' h' ⊆ insert Edge.terminal (spots f g h)) :
    effort f' g' h' ≤ effort f g h := by
  calc effort f' g' h' ≤ ∑ i ∈ insert Edge.terminal (spots f g h), (i - 1) :=
    Finset.sum_le_sum_of_subset hs
    _ = effort f g h := Finset.sum_insert_of_eq_zero_if_notMem fun _ => rfl

theorem effort_lt (f g h : Edge) : effort f g h < f.node + g.node + h.node + 1 := by
  have hle : effort f g h ≤ ∑ i ∈ spots f g h, i := Finset.sum_le_sum fun i _ => Nat.sub_le i 1
  have hg : ∑ i ∈ ({g.node, h.node} : Finset Nat), i ≤ g.node + h.node := by
    by_cases hgh : g.node = h.node
    · simp [hgh]
    · rw [Finset.sum_pair hgh]
  have hf : ∑ i ∈ spots f g h, i ≤ f.node + ∑ i ∈ ({g.node, h.node} : Finset Nat), i := by
    by_cases hm : f.node ∈ ({g.node, h.node} : Finset Nat)
    · simp only [spots]
      rw [Finset.insert_eq_of_mem hm]
      exact Nat.le_add_left _ _
    · simp only [spots]
      rw [Finset.sum_insert hm]
  omega

namespace Conditional

/-- The primed conditional is the same as the other one, up to a negation, and has no new nodes. -/
structure Restates (d : Diagram) (f g h f' g' h' : Edge) (negate : Bool) : Prop where
  spots_subset : spots f' g' h' ⊆ insert Edge.terminal (spots f g h)
  eval : ∀ a, (d.evalIf a f' g' h' ^^ negate) = d.evalIf a f g h

variable {d : Diagram} {f g h f' g' h' f'' g'' h'' : Edge} {b : Bool}

theorem Restates.trans (hr : Restates d f g h f' g' h' false)
    (hr' : Restates d f' g' h' f'' g'' h'' b) :
    Restates d f g h f'' g'' h'' b where
  spots_subset := by
    intro i hi
    have := hr'.spots_subset hi
    rw [Finset.mem_insert] at this
    rcases this with rfl | hm
    · exact Finset.mem_insert_self _ _
    · exact hr.spots_subset hm
  eval a := by rw [hr'.eval a, ← hr.eval a, Bool.xor_false]

theorem Restates.has (hd : d.Reduced) (hr : Restates d f g h f' g' h' b) (hf : d.Has f)
    (hg : d.Has g) (hh : d.Has h) :
    d.Has f' ∧ d.Has g' ∧ d.Has h' := by
  have hall : ∀ e : Edge, e.node ∈ spots f' g' h' → d.Has e := by
    intro e he
    -- the terminal may come in for an edge that is replaced by a constant
    have := hr.spots_subset he
    rw [Finset.mem_insert, mem_spots] at this
    rcases this with h1 | h1 | h1 | h1 <;> unfold Has <;> rw [h1]
    · exact hd.has_one
    · exact hf
    · exact hg
    · exact hh
  exact ⟨hall f' (by simp [spots]), hall g' (by simp [spots]), hall h' (by simp [spots])⟩

theorem atHand?_eval {e : Edge} (he : atHand? f g h = some e) (a : Nat → Bool) :
    d.eval a e = d.evalIf a f g h := by
  unfold atHand? at he
  unfold evalIf
  split_ifs at he <;> cases he <;> simp_all

theorem atHand?_has {e : Edge} (he : atHand? f g h = some e) (hf : d.Has f) (hg : d.Has g)
    (hh : d.Has h) :
    d.Has e := by
  unfold atHand? at he
  split_ifs at he <;> cases he <;> simp_all

theorem ne_terminal_of_atHand? (he : atHand? f g h = none) : f.node ≠ Edge.terminal := by
  intro ht
  rcases eq_one_or_zero ht with rfl | rfl <;> simp [atHand?, Edge.one, Edge.zero] at he

theorem substitute_restates (d : Diagram) (f g h : Edge) :
    Restates d f g h f (substitute f g h).1 (substitute f g h).2 false where
  spots_subset := by
    intro i hi
    simp only [mem_spots, substitute, Finset.mem_insert] at hi ⊢
    split_ifs at hi <;> simp_all [Edge.one, Edge.zero] <;> tauto
  eval a := by
    simp only [evalIf, substitute]
    split_ifs <;> simp_all

theorem exchange_restates (hd : d.Reduced) (hg : d.Has g) (hh : d.Has h)
    (hne : f.node ≠ Edge.terminal) :
    Restates d f g h (exchange d f g h).1 (exchange d f g h).2.1 (exchange d f g h).2.2 false ∧
      (exchange d f g h).1.node ≠ Edge.terminal := by
  have hinner : ∀ {e : Edge}, d.Has e → (d.varOf e != 0 && decide (d.varOf e < d.varOf f)) = true →
      e.node ≠ Edge.terminal := by
    intro e he hv ht
    simp [(hd.varOf_eq_zero he).mpr ht] at hv
  simp only [exchange]
  -- Five conditionals are symmetric, and the edge of the smaller variable becomes the condition.
  split_ifs with h1 h2 h3 h4 h5
  · obtain ⟨rfl, hv⟩ := h1
    refine ⟨⟨by intro i; simp only [mem_spots, Finset.mem_insert]; tauto, fun a => ?_⟩,
      hinner hh hv⟩
    simp only [evalIf, eval_one]
    cases d.eval a f <;> cases d.eval a h <;> rfl
  · obtain ⟨rfl, hv⟩ := h2
    refine ⟨⟨by intro i; simp only [mem_spots, Finset.mem_insert]; tauto, fun a => ?_⟩,
      hinner hg hv⟩
    simp only [evalIf, eval_zero]
    cases d.eval a f <;> cases d.eval a g <;> rfl
  · obtain ⟨rfl, hv⟩ := h3
    refine ⟨⟨by intro i; simp only [mem_spots, Finset.mem_insert, Edge.node_neg]; tauto,
      fun a => ?_⟩, hinner hg hv⟩
    simp only [evalIf, eval_one, eval_neg]
    cases d.eval a f <;> cases d.eval a g <;> rfl
  · obtain ⟨rfl, hv⟩ := h4
    refine ⟨⟨by intro i; simp only [mem_spots, Finset.mem_insert, Edge.node_neg]; tauto,
      fun a => ?_⟩, hinner hh hv⟩
    simp only [evalIf, eval_zero, eval_neg]
    cases d.eval a f <;> cases d.eval a h <;> rfl
  · obtain ⟨rfl, hv⟩ := h5
    refine ⟨⟨by intro i; simp only [mem_spots, Finset.mem_insert, Edge.node_neg]; tauto,
      fun a => ?_⟩, hinner hh hv⟩
    simp only [evalIf, eval_neg]
    cases d.eval a f <;> cases d.eval a h <;> rfl
  · exact ⟨⟨Finset.subset_insert _ _, fun a => Bool.xor_false _⟩, hne⟩

theorem unsign_restates (d : Diagram) (f g h : Edge) :
    ∃ f' g' h' b, unsign f g h = .triple f' g' h' b ∧ Restates d f g h f' g' h' b ∧
      f'.node = f.node := by
  have hswap : ∀ f g h : Edge, Restates d f g h (-f) h g false := by
    intro f g h
    refine ⟨by intro i; simp only [mem_spots, Finset.mem_insert, Edge.node_neg]; tauto, fun a => ?_⟩
    simp only [evalIf, eval_neg]
    cases d.eval a f <;> simp
  have hflip : ∀ f g h : Edge, Restates d f g h f (-g) (-h) true := by
    intro f g h
    refine ⟨by intro i; simp only [mem_spots, Finset.mem_insert, Edge.node_neg]; tauto, fun a => ?_⟩
    simp only [evalIf, eval_neg]
    cases d.eval a f <;> simp
  have hsame : ∀ f g h : Edge, Restates d f g h f g h false :=
    fun f g h => ⟨Finset.subset_insert _ _, fun a => Bool.xor_false _⟩
  unfold unsign
  by_cases hf : f.negated = true
  · simp only [hf, if_true]
    by_cases hh : h.negated = true
    · exact ⟨-f, -h, -g, true, by simp [hh], (hswap f g h).trans (hflip _ _ _), rfl⟩
    · exact ⟨-f, h, g, false, by simp [hh], hswap f g h, rfl⟩
  · simp only [hf]
    by_cases hg : g.negated = true
    · exact ⟨f, -g, -h, true, by simp [hg], hflip f g h, rfl⟩
    · exact ⟨f, g, h, false, by simp [hg], hsame f g h, rfl⟩

/-- The value at hand is right, and a standard triple restates the conditional under a condition
that tests a variable. -/
theorem standardize_cases (hd : d.Reduced) (hf : d.Has f) (hg : d.Has g) (hh : d.Has h) :
    (∃ e, standardize d f g h = .value e ∧ d.Has e ∧ ∀ a, d.eval a e = d.evalIf a f g h) ∨
    (∃ f' g' h' b, standardize d f g h = .triple f' g' h' b ∧ Restates d f g h f' g' h' b ∧
      f'.node ≠ Edge.terminal) := by
  unfold standardize
  rcases h1 : atHand? f g h with _ | e
  · have hs := substitute_restates d f g h
    obtain ⟨-, hg', hh'⟩ := hs.has hd hf hg hh
    rcases h2 : atHand? f (substitute f g h).1 (substitute f g h).2 with _ | e
    · right
      obtain ⟨hx, hne⟩ := exchange_restates hd hg' hh' (ne_terminal_of_atHand? h2)
      obtain ⟨f', g', h', b, hu, hr, hn⟩ :=
        unsign_restates d (exchange d f (substitute f g h).1 (substitute f g h).2).1
        (exchange d f (substitute f g h).1 (substitute f g h).2).2.1
        (exchange d f (substitute f g h).1 (substitute f g h).2).2.2
      exact ⟨f', g', h', b, by simpa [h2] using hu, (hs.trans hx).trans hr, hn ▸ hne⟩
    · left
      refine ⟨e, by simp [h2], atHand?_has h2 hf hg' hh', fun a => ?_⟩
      rw [atHand?_eval h2 a, ← hs.eval a, Bool.xor_false]
  · exact .inl ⟨e, rfl, atHand?_has h1 hf hg hh, atHand?_eval h1⟩

end Conditional

def sooner (v u : Nat) : Nat := if u = 0 then v else min v u

theorem sooner_spec {v : Nat} (hv : 0 < v) (u : Nat) :
    0 < sooner v u ∧ sooner v u ≤ v ∧ (u = 0 ∨ sooner v u ≤ u) ∧
    (sooner v u = v ∨ u ≠ 0 ∧ sooner v u = u) := by
  unfold sooner
  split_ifs <;> omega

section Expansion

variable {d : Diagram} (hd : d.Reduced)

include hd

theorem topVariable_spec {f g h : Edge} (hf : d.Has f) (hg : d.Has g) (hh : d.Has h)
    (hne : f.node ≠ Edge.terminal) :
    0 < d.topVariable f g h ∧
      (∀ e, e = f ∨ e = g ∨ e = h → e.node = Edge.terminal ∨ d.topVariable f g h ≤ d.varOf e) ∧
      ∃ i ∈ spots f g h, i ≠ Edge.terminal ∧ (d.node i).var = d.topVariable f g h := by
  have htop : d.topVariable f g h = sooner (sooner (d.varOf f) (d.varOf g)) (d.varOf h) := rfl
  have hterminal : ∀ e, d.Has e → d.varOf e ≠ 0 → e.node ≠ Edge.terminal :=
    fun e he h0 ht => h0 ((hd.varOf_eq_zero he).mpr ht)
  obtain ⟨hpos, hle, hle_g, hor⟩ := sooner_spec (hd.varOf_pos hf hne) (d.varOf g)
  obtain ⟨hpos', hle', hle_h, hor'⟩ := sooner_spec hpos (d.varOf h)
  rw [← htop] at hpos' hle' hle_h hor'
  refine ⟨hpos', ?_, ?_⟩
  · rintro e (rfl | rfl | rfl)
    · exact .inr (hle'.trans hle)
    · exact hle_g.imp (hd.varOf_eq_zero hg).mp hle'.trans
    · exact hle_h.imp_left (hd.varOf_eq_zero hh).mp
  · rcases hor' with h' | ⟨h0, h'⟩
    · rcases hor with h'' | ⟨h0, h''⟩
      · exact ⟨f.node, by simp [spots], hne, (h'.trans h'').symm⟩
      · exact ⟨g.node, by simp [spots], hterminal g hg h0, (h'.trans h'').symm⟩
    · exact ⟨h.node, by simp [spots], hterminal h hh h0, h'.symm⟩

/-- The node to which the value `b` of variable `v` leads from node `i`. -/
def descend (d : Diagram) (v : Nat) (b : Bool) (i : Nat) : Nat :=
  if i ≠ Edge.terminal ∧ (d.node i).var = v then
    (if b then (d.node i).high.node else (d.node i).low.node) else i

theorem cofactors?_spec {v : Nat} (hv : 0 < v) {e : Edge} (he : d.Has e)
    (hle : e.node = Edge.terminal ∨ v ≤ d.varOf e) :
    ∃ e₀ e₁, d.cofactors? e v = some (e₀, e₁) ∧ d.Has e₀ ∧ d.Has e₁ ∧ d.Past v e₀ ∧ d.Past v e₁ ∧
      e₀.node = d.descend v false e.node ∧ e₁.node = d.descend v true e.node ∧
      ∀ a, d.eval a e = if a v then d.eval a e₁ else d.eval a e₀ := by
  by_cases hp : d.Past v e
  · have hsame : ∀ b, d.descend v b e.node = e.node := by
      intro b
      refine if_neg fun hand => ?_
      have hlt : v < (d.node e.node).var := hp.resolve_left hand.1
      omega
    refine ⟨e, e, ?_, he, he, hp, hp, (hsame false).symm, (hsame true).symm, fun a => by simp⟩
    have hcond : (e.isTerminal || decide (v < d.varOf e)) = true := by
      simpa [Edge.isTerminal, Past] using hp
    simp [cofactors?, Nat.ne_of_gt hv, hcond]
  · obtain ⟨hne, hnlt⟩ := not_or.mp hp
    have hve : v = d.varOf e := Nat.le_antisymm (hle.resolve_left hne) (Nat.le_of_not_lt hnlt)
    refine ⟨d.low e, d.high e, ?_, hd.has_low he hne, hd.has_high he hne, hve ▸ hd.past_low he hne,
      hve ▸ hd.past_high he hne, ?_, ?_, fun a => hve ▸ hd.eval_eq a he hne⟩
    · have hcond : ¬(e.isTerminal || decide (v < d.varOf e)) = true := by
        simpa [Edge.isTerminal] using ⟨hne, Nat.le_of_not_lt hnlt⟩
      rw [cofactors?, if_neg (Nat.ne_of_gt hv), if_neg hcond, if_pos hve]
    · have hcond : e.node ≠ Edge.terminal ∧ (d.node e.node).var = v := ⟨hne, hve.symm⟩
      simp [descend, hcond, low]
    · have hcond : e.node ≠ Edge.terminal ∧ (d.node e.node).var = v := ⟨hne, hve.symm⟩
      simp [descend, hcond, high]

/-- An expansion on a variable that one of the nodes tests leaves less to do. -/
theorem effort_descend_lt {v : Nat} {b : Bool} {f g h f' g' h' : Edge} (hf : d.Has f) (hg : d.Has g)
    (hh : d.Has h) (hf' : f'.node = d.descend v b f.node) (hg' : g'.node = d.descend v b g.node)
    (hh' : h'.node = d.descend v b h.node)
    (hv : ∃ i ∈ spots f g h, i ≠ Edge.terminal ∧ (d.node i).var = v) :
    effort f' g' h' < effort f g h := by
  have hhas : ∀ i ∈ spots f g h, 1 ≤ i ∧ i ≤ d.nodeCount := by
    intro i hi
    rcases mem_spots.mp hi with rfl | rfl | rfl
    · exact hf
    · exact hg
    · exact hh
  have hlt : ∀ i ∈ spots f g h, i ≠ Edge.terminal → (d.node i).var = v → d.descend v b i < i := by
    intro i hi hne hvi
    have hp := hd.proper i (lt_of_le_of_ne (hhas i hi).1 (Ne.symm hne)) (hhas i hi).2
    rw [descend, if_pos ⟨hne, hvi⟩]
    cases b
    · exact hp.low_lt
    · exact hp.high_lt
  have hle : ∀ i ∈ spots f g h, d.descend v b i ≤ i := by
    intro i hi
    by_cases hcond : i ≠ Edge.terminal ∧ (d.node i).var = v
    · exact Nat.le_of_lt (hlt i hi hcond.1 hcond.2)
    · rw [descend, if_neg hcond]
  obtain ⟨i, hi, hne, hvi⟩ := hv
  -- Nodes may fall together on the way, which only makes the sum smaller.
  have hspots : spots f' g' h' = (spots f g h).image (d.descend v b) := by
    simp [spots, hf', hg', hh', Finset.image_insert]
  calc effort f' g' h' = ∑ i ∈ (spots f g h).image (d.descend v b), (i - 1) := by
        rw [effort, hspots]
    _ ≤ ∑ i ∈ spots f g h, (d.descend v b i - 1) :=
      Finset.sum_image_le_of_nonneg fun _ _ => Nat.zero_le _
    _ < effort f g h := by
      refine Finset.sum_lt_sum (fun j hj => Nat.sub_le_sub_right (hle j hj) 1) ⟨i, hi, ?_⟩
      have h1 := hlt i hi hne hvi
      have h2 := (hhas i hi).1
      change i ≠ 1 at hne
      omega

end Expansion

theorem Extends.evalIf_eq {d d' : Diagram} (hx : d.Extends d') (hd : d.Reduced) {f g h : Edge}
    (hf : d.Has f) (hg : d.Has g) (hh : d.Has h) (a : Nat → Bool) :
    d'.evalIf a f g h = d.evalIf a f g h := by
  rw [evalIf, evalIf, hx.eval_eq hf hd, hx.eval_eq hg hd, hx.eval_eq hh hd]

theorem Reduced.evalIf_congr {d : Diagram} (hd : d.Reduced) {v : Nat} {f g h : Edge} (hf : d.Has f)
    (hg : d.Has g) (hh : d.Has h) (hfp : d.Past v f) (hgp : d.Past v g) (hhp : d.Past v h)
    {a b : Nat → Bool} (hab : ∀ u, v < u → a u = b u) : d.evalIf a f g h = d.evalIf b f g h := by
  rw [evalIf, evalIf, hd.eval_congr hab hf hfp, hd.eval_congr hab hg hgp, hd.eval_congr hab hh hhp]

/-- What a conditional comes down to where variable `m` has the value `b`: one of less effort, which
depends on the variables after `m` alone. -/
structure Branch (d : Diagram) (m : Nat) (b : Bool) (f g h f' g' h' : Edge) : Prop where
  has_condition : d.Has f'
  has_then : d.Has g'
  has_else : d.Has h'
  effort_lt : effort f' g' h' < effort f g h
  congr : ∀ {a a' : Nat → Bool}, (∀ u, m < u → a u = a' u) →
    d.evalIf a f' g' h' = d.evalIf a' f' g' h'
  eval : ∀ a, a m = b → d.evalIf a f g h = d.evalIf a f' g' h'

theorem topVariable_branches {d : Diagram} (hd : d.Reduced) {f g h : Edge} (hf : d.Has f)
    (hg : d.Has g) (hh : d.Has h) (hne : f.node ≠ Edge.terminal) :
    0 < d.topVariable f g h ∧ ∃ f₀ f₁ g₀ g₁ h₀ h₁,
      d.cofactors? f (d.topVariable f g h) = some (f₀, f₁) ∧
      d.cofactors? g (d.topVariable f g h) = some (g₀, g₁) ∧
      d.cofactors? h (d.topVariable f g h) = some (h₀, h₁) ∧
      d.Branch (d.topVariable f g h) false f g h f₀ g₀ h₀ ∧
        d.Branch (d.topVariable f g h) true f g h f₁ g₁ h₁ := by
  obtain ⟨hm, hmle, hmtop⟩ := topVariable_spec hd hf hg hh hne
  generalize d.topVariable f g h = m at hm hmle hmtop ⊢
  obtain ⟨f₀, f₁, hfc, hf₀, hf₁, hfp₀, hfp₁, hfn₀, hfn₁, hfe⟩ :=
    cofactors?_spec hd hm hf (hmle f (.inl rfl))
  obtain ⟨g₀, g₁, hgc, hg₀, hg₁, hgp₀, hgp₁, hgn₀, hgn₁, hge⟩ :=
    cofactors?_spec hd hm hg (hmle g (.inr (.inl rfl)))
  obtain ⟨h₀, h₁, hhc, hh₀, hh₁, hhp₀, hhp₁, hhn₀, hhn₁, hhe⟩ :=
    cofactors?_spec hd hm hh (hmle h (.inr (.inr rfl)))
  refine ⟨hm, f₀, f₁, g₀, g₁, h₀, h₁, hfc, hgc, hhc,
    ⟨hf₀, hg₀, hh₀, effort_descend_lt hd hf hg hh hfn₀ hgn₀ hhn₀ hmtop,
      hd.evalIf_congr hf₀ hg₀ hh₀ hfp₀ hgp₀ hhp₀, ?_⟩,
    ⟨hf₁, hg₁, hh₁, effort_descend_lt hd hf hg hh hfn₁ hgn₁ hhn₁ hmtop,
      hd.evalIf_congr hf₁ hg₁ hh₁ hfp₁ hgp₁ hhp₁, ?_⟩⟩
  all_goals
    intro a ha
    simp [evalIf, hfe a, hge a, hhe a, ha]

section Recall

def consulted (d : Diagram) (f g h : Edge) : Diagram :=
  { d with cache := (d.cache.get (f, g, h)).2 }

def noted (d : Diagram) (f g h r : Edge) : Diagram := { d with cache := d.cache.insert (f, g, h) r }

variable {d : Diagram} (hd : d.Sound)

include hd

/-- What the cache finds is right, and looking it up changes the counters only. -/
theorem Sound.consulted (f g h : Edge) :
    (d.consulted f g h).Sound ∧ ∀ r, (d.cache.get (f, g, h)).1 = some r → d.Recalls f g h r := by
  have hlines : (d.cache.get (f, g, h)).2.lines = d.cache.lines := by
    unfold ResultCache.get
    split <;> rfl
  refine ⟨hd.withCache fun k f' g' h' r hk => hd.recalls k f' g' h' r (by rwa [hlines] at hk),
    fun r hr => ?_⟩
  have hfind : d.cache.find? (f, g, h) = some r := by
    unfold ResultCache.get at hr
    split at hr <;> simp_all
  unfold ResultCache.find? at hfind
  split at hfind
  · rename_i k r' hk
    split_ifs at hfind with heq
    cases hfind
    subst heq
    exact hd.recalls _ f g h _ hk
  · cases hfind

theorem Sound.noted {f g h r : Edge} (hr : d.Recalls f g h r) : (d.noted f g h r).Sound := by
  refine hd.withCache fun k f' g' h' r' hk => ?_
  simp only [ResultCache.insert, Array.getElem?_setIfInBounds] at hk
  split_ifs at hk
  · simp only [Option.some.injEq, Prod.mk.injEq] at hk
    obtain ⟨⟨rfl, rfl, rfl⟩, rfl⟩ := hk
    exact hr
  · exact hd.recalls k f' g' h' r' hk

end Recall

def expansion (fuel : Nat) (d : Diagram) (m : Nat) (f g h : Edge) : Option (Edge × Diagram) := do
  let (f₀, f₁) ← d.cofactors? f m
  let (g₀, g₁) ← d.cofactors? g m
  let (h₀, h₁) ← d.cofactors? h m
  let (e, d) ← iteWithin fuel d f₀ g₀ h₀
  let (t, d) ← iteWithin fuel d f₁ g₁ h₁
  some (d.mkNode m e t)

/-- Within this depth, every conditional of less effort has an answer, and the answer is right. -/
def Answers (fuel : Nat) : Prop :=
  ∀ {d : Diagram} {f g h : Edge}, d.Sound → d.Has f → d.Has g → d.Has h → effort f g h < fuel →
    ∃ r, iteWithin fuel d f g h = some r ∧ d.Yields (fun a => d.evalIf a f g h) r

theorem Answers.expansion {fuel : Nat} (ih : Answers fuel) {d : Diagram} {f g h : Edge}
    (hd : d.Sound) (hf : d.Has f) (hg : d.Has g) (hh : d.Has h) (hne : f.node ≠ Edge.terminal)
    (hlt : effort f g h ≤ fuel) :
    ∃ r, expansion fuel d (d.topVariable f g h) f g h = some r ∧
      d.Yields (fun a => d.evalIf a f g h) r := by
  obtain ⟨hm, f₀, f₁, g₀, g₁, h₀, h₁, hfc, hgc, hhc, hb₀, hb₁⟩ :=
    topVariable_branches hd.toReduced hf hg hh hne
  generalize d.topVariable f g h = m at hm hfc hgc hhc hb₀ hb₁ ⊢
  obtain ⟨⟨e, d₁⟩, he, hye⟩ :=
    ih hd hb₀.has_condition hb₀.has_then hb₀.has_else (hb₀.effort_lt.trans_le hlt)
  obtain ⟨⟨t, d₂⟩, ht, hyt⟩ :=
    ih hye.sound (hye.grows.has hb₁.has_condition) (hye.grows.has hb₁.has_then)
    (hye.grows.has hb₁.has_else) (hb₁.effort_lt.trans_le hlt)
  have hsame : ∀ a, d₁.evalIf a f₁ g₁ h₁ = d.evalIf a f₁ g₁ h₁ :=
    hye.grows.evalIf_eq hd.toReduced hb₁.has_condition hb₁.has_then hb₁.has_else
  -- Both conditionals depend on variables after the top one alone, so that a node on it may go to
  -- them.
  have hpe : d₁.Past m e := hye.past fun a b hab => hb₀.congr hab
  have hpt : d₂.Past m t := by
    refine hyt.past fun a b hab => ?_
    rw [hsame, hsame]
    exact hb₁.congr hab
  have hyr := mkNode_yields hyt.sound hm (hyt.grows.has hye.has) hyt.has
    ((hyt.grows.past_iff hye.has).mpr hpe) hpt
  refine ⟨d₂.mkNode m e t, ?_, (hyr.after (hye.grows.trans hyt.grows)).congr fun a => ?_⟩
  · simp [Diagram.expansion, hfc, hgc, hhc, he, ht]
  · dsimp only at *
    rw [hyt.eval a, hyt.grows.eval_eq hye.has hye.sound.toReduced, hye.eval a, hsame]
    split_ifs with ha
    · exact (hb₁.eval a ha).symm
    · exact (hb₀.eval a (Bool.eq_false_of_not_eq_true ha)).symm

/-- A standard triple is looked up, and if it is not found, expanded and noted. -/
theorem iteWithin_triple {fuel : Nat} {d : Diagram} {f g h f' g' h' : Edge} {negate : Bool}
    (hs : Conditional.standardize d f g h = .triple f' g' h' negate) (hvar : d.varOf f' ≠ 0) :
    iteWithin (fuel + 1) d f g h =
      match (d.cache.get (f', g', h')).1 with
      | some e => some (e.negateIf negate, d.consulted f' g' h')
      | none =>
        (expansion fuel (d.consulted f' g' h') ((d.consulted f' g' h').topVariable f' g' h') f' g'
          h').map fun r =>
          (r.1.negateIf negate, r.2.noted f' g' h' r.1) := by
  simp only [iteWithin, hs, if_neg hvar, expansion, consulted]
  generalize d.cache.get (f', g', h') = got
  obtain ⟨_ | e, cache⟩ := got
  · simp only [Option.bind_eq_bind, Option.map_bind, Function.comp_def, Option.map_some]
    rfl
  · rfl

theorem iteWithin_answers (fuel : Nat) : Answers fuel := by
  induction fuel with
  | zero => intro d f g h _ _ _ _ hlt; omega
  | succ fuel ih =>
    intro d f g h hd hf hg hh hlt
    rcases Conditional.standardize_cases hd.toReduced hf hg hh with
      ⟨e, hs, he, hev⟩ | ⟨f', g', h', negate, hs, hr, hne⟩
    · exact ⟨(e, d), by simp [iteWithin, hs], (Yields.self hd he).congr hev⟩
    · obtain ⟨hf', hg', hh'⟩ := hr.has hd.toReduced hf hg hh
      obtain ⟨hd₁, hfound⟩ := hd.consulted f' g' h'
      have hx₁ : d.Extends (d.consulted f' g' h') := .withCache d _
      rw [iteWithin_triple hs (Nat.ne_of_gt (hd.varOf_pos hf' hne))]
      rcases hget : (d.cache.get (f', g', h')).1 with _ | e
      · -- noted under the standard triple, and the negation is put back on the result
        have heff := effort_le_of_subset hr.spots_subset
        obtain ⟨⟨r, d₂⟩, he, hy⟩ :=
          ih.expansion hd₁ (hx₁.has hf') (hx₁.has hg') (hx₁.has hh') hne (by omega)
        have hx₂ := hx₁.trans hy.grows
        have hx₃ : d₂.Extends (d₂.noted f' g' h' r) := .withCache d₂ _
        have hval : ∀ a, d₂.eval a r = d.evalIf a f' g' h' := by
          intro a
          rw [hy.eval a, hx₁.evalIf_eq hd.toReduced hf' hg' hh']
        have hrec : d₂.Recalls f' g' h' r :=
          ⟨hx₂.has hf', hx₂.has hg', hx₂.has hh', hy.has, fun a => by
            rw [hval a, ← hx₂.evalIf_eq hd.toReduced hf' hg' hh' a, evalIf]⟩
        have hhas : d₂.Has (r.negateIf negate) := has_negateIf.mpr hy.has
        refine ⟨(r.negateIf negate, d₂.noted f' g' h' r), by simp [he], hy.sound.noted hrec,
          hx₂.trans hx₃, hx₃.has hhas, fun a => ?_⟩
        rw [hx₃.eval_eq hhas hy.sound.toReduced, eval_negateIf, hval a, hr.eval a]
      · have hrec := hfound e hget
        refine ⟨(e.negateIf negate, d.consulted f' g' h'), rfl, hd₁, hx₁,
          has_negateIf.mpr (hx₁.has hrec.has_result), fun a => ?_⟩
        rw [eval_negateIf, hx₁.eval_eq hrec.has_result hd.toReduced, hrec.eval a]
        exact hr.eval a

section Conjunction

variable {d : Diagram} (hd : d.Sound)

include hd

/-- If-then-else always has an answer, and the answer is right. -/
theorem ite?_yields {f g h : Edge} (hf : d.Has f) (hg : d.Has g) (hh : d.Has h) :
    ∃ r, d.ite? f g h = some r ∧
      d.Yields (fun a => if d.eval a f then d.eval a g else d.eval a h) r :=
  iteWithin_answers _ hd hf hg hh (effort_lt f g h)

theorem and?_yields {f g : Edge} (hf : d.Has f) (hg : d.Has g) :
    ∃ r, d.and? f g = some r ∧ d.Yields (fun a => d.eval a f && d.eval a g) r := by
  obtain ⟨r, hr, hy⟩ := ite?_yields hd hf hg hd.has_zero
  exact ⟨r, hr, hy.congr fun a => by cases d.eval a f <;> simp⟩

end Conjunction

section Many

theorem Extends.all_eval_eq {d d' : Diagram} (hx : d.Extends d') (hd : d.Reduced) {fs : List Edge}
    (hfs : ∀ f ∈ fs, d.Has f) (a : Nat → Bool) : fs.all (d'.eval a) = fs.all (d.eval a) := by
  rw [Bool.eq_iff_iff]
  simp only [List.all_eq_true]
  exact forall₂_congr fun f hf => by rw [hx.eval_eq (hfs f hf) hd]

/-- A round of conjunctions leaves half as many edges with the same conjunction, or finds that it is
false. -/
structure Halves (d : Diagram) (fs : List Edge) (r : Option (List Edge)) (d' : Diagram) : Prop where
  sound : d'.Sound
  grows : d.Extends d'
  eval_none : r = none → ∀ a, fs.all (d.eval a) = false
  has : ∀ es, r = some es → ∀ e ∈ es, d'.Has e
  length : ∀ es, r = some es → es.length = (fs.length + 1) / 2
  eval_some : ∀ es, r = some es → ∀ a, es.all (d'.eval a) = fs.all (d.eval a)

namespace Halves

variable {d d₁ d₂ : Diagram} {f g e : Edge} {rest : List Edge}

theorem nil (hd : d.Sound) : d.Halves [] (some []) d :=
  ⟨hd, .refl d, by simp, by simp, by simp, by simp⟩

theorem singleton (hd : d.Sound) (hf : d.Has f) :
    d.Halves [f] (if f = .zero then none else some [f]) d := by
  refine ⟨hd, .refl d, fun h a => ?_, ?_, ?_, ?_⟩
  · split_ifs at h with hz
    simp [hz]
  all_goals
    intro es h
    split_ifs at h
    obtain rfl := Option.some.inj h
    simp [hf]

theorem stop (hy : d.Yields (fun a => d.eval a f && d.eval a g) (.zero, d₁)) :
    d.Halves (f :: g :: rest) none d₁ := by
  refine ⟨hy.sound, hy.grows, fun _ a => ?_, by simp, by simp, by simp⟩
  have hfalse := hy.eval a
  rw [eval_zero] at hfalse
  simp [← Bool.and_assoc, ← hfalse]

theorem cons {r : Option (List Edge)} (hd : d.Sound)
    (hy : d.Yields (fun a => d.eval a f && d.eval a g) (e, d₁)) (hrest : ∀ e ∈ rest, d.Has e)
    (h : d₁.Halves rest r d₂) : d.Halves (f :: g :: rest) (r.map (e :: ·)) d₂ where
  sound := h.sound
  grows := hy.grows.trans h.grows
  eval_none hr a := by
    have hfalse := h.eval_none (Option.map_eq_none_iff.mp hr) a
    rw [hy.grows.all_eval_eq hd.toReduced hrest] at hfalse
    simp [hfalse]
  has es hes e' he' := by
    obtain ⟨es', hr, rfl⟩ := Option.map_eq_some_iff.mp hes
    rcases List.mem_cons.mp he' with rfl | he'
    · exact h.grows.has hy.has
    · exact h.has es' hr e' he'
  length es hes := by
    obtain ⟨es', hr, rfl⟩ := Option.map_eq_some_iff.mp hes
    simp only [List.length_cons, h.length es' hr]
    omega
  eval_some es hes a := by
    obtain ⟨es', hr, rfl⟩ := Option.map_eq_some_iff.mp hes
    have hev := hy.eval a
    rw [← h.grows.eval_eq hy.has hy.sound.toReduced] at hev
    simp only [List.all_cons, hev, h.eval_some es' hr a, hy.grows.all_eval_eq hd.toReduced hrest,
      Bool.and_assoc]

end Halves

theorem andPairs?_spec (fs : List Edge) {d : Diagram} (hd : d.Sound) (hfs : ∀ f ∈ fs, d.Has f) :
    ∃ r d', d.andPairs? fs = some (r, d') ∧ d.Halves fs r d' := by
  induction fs using List.twoStepInduction generalizing d with
  | nil => exact ⟨some [], d, rfl, .nil hd⟩
  | singleton f => exact ⟨_, d, rfl, .singleton hd (hfs f (List.mem_singleton_self f))⟩
  | cons_cons f g rest ih _ =>
    have hrest : ∀ e ∈ rest, d.Has e := fun e he => hfs e (by simp [he])
    obtain ⟨⟨e, d₁⟩, he, hy⟩ := and?_yields hd (hfs f (by simp)) (hfs g (by simp))
    by_cases hz : e = .zero
    · subst hz
      exact ⟨none, d₁, by simp [andPairs?, he], .stop hy⟩
    · obtain ⟨r, d₂, hr, hpost⟩ := ih hy.sound fun e he => hy.grows.has (hrest e he)
      exact ⟨r.map (e :: ·), d₂, by simp [andPairs?, he, hz, hr], .cons hd hy hrest hpost⟩

theorem andRounds?_yields (rounds : Nat) :
    ∀ (fs : List Edge) {d : Diagram}, d.Sound → (∀ f ∈ fs, d.Has f) → fs.length ≤ rounds + 1 →
      ∃ r, andRounds? rounds d fs = some r ∧ d.Yields (fun a => fs.all (d.eval a)) r := by
  induction rounds with
  | zero =>
    intro fs d hd hfs hlen
    match fs, hlen with
    | [], _ =>
      exact ⟨(.one, d), by simp [andRounds?], (Yields.self hd hd.has_one).congr fun a => by simp⟩
    | [f], _ =>
      exact ⟨(f, d), by simp [andRounds?],
        (Yields.self hd (hfs f (by simp))).congr fun a => by simp⟩
  | succ rounds ih =>
    intro fs d hd hfs hlen
    match fs with
    | [] =>
      exact ⟨(.one, d), by simp [andRounds?], (Yields.self hd hd.has_one).congr fun a => by simp⟩
    | [f] =>
      exact ⟨(f, d), by simp [andRounds?],
        (Yields.self hd (hfs f (by simp))).congr fun a => by simp⟩
    | f :: g :: rest =>
      obtain ⟨r, d₁, hr, h⟩ := andPairs?_spec (f :: g :: rest) hd hfs
      rcases r with _ | es
      · refine ⟨(.zero, d₁), by simp [andRounds?, hr], h.sound, h.grows, h.sound.has_zero,
          fun a => ?_⟩
        rw [eval_zero, h.eval_none rfl a]
      · have hes := h.length es rfl
        obtain ⟨r, hr', hy⟩ :=
          ih es h.sound (h.has es rfl) (by simp only [List.length_cons] at *; omega)
        exact ⟨r, by simp [andRounds?, hr, hr'], (hy.after h.grows).congr (h.eval_some es rfl)⟩

/-- The conjunction of a list, whatever its length and wherever it turns out to be false. -/
theorem andMany?_yields {d : Diagram} (hd : d.Sound) {fs : List Edge} (hfs : ∀ f ∈ fs, d.Has f) :
    ∃ r, d.andMany? fs = some r ∧ d.Yields (fun a => fs.all (d.eval a)) r :=
  andRounds?_yields _ fs hd hfs (Nat.le_succ _)

end Many

end Qualify.Diagram
