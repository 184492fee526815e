import Qualify.Proofs.Diagram.Session

namespace Qualify.Diagram

namespace Conditional

inductive Move where
  | value (e : Edge)
  | again (f g h : Edge)
  | stuck
  | settled

/-- `e` tests a variable, and an earlier one than `f`. -/
def Before (d : Diagram) (e f : Edge) : Prop := d.varOf e ≠ 0 ∧ d.varOf e < d.varOf f

instance (d : Diagram) (e f : Edge) : Decidable (Before d e f) :=
  inferInstanceAs (Decidable (_ ∧ _))

/-- A branch that is the condition or its negation becomes a constant. -/
def substitution? (f g h : Edge) : Option (Edge × Edge × Edge) :=
  if g = f then some (f, .one, h)
  else if h = f then some (f, g, .zero)
  else if g = -f then some (f, .zero, h)
  else if h = -f then some (f, g, .one)
  else none

def exchange? (d : Diagram) (f g h : Edge) : Option (Edge × Edge × Edge) :=
  if g = .one ∧ Before d h f then some (h, .one, f)
  else if h = .zero ∧ Before d g f then some (g, f, .zero)
  else if h = .one ∧ Before d g f then some (-g, -f, .one)
  else if g = .zero ∧ Before d h f then some (-h, .zero, -f)
  else if g = -h ∧ Before d g f then some (g, f, -f)
  else none

/-- One rewriting at a time, the first that fits. A condition that tests no variable is a failure at
this point. -/
def move (d : Diagram) (f g h : Edge) : Move :=
  match atHand? f g h with
  | some e => .value e
  | none =>
    match substitution? f g h with
    | some (f, g, h) => .again f g h
    | none =>
      if d.varOf f = 0 then .stuck
      else
        match exchange? d f g h with
        | some (f, g, h) => .again f g h
        | none => .settled

end Conditional

open Conditional

/-- A call for `if f then g else h` in a diagram, and its result. There is none for a call that
fails, and none for calls that go on forever. -/
inductive Evaluates : Diagram → Edge → Edge → Edge → Edge × Diagram → Prop
  | value {d : Diagram} {f g h e : Edge} (hmove : move d f g h = .value e) :
    Evaluates d f g h (e, d)
  | again {d : Diagram} {f g h f' g' h' : Edge} {r : Edge × Diagram}
      (hmove : move d f g h = .again f' g' h')
      (hagain : Evaluates d f' g' h' r) : Evaluates d f g h r
  | recalled {d : Diagram} {f g h f' g' h' e : Edge} {b : Bool} (hmove : move d f g h = .settled)
      (htriple : unsign f g h = .triple f' g' h' b)
        (hfound : (d.cache.get (f', g', h')).1 = some e) :
      Evaluates d f g h (e.negateIf b, d.consulted f' g' h')
  | expanded {d d₁ d₂ : Diagram} {f g h f' g' h' f₀ f₁ g₀ g₁ h₀ h₁ e t : Edge} {b : Bool} {m : Nat}
      (hmove : move d f g h = .settled) (htriple : unsign f g h = .triple f' g' h' b)
      (hfound : (d.cache.get (f', g', h')).1 = none)
        (hm : (d.consulted f' g' h').topVariable f' g' h' = m)
      (hf : (d.consulted f' g' h').cofactors? f' m = some (f₀, f₁))
      (hg : (d.consulted f' g' h').cofactors? g' m = some (g₀, g₁))
      (hh : (d.consulted f' g' h').cofactors? h' m = some (h₀, h₁))
      (hlow : Evaluates (d.consulted f' g' h') f₀ g₀ h₀ (e, d₁))
        (hhigh : Evaluates d₁ f₁ g₁ h₁ (t, d₂)) :
      Evaluates d f g h ((d₂.mkNode m e t).1.negateIf b,
        (d₂.mkNode m e t).2.noted f' g' h' (d₂.mkNode m e t).1)

/-- A call has one result at most. -/
theorem Evaluates.unique {d : Diagram} {f g h : Edge} {r r' : Edge × Diagram}
    (hr : Evaluates d f g h r) (hr' : Evaluates d f g h r') : r' = r := by
  induction hr generalizing r' with
  | value hmove =>
    cases hr' with
    | value hmove' =>
      cases hmove.symm.trans hmove'
      rfl
    | again hmove' => cases hmove.symm.trans hmove'
    | recalled hmove' => cases hmove.symm.trans hmove'
    | expanded hmove' => cases hmove.symm.trans hmove'
  | again hmove _ ih =>
    cases hr' with
    | value hmove' => cases hmove.symm.trans hmove'
    | again hmove' hagain' =>
      cases hmove.symm.trans hmove'
      exact ih hagain'
    | recalled hmove' => cases hmove.symm.trans hmove'
    | expanded hmove' => cases hmove.symm.trans hmove'
  | recalled hmove htriple hfound =>
    cases hr' with
    | value hmove' => cases hmove.symm.trans hmove'
    | again hmove' => cases hmove.symm.trans hmove'
    | recalled _ htriple' hfound' =>
      cases htriple.symm.trans htriple'
      cases hfound.symm.trans hfound'
      rfl
    | expanded _ htriple' hfound' =>
      cases htriple.symm.trans htriple'
      cases hfound.symm.trans hfound'
  | expanded hmove htriple hfound hm hf hg hh _ _ ihlow ihhigh =>
    cases hr' with
    | value hmove' => cases hmove.symm.trans hmove'
    | again hmove' => cases hmove.symm.trans hmove'
    | recalled _ htriple' hfound' =>
      cases htriple.symm.trans htriple'
      cases hfound.symm.trans hfound'
    | expanded _ htriple' _ hm' hf' hg' hh' hlow' hhigh' =>
      cases htriple.symm.trans htriple'
      cases hm.symm.trans hm'
      cases hf.symm.trans hf'
      cases hg.symm.trans hg'
      cases hh.symm.trans hh'
      cases ihlow hlow'
      cases ihhigh hhigh'
      rfl

section Rewriting

variable {d : Diagram} {f g h f' g' h' : Edge} {r : Edge × Diagram}

theorem Evaluates.of_atHand? {e : Edge} (he : atHand? f g h = some e) : Evaluates d f g h (e, d) :=
  .value (by rw [move, he])

theorem Evaluates.of_substitution? (hhand : atHand? f g h = none)
    (hsub : substitution? f g h = some (f', g', h')) (hr : Evaluates d f' g' h' r) :
    Evaluates d f g h r :=
  .again (by rw [move, hhand, hsub]) hr

theorem node_eq_terminal {e : Edge} : e.node = Edge.terminal ↔ e = .one ∨ e = .zero :=
  ⟨eq_one_or_zero, by rintro (rfl | rfl) <;> rfl⟩

theorem atHand?_eq_none : atHand? f g h = none ↔
    f.node ≠ Edge.terminal ∧ g ≠ h ∧ (g.node ≠ Edge.terminal ∨ h.node ≠ Edge.terminal) := by
  simp only [atHand?, Ne, node_eq_terminal]
  grind

/-- Substitution in both branches at once takes the place of at most two calls. -/
theorem substitution?_cases (hhand : atHand? f g h = none) :
    substitute f g h = (g, h) ∨ substitution? f g h = some (f, substitute f g h) ∨
      ∃ g' h', substitution? f g h = some (f, g', h') ∧ atHand? f g' h' = none ∧
        substitution? f g' h' = some (f, substitute f g h) := by
  obtain ⟨hf, hgh, -⟩ := atHand?_eq_none.mp hhand
  have hneg : -f ≠ f := by simp [Edge.ext_iff]
  have hconstant : ∀ {e : Edge}, e.node = Edge.terminal → e ≠ f ∧ e ≠ -f := by
    intro e he
    exact ⟨fun hef => hf (hef ▸ he), fun hef => hf (by rw [← he, hef, Edge.node_neg])⟩
  obtain ⟨hone, hone'⟩ := @hconstant .one rfl
  obtain ⟨hzero, hzero'⟩ := @hconstant .zero rfl
  -- Two calls are needed if the branches are the condition and its negation. The first one is not
  -- at hand then.
  by_cases hboth : (g = f ∨ g = -f) ∧ (h = f ∨ h = -f)
  · right; right
    obtain ⟨rfl | rfl, rfl | rfl⟩ := hboth
    · exact absurd rfl hgh
    · exact ⟨.one, -g, by grind [substitution?], by grind [atHand?_eq_none],
        by grind [substitution?, substitute]⟩
    · exact ⟨-h, .zero, by grind [substitution?], by grind [atHand?_eq_none],
        by grind [substitution?, substitute]⟩
    · exact absurd rfl hgh
  · rw [← or_assoc]
    left
    grind [substitution?, substitute]

theorem Evaluates.of_substitute (hhand : atHand? f g h = none)
    (hr : Evaluates d f (substitute f g h).1 (substitute f g h).2 r) : Evaluates d f g h r := by
  obtain hsame | hsub | ⟨g', h', hsub, hhand', hsub'⟩ := substitution?_cases hhand
  · rwa [hsame] at hr
  · exact .of_substitution? hhand hsub hr
  · exact .of_substitution? hhand hsub (.of_substitution? hhand' hsub' hr)

theorem substitution?_substitute (hf : f.node ≠ Edge.terminal) :
    substitution? f (substitute f g h).1 (substitute f g h).2 = none := by
  simp only [substitution?, substitute]
  grind [Edge.ext_iff, Edge.one, Edge.zero, Edge.node_neg, Edge.negated_neg]

theorem exchange_eq (d : Diagram) (f g h : Edge) :
    exchange d f g h = (exchange? d f g h).getD (f, g, h) := by
  grind [exchange, exchange?, Before]

/-- An exchange puts an edge of a smaller variable in front, and leaves the old condition with at
most one constant. -/
theorem exchange?_spec (hf : f.node ≠ Edge.terminal) (hx : exchange? d f g h = some (f', g', h')) :
    Before d f' f ∧ (g'.node = f.node ∨ g'.node = Edge.terminal) ∧
      (h'.node = f.node ∨ h'.node = Edge.terminal) ∧
      g' ≠ h' ∧ (g'.node ≠ Edge.terminal ∨ h'.node ≠ Edge.terminal) := by
  unfold exchange? at hx
  split_ifs at hx with h1 h2 h3 h4 h5 <;> cases hx
  · exact ⟨h1.2, .inr rfl, .inl rfl, fun hsame => hf (congrArg Edge.node hsame).symm, .inr hf⟩
  · exact ⟨h2.2, .inl rfl, .inr rfl, fun hsame => hf (congrArg Edge.node hsame), .inl hf⟩
  · exact ⟨h3.2, .inl rfl, .inr rfl, fun hsame => hf (congrArg Edge.node hsame), .inl hf⟩
  · exact ⟨h4.2, .inr rfl, .inl rfl, fun hsame => hf (congrArg Edge.node hsame).symm, .inr hf⟩
  · exact ⟨h5.2, .inl rfl, .inl rfl, by simp [Edge.ext_iff], .inl hf⟩

/-- After an exchange nothing is left to rewrite. -/
theorem move_exchange? (hd : d.Reduced) (hf : f.node ≠ Edge.terminal)
    (hx : exchange? d f g h = some (f', g', h')) :
    move d f' g' h' = .settled := by
  obtain ⟨⟨hvar, hlt⟩, hg, hh, hne, hterminal⟩ := exchange?_spec hf hx
  have hconstant : ∀ {e : Edge}, e.node = Edge.terminal → d.varOf e = 0 := by
    intro e he
    rw [varOf, he, hd.node_terminal, Node.terminal]
  -- The new branches are constants, or test the variable of the old condition, which is the later
  -- one.
  have hlater : ∀ {e : Edge}, e.node = f.node ∨ e.node = Edge.terminal → e.node ≠ f'.node ∧
      ¬Before d e f' := by
    rintro e (he | he)
    · have hvarOf : d.varOf e = d.varOf f := by rw [varOf, varOf, he]
      refine ⟨fun hef => ?_, fun hbefore => ?_⟩
      · rw [← hvarOf, varOf, varOf, hef] at hlt
        exact lt_irrefl _ hlt
      · exact lt_asymm hlt (hvarOf ▸ hbefore.2)
    · refine ⟨fun hef => hvar (hconstant (hef ▸ he)), fun hbefore => hbefore.1 (hconstant he)⟩
  obtain ⟨hgf, hgb⟩ := hlater hg
  obtain ⟨hhf, hhb⟩ := hlater hh
  have hhand : atHand? f' g' h' = none :=
    atHand?_eq_none.mpr ⟨fun hf' => hvar (hconstant hf'), hne, hterminal⟩
  have hsub : substitution? f' g' h' = none := by
    simp [substitution?, Edge.ext_iff, hgf, hhf]
  have hexchange : exchange? d f' g' h' = none := by
    simp [exchange?, hgb, hhb]
  simp [move, hhand, hsub, hexchange, hvar]

/-- The calls that rewrite a conditional end where `standardize` goes at once. -/
theorem exists_standardize (hd : d.Reduced) (hf : d.Has f) :
    ∃ p q s, (∀ r, Evaluates d p q s r → Evaluates d f g h r) ∧
      ((∃ e, atHand? p q s = some e ∧ standardize d f g h = .value e) ∨
        (move d p q s = .settled ∧ standardize d f g h = unsign p q s)) := by
  rw [standardize]
  rcases hhand : atHand? f g h with _ | e
  · have hne := ne_terminal_of_atHand? hhand
    have hvar : d.varOf f ≠ 0 := Nat.ne_of_gt (hd.varOf_pos hf hne)
    have hsub := @substitution?_substitute f g h hne
    have hstep : ∀ r, Evaluates d f (substitute f g h).1 (substitute f g h).2 r →
        Evaluates d f g h r :=
      fun r => .of_substitute hhand
    generalize substitute f g h = branches at hsub hstep ⊢
    obtain ⟨g', h'⟩ := branches
    dsimp only at hsub hstep ⊢
    rcases hhand' : atHand? f g' h' with _ | e
    · rw [exchange_eq]
      rcases hx : exchange? d f g' h' with _ | ⟨p, q, s⟩
      · have hmove : move d f g' h' = .settled := by simp [move, hhand', hsub, hvar, hx]
        exact ⟨f, g', h', hstep, .inr ⟨hmove, rfl⟩⟩
      · have hmove : move d f g' h' = .again p q s := by simp [move, hhand', hsub, hvar, hx]
        exact ⟨p, q, s, fun r hr => hstep r (.again hmove hr), .inr ⟨move_exchange? hd hne hx, rfl⟩⟩
    · exact ⟨f, g', h', hstep, .inl ⟨e, hhand', rfl⟩⟩
  · exact ⟨f, g, h, fun _ hr => hr, .inl ⟨e, hhand, rfl⟩⟩

end Rewriting

def Reached (fuel : Nat) : Prop :=
  ∀ {d : Diagram} {f g h : Edge} {r : Edge × Diagram}, d.Sound → d.Has f → d.Has g → d.Has h →
    effort f g h < fuel →
    iteWithin fuel d f g h = some r → Evaluates d f g h r

theorem Reached.expansion {fuel : Nat} (ih : Reached fuel) {d : Diagram} {f g h : Edge}
    {r : Edge × Diagram} (hd : d.Sound) (hf : d.Has f) (hg : d.Has g) (hh : d.Has h)
    (hne : f.node ≠ Edge.terminal) (hlt : effort f g h ≤ fuel)
    (hr : expansion fuel d (d.topVariable f g h) f g h = some r) :
    ∃ f₀ f₁ g₀ g₁ h₀ h₁ e t d₁ d₂, d.cofactors? f (d.topVariable f g h) = some (f₀, f₁) ∧
      d.cofactors? g (d.topVariable f g h) = some (g₀, g₁) ∧
      d.cofactors? h (d.topVariable f g h) = some (h₀, h₁) ∧
      Evaluates d f₀ g₀ h₀ (e, d₁) ∧ Evaluates d₁ f₁ g₁ h₁ (t, d₂) ∧
        d₂.mkNode (d.topVariable f g h) e t = r := by
  obtain ⟨-, f₀, f₁, g₀, g₁, h₀, h₁, hfc, hgc, hhc, hb₀, hb₁⟩ :=
    topVariable_branches hd.toReduced hf hg hh hne
  have hlt₀ := hb₀.effort_lt.trans_le hlt
  have hlt₁ := hb₁.effort_lt.trans_le hlt
  obtain ⟨⟨e, d₁⟩, he, hye⟩ :=
    iteWithin_answers fuel hd hb₀.has_condition hb₀.has_then hb₀.has_else hlt₀
  have hf₁ := hye.grows.has hb₁.has_condition
  have hg₁ := hye.grows.has hb₁.has_then
  have hh₁ := hye.grows.has hb₁.has_else
  obtain ⟨⟨t, d₂⟩, ht, -⟩ := iteWithin_answers fuel hye.sound hf₁ hg₁ hh₁ hlt₁
  refine ⟨f₀, f₁, g₀, g₁, h₀, h₁, e, t, d₁, d₂, hfc, hgc, hhc, ?_, ?_, ?_⟩
  · exact ih hd hb₀.has_condition hb₀.has_then hb₀.has_else hlt₀ he
  · exact ih hye.sound hf₁ hg₁ hh₁ hlt₁ ht
  · simpa [Diagram.expansion, hfc, hgc, hhc, he, ht] using hr

theorem iteWithin_reached (fuel : Nat) : Reached fuel := by
  induction fuel with
  | zero => intro d f g h r _ _ _ _ hlt; omega
  | succ fuel ih =>
    intro d f g h r hd hf hg hh hlt hrun
    obtain ⟨p, q, s, hstep, ⟨e, hhand, hs⟩ | ⟨hmove, hs⟩⟩ :=
      @exists_standardize d f g h hd.toReduced hf
    · rw [iteWithin, hs] at hrun
      cases hrun
      exact hstep _ (.of_atHand? hhand)
    · obtain ⟨f', g', h', b, hunsign, -⟩ := unsign_restates d p q s
      rw [hunsign] at hs
      obtain ⟨hr, hne⟩ : Restates d f g h f' g' h' b ∧ f'.node ≠ Edge.terminal := by
        rcases standardize_cases hd.toReduced hf hg hh with ⟨e, hs', -⟩ | ⟨_, _, _, _, hs', hr⟩
        · cases hs.symm.trans hs'
        · cases hs.symm.trans hs'
          exact hr
      obtain ⟨hf', hg', hh'⟩ := hr.has hd.toReduced hf hg hh
      rw [iteWithin_triple hs (Nat.ne_of_gt (hd.varOf_pos hf' hne))] at hrun
      apply hstep
      rcases hget : (d.cache.get (f', g', h')).1 with _ | e
      · have hx : d.Extends (d.consulted f' g' h') := .withCache d _
        have heff := effort_le_of_subset hr.spots_subset
        rw [hget] at hrun
        obtain ⟨x, hexpansion, rfl⟩ := Option.map_eq_some_iff.mp hrun
        obtain ⟨f₀, f₁, g₀, g₁, h₀, h₁, e, t, d₁, d₂, hfc, hgc, hhc, hlow, hhigh, rfl⟩ :=
          ih.expansion (hd.consulted f' g' h').1 (hx.has hf') (hx.has hg') (hx.has hh') hne
            (by omega) hexpansion
        exact .expanded hmove hunsign hget rfl hfc hgc hhc hlow hhigh
      · rw [hget] at hrun
        cases hrun
        exact .recalled hmove hunsign hget

/-- If-then-else by expansion alone: no rewriting, and no cache. -/
def shannonWithin : Nat → Diagram → Edge → Edge → Edge → Option (Edge × Diagram)
  | 0, _, _, _, _ => none
  | fuel + 1, d, f, g, h =>
    if f = .one then some (g, d)
    else if f = .zero then some (h, d)
    else do
      let m := d.topVariable f g h
      let (f₀, f₁) ← d.cofactors? f m
      let (g₀, g₁) ← d.cofactors? g m
      let (h₀, h₁) ← d.cofactors? h m
      let (e, d) ← shannonWithin fuel d f₀ g₀ h₀
      let (t, d) ← shannonWithin fuel d f₁ g₁ h₁
      some (d.mkNode m e t)

def shannon? (d : Diagram) (f g h : Edge) : Option (Edge × Diagram) :=
  shannonWithin (f.node + g.node + h.node + 1) d f g h

/-- Where an edge has the values of a conditional, its cofactor has those of the branch. -/
theorem Branch.eval_cofactor {d : Diagram} (hd : d.Reduced) {m : Nat} {b : Bool}
    {f g h f' g' h' e e' : Edge} (hb : d.Branch m b f g h f' g' h') (he' : d.Has e')
    (hp : d.Past m e') (heval : ∀ a, d.eval a e = d.evalIf a f g h)
    (hside : ∀ a, a m = b → d.eval a e = d.eval a e') (a : Nat → Bool) :
    d.eval a e' = d.evalIf a f' g' h' := by
  have hm : Function.update a m b m = b := Function.update_self ..
  calc d.eval a e' = d.eval (Function.update a m b) e' := (hd.eval_update a b he' hp).symm
    _ = d.evalIf (Function.update a m b) f' g' h' := by rw [← hside _ hm, heval, hb.eval _ hm]
    _ = d.evalIf a f' g' h' := hb.congr fun u hu => Function.update_of_ne (Nat.ne_of_gt hu) _ _

section Shannon

variable {d : Diagram} (hd : d.Sound)

include hd

/-- A node for a function that has an edge already is not made again. -/
theorem mkNode_eq_of_eval {v : Nat} {low high e : Edge} (hv : 0 < v) (hl : d.Has low)
    (hh : d.Has high) (hlp : d.Past v low) (hhp : d.Past v high) (he : d.Has e)
    (heval : ∀ a, d.eval a e = if a v then d.eval a high else d.eval a low) :
    d.mkNode v low high = (e, d) := by
  have hy := mkNode_yields hd hv hl hh hlp hhp
  have hedge : (d.mkNode v low high).1 = e := by
    refine hy.sound.eq_of_eval_eq hy.has (hy.grows.has he) fun a => ?_
    rw [hy.eval a, hy.grows.eval_eq he hd.toReduced, heval a]
  refine Prod.ext hedge ?_
  rw [mkNode] at hedge ⊢
  split_ifs at hedge ⊢ with hne
  · rfl
  · dsimp only at hedge ⊢
    generalize (⟨v, low.negateIf high.negated, high.negateIf high.negated⟩ : Node) = n at hedge ⊢
    rcases UniqueTable.put_cases hd.coherent n with ⟨m, -, hput, -⟩ | ⟨-, hput, -⟩
    · rw [hput]
    · -- a new node has a new number
      have hle := he.2
      rw [← hedge, hput] at hle
      exact absurd hle (Nat.not_succ_le_self _)

/-- Nothing that the plain expansion needs is missing in a diagram that has an edge for its
value. -/
theorem shannonWithin_eq (fuel : Nat) {f g h e : Edge} (hf : d.Has f) (hg : d.Has g) (hh : d.Has h)
    (hlt : effort f g h < fuel) (he : d.Has e) (heval : ∀ a, d.eval a e = d.evalIf a f g h) :
    shannonWithin fuel d f g h = some (e, d) := by
  induction fuel generalizing f g h e with
  | zero => omega
  | succ fuel ih =>
    rw [shannonWithin]
    split_ifs with hone hzero
    · obtain rfl : e = g := hd.eq_of_eval_eq he hg fun a => by
        rw [heval a, hone, evalIf, eval_one, if_pos rfl]
      rfl
    · obtain rfl : e = h := hd.eq_of_eval_eq he hh fun a => by simp [heval a, hzero, evalIf]
      rfl
    · have hne : f.node ≠ Edge.terminal := fun hf => (eq_one_or_zero hf).elim hone hzero
      obtain ⟨hm, f₀, f₁, g₀, g₁, h₀, h₁, hfc, hgc, hhc, hb₀, hb₁⟩ :=
        topVariable_branches hd.toReduced hf hg hh hne
      have hpast : d.Past (d.topVariable f g h - 1) e := by
        obtain ⟨-, hle, -⟩ := topVariable_spec hd.toReduced hf hg hh hne
        have hpast : ∀ e', e' = f ∨ e' = g ∨ e' = h → d.Past (d.topVariable f g h - 1) e' :=
          fun e' he' => (hle e' he').imp_right fun hle => by omega
        refine hd.past_of_eval_congr he fun a b hab => ?_
        rw [heval a, heval b]
        exact hd.evalIf_congr hf hg hh (hpast f (.inl rfl)) (hpast g (.inr (.inl rfl)))
          (hpast h (.inr (.inr rfl))) hab
      simp only [hfc, hgc, hhc, Option.bind_eq_bind, Option.bind_some]
      generalize d.topVariable f g h = m at hm hb₀ hb₁ hpast ⊢
      obtain ⟨e₀, e₁, -, he₀, he₁, hp₀, hp₁, -, -, hsplit⟩ :=
        cofactors?_spec hd.toReduced hm he (hpast.imp_right fun hlt => by omega)
      have heval₀ := hb₀.eval_cofactor hd.toReduced he₀ hp₀ heval fun a ha => by
        rw [hsplit a, ha]; rfl
      have heval₁ := hb₁.eval_cofactor hd.toReduced he₁ hp₁ heval fun a ha => by
        rw [hsplit a, if_pos ha]
      rw [ih hb₀.has_condition hb₀.has_then hb₀.has_else (by have := hb₀.effort_lt; omega)
        he₀ heval₀]
      dsimp only [Option.bind_some]
      rw [ih hb₁.has_condition hb₁.has_then hb₁.has_else (by have := hb₁.effort_lt; omega)
        he₁ heval₁]
      dsimp only [Option.bind_some]
      rw [mkNode_eq_of_eval hd hm he₀ he₁ hp₀ hp₁ he hsplit]

end Shannon

/-- The conditional of `f`, `g` and `h` in `d` comes out as `e`, and leaves `d'`. -/
structure Decides (d : Diagram) (f g h e : Edge) (d' : Diagram) : Prop where
  answer : d.ite? f g h = some (e, d')
  /-- The calls come to an end, none fails, and the end is this one. -/
  evaluates_iff : ∀ r, d.Evaluates f g h r ↔ r = (e, d')
  has : d'.Has e
  eval : ∀ a, d'.eval a e = if d.eval a f then d.eval a g else d.eval a h
  kept : ∀ e', d.Has e' → d'.Has e' ∧ ∀ a, d'.eval a e' = d.eval a e'
  /-- The plain expansion finds the same edge, and all that it goes through. -/
  shannon : d'.shannon? f g h = some (e, d')

theorem Sound.decides {d : Diagram} (hd : d.Sound) {f g h : Edge} (hf : d.Has f) (hg : d.Has g)
    (hh : d.Has h) :
    ∃ e d', d.Decides f g h e d' := by
  obtain ⟨⟨e, d'⟩, hite, hy⟩ := ite?_yields hd hf hg hh
  have hcalls : d.Evaluates f g h (e, d') := iteWithin_reached _ hd hf hg hh (effort_lt f g h) hite
  refine ⟨e, d', hite, fun r => ⟨hcalls.unique, ?_⟩, hy.has, hy.eval,
    fun e' he' => ⟨hy.grows.has he', ?_⟩, ?_⟩
  · rintro rfl
    exact hcalls
  · exact hy.grows.eval_eq he' hd.toReduced
  · refine shannonWithin_eq hy.sound _ (hy.grows.has hf) (hy.grows.has hg) (hy.grows.has hh)
      (effort_lt f g h) hy.has ?_
    intro a
    rw [hy.grows.evalIf_eq hd.toReduced hf hg hh]
    exact hy.eval a

namespace Session

/-- After every run, whatever it left in the cache, a conditional of edges of the diagram is
decided, and conjunction comes from it. -/
theorem run_conditional (sizing : Sizing) (cs : List Command) (s : Session)
    (hrun : (start sizing).run? cs = some s) (f g h : Edge) (hf : s.diagram.Has f)
    (hg : s.diagram.Has g) (hh : s.diagram.Has h) :
    (∃ e d, s.diagram.Decides f g h e d) ∧
      ∃ e d, s.diagram.and? f g = some (e, d) ∧ d.Has e ∧
        ∀ a, d.eval a e = (s.diagram.eval a f && s.diagram.eval a g) := by
  have hd : s.diagram.Sound := (run?_valid (start_valid sizing) hrun).sound
  obtain ⟨⟨e, d⟩, hand, hy⟩ := and?_yields hd hf hg
  exact ⟨hd.decides hf hg hh, e, d, hand, hy.has, hy.eval⟩

/-- Two variables, and a cache of one line that an earlier conjunction has taken. A conditional on
the second variable whose branches are the first one and its negation turns to the first variable,
and then moves the negations. -/
theorem run_conditional_exchanged :
    ∃ s, (start ⟨0, 0⟩).run? [.ask (.lit ⟨-1, by decide⟩), .ask (.lit ⟨2, by decide⟩),
        .ask (.and ⟨3, false⟩ ⟨2, true⟩)] = some s ∧
      (∃ e d, s.diagram.Decides ⟨3, false⟩ ⟨2, true⟩ ⟨2, false⟩ e d) ∧
      ∃ e d, s.diagram.and? ⟨3, false⟩ ⟨2, true⟩ = some (e, d) ∧ d.Has e ∧
        ∀ a, d.eval a e = (s.diagram.eval a ⟨3, false⟩ && s.diagram.eval a ⟨2, true⟩) := by
  have hcount : ((start ⟨0, 0⟩).run? [.ask (.lit ⟨-1, by decide⟩), .ask (.lit ⟨2, by decide⟩),
      .ask (.and ⟨3, false⟩ ⟨2, true⟩)]).map (·.diagram.nodeCount) = some 4 := by cbv
  obtain ⟨s, hs, hcount⟩ := Option.map_eq_some_iff.mp hcount
  have hhas : ∀ e : Edge, 1 ≤ e.node → e.node ≤ 4 → s.diagram.Has e :=
    fun e h1 h4 => ⟨h1, h4.trans_eq hcount.symm⟩
  exact ⟨s, hs, run_conditional _ _ s hs _ _ _ (hhas _ (by decide) (by decide))
    (hhas _ (by decide) (by decide)) (hhas _ (by decide) (by decide))⟩

end Session

end Qualify.Diagram
