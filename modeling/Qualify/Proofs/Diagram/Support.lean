import Qualify.Proofs.Diagram.Models
import Qualify.Proofs.Diagram.Session

namespace Qualify.Diagram

/-- The nodes that can be reached from some edges, and the terminal. -/
inductive Below (d : Diagram) (roots : List Edge) : Nat → Prop where
  | terminal : Below d roots Edge.terminal
  | root {e : Edge} (he : e ∈ roots) : Below d roots e.node
  | low {i : Nat} (hi : Below d roots i) (hne : i ≠ Edge.terminal) :
    Below d roots (d.node i).low.node
  | high {i : Nat} (hi : Below d roots i) (hne : i ≠ Edge.terminal) :
    Below d roots (d.node i).high.node

def Mentions (d : Diagram) (e : Edge) (v : Nat) : Prop :=
  ∃ i, d.Below [e] i ∧ i ≠ Edge.terminal ∧ (d.node i).var = v

def DependsOn (d : Diagram) (e : Edge) (v : Nat) : Prop :=
  ∃ a, d.eval (Function.update a v false) e ≠ d.eval (Function.update a v true) e

section Below

variable {d : Diagram} {roots : List Edge} {i : Nat}

theorem Below.has (hd : d.Reduced) (hroots : ∀ e ∈ roots, d.Has e) (h : d.Below roots i) :
    d.Has ⟨i, false⟩ := by
  induction h with
  | terminal => exact hd.has_one
  | @root e he => exact hroots e he
  | low _ hne ih => exact hd.has_low ih hne
  | high _ hne ih => exact hd.has_high ih hne

/-- What is below the edges of nodes that are below is below. -/
theorem Below.trans {roots' : List Edge} (h : d.Below roots' i)
    (hroots : ∀ e ∈ roots', d.Below roots e.node) :
    d.Below roots i := by
  induction h with
  | terminal => exact .terminal
  | root he => exact hroots _ he
  | low _ hne ih => exact ih.low hne
  | high _ hne ih => exact ih.high hne

/-- A node below an inner edge is its own node or below one of its branches. -/
theorem below_singleton {e : Edge} (hne : e.node ≠ Edge.terminal) :
    d.Below [e] i ↔ i = e.node ∨ d.Below [d.low e] i ∨ d.Below [d.high e] i := by
  constructor
  · intro h
    induction h with
    | terminal => exact .inr (.inl .terminal)
    | root he => exact .inl (congrArg Edge.node (List.mem_singleton.mp he))
    | low _ hi ih =>
      rcases ih with rfl | ih | ih
      · refine .inr (.inl ?_)
        simpa [low] using Below.root (d := d) (List.mem_singleton_self (d.low e))
      · exact .inr (.inl (ih.low hi))
      · exact .inr (.inr (ih.low hi))
    | high _ hi ih =>
      rcases ih with rfl | ih | ih
      · refine .inr (.inr ?_)
        simpa [high] using Below.root (d := d) (List.mem_singleton_self (d.high e))
      · exact .inr (.inl (ih.high hi))
      · exact .inr (.inr (ih.high hi))
  · have hself : d.Below [e] e.node := .root (List.mem_singleton_self e)
    rintro (rfl | h | h)
    · exact hself
    · refine h.trans fun f hf => ?_
      rw [List.mem_singleton.mp hf]
      simpa [low] using hself.low hne
    · refine h.trans fun f hf => ?_
      rw [List.mem_singleton.mp hf]
      simpa [high] using hself.high hne

end Below

section Mentions

variable {d : Diagram} {e : Edge} {v : Nat}

theorem not_mentions (ht : e.node = Edge.terminal) : ¬d.Mentions e v := by
  rintro ⟨i, hi, hne, -⟩
  have hall : ∀ {j}, d.Below [e] j → j = Edge.terminal := by
    intro j hj
    induction hj with
    | terminal => rfl
    | root he => rw [List.mem_singleton.mp he, ht]
    | low _ hne ih => exact absurd ih hne
    | high _ hne ih => exact absurd ih hne
  exact hne (hall hi)

theorem mentions_iff (hne : e.node ≠ Edge.terminal) :
    d.Mentions e v ↔ v = d.varOf e ∨ d.Mentions (d.low e) v ∨ d.Mentions (d.high e) v := by
  unfold Mentions
  simp only [below_singleton hne, or_and_right, exists_or, exists_eq_left]
  simp only [hne, ne_eq, not_false_eq_true, true_and, varOf, eq_comm (a := v)]

theorem not_dependsOn (ht : e.node = Edge.terminal) : ¬d.DependsOn e v := by
  rintro ⟨a, ha⟩
  rcases eq_one_or_zero ht with rfl | rfl <;> exact ha rfl

variable (hd : d.Reduced)

include hd

theorem ne_varOf_of_dependsOn {f : Edge} (hf : d.Has f) (hp : d.Past (d.varOf e) f)
    (h : d.DependsOn f v) :
    v ≠ d.varOf e := by
  rintro rfl
  obtain ⟨a, ha⟩ := h
  rw [hd.eval_update _ _ hf hp, hd.eval_update _ _ hf hp] at ha
  exact ha rfl

/-- An inner edge depends on the variable that it tests, as its branches differ, and on what these
depend on. -/
theorem dependsOn_iff (he : d.Has e) (hne : e.node ≠ Edge.terminal) :
    d.DependsOn e v ↔ v = d.varOf e ∨ d.DependsOn (d.low e) v ∨ d.DependsOn (d.high e) v := by
  have hl := hd.has_low he hne
  have hh := hd.has_high he hne
  constructor
  · rintro ⟨a, ha⟩
    by_contra hno
    push Not at hno
    obtain ⟨hv, hlow, hhigh⟩ := hno
    apply ha
    have hlow : d.eval (Function.update a v false) (d.low e) =
        d.eval (Function.update a v true) (d.low e) :=
      not_not.mp fun h => hlow ⟨a, h⟩
    have hhigh : d.eval (Function.update a v false) (d.high e) =
        d.eval (Function.update a v true) (d.high e) :=
      not_not.mp fun h => hhigh ⟨a, h⟩
    rw [hd.eval_eq _ he hne, hd.eval_eq _ he hne, hlow, hhigh, Function.update_of_ne (Ne.symm hv),
      Function.update_of_ne (Ne.symm hv)]
  · rintro (rfl | hlow | hhigh)
    · by_contra hno
      apply hd.low_ne_high he hne
      refine hd.eq_of_eval_eq hl hh fun a => ?_
      rw [eval_low hd he hne, eval_high hd he hne]
      exact not_not.mp fun h => hno ⟨a, h⟩
    · have hv := ne_varOf_of_dependsOn hd hl (hd.past_low he hne) hlow
      obtain ⟨a, ha⟩ := hlow
      refine ⟨Function.update a (d.varOf e) false, ?_⟩
      rwa [eval_low hd he hne, eval_low hd he hne, Function.update_comm hv,
        Function.update_comm hv] at ha
    · have hv := ne_varOf_of_dependsOn hd hh (hd.past_high he hne) hhigh
      obtain ⟨a, ha⟩ := hhigh
      refine ⟨Function.update a (d.varOf e) true, ?_⟩
      rwa [eval_high hd he hne, eval_high hd he hne, Function.update_comm hv,
        Function.update_comm hv] at ha

theorem mentions_iff_dependsOn (he : d.Has e) : d.Mentions e v ↔ d.DependsOn e v := by
  induction hn : e.node using Nat.strong_induction_on generalizing e with
  | _ n ih =>
    subst hn
    by_cases hne : e.node = Edge.terminal
    · exact iff_of_false (not_mentions hne) (not_dependsOn hne)
    · rw [mentions_iff hne, dependsOn_iff hd he hne,
        ih _ (hd.low_lt he hne) (hd.has_low he hne) rfl,
        ih _ (hd.high_lt he hne) (hd.has_high he hne) rfl]

/-- Only the variables that it mentions matter to an edge. -/
theorem eval_congr_of_mentions (he : d.Has e) {a b : Nat → Bool}
    (hab : ∀ v, d.Mentions e v → a v = b v) :
    d.eval a e = d.eval b e := by
  induction hn : e.node using Nat.strong_induction_on generalizing e with
  | _ n ih =>
    subst hn
    by_cases hne : e.node = Edge.terminal
    · rcases eq_one_or_zero hne with rfl | rfl <;> rfl
    · have hlow := ih _ (hd.low_lt he hne) (hd.has_low he hne)
        (fun v hv => hab v ((mentions_iff hne).mpr (.inr (.inl hv)))) rfl
      have hhigh := ih _ (hd.high_lt he hne) (hd.has_high he hne)
        (fun v hv => hab v ((mentions_iff hne).mpr (.inr (.inr hv)))) rfl
      rw [hd.eval_eq a he hne, hd.eval_eq b he hne, hab _ ((mentions_iff hne).mpr (.inl rfl)),
        hlow, hhigh]

theorem upto_iff (he : d.Has e) {n : Nat} : d.Upto n e ↔ ∀ v, d.Mentions e v → v ≤ n := by
  constructor
  · intro hn v hv
    obtain ⟨a, ha⟩ := (mentions_iff_dependsOn hd he).mp hv
    by_contra hlt
    refine ha (hn _ _ fun u hu => ?_)
    have huv : u ≠ v := by omega
    rw [Function.update_of_ne huv, Function.update_of_ne huv]
  · intro hn a b hab
    exact eval_congr_of_mentions hd he fun v hv => hab v (hn v hv)

theorem Extends.dependsOn_iff {d' : Diagram} (hx : d.Extends d') (he : d.Has e) :
    d'.DependsOn e v ↔ d.DependsOn e v := by
  simp only [DependsOn, hx.eval_eq he hd]

end Mentions

section Restrict

variable {d : Diagram} {values : Nat → Option Bool} {v : Nat}

theorem overlay_update_of_some {x : Bool} (hv : values v = some x) (a : Nat → Bool) (b : Bool) :
    overlay values (Function.update a v b) = overlay values a := by
  funext u
  by_cases hu : u = v
  · subst hu
    rw [overlay, overlay, hv]
    rfl
  · rw [overlay, overlay, Function.update_of_ne hu]

theorem overlay_update_of_none (hv : values v = none) (a : Nat → Bool) (b : Bool) :
    overlay values (Function.update a v b) = Function.update (overlay values a) v b := by
  funext u
  by_cases hu : u = v
  · subst hu
    rw [overlay, hv, Function.update_self, Function.update_self]
    rfl
  · rw [overlay, Function.update_of_ne hu, Function.update_of_ne hu, overlay]

variable (hd : d.Sound) {f : Edge} (hf : d.Has f)

include hd hf

theorem dependsOn_of_restrict (h : (d.restrict values f).2.DependsOn (d.restrict values f).1 v) :
    d.DependsOn f v ∧ values v = none := by
  obtain ⟨a, ha⟩ := h
  have heval := (restrict_yields hd values hf).eval
  rw [heval, heval] at ha
  cases hv : values v with
  | some x =>
    rw [overlay_update_of_some hv, overlay_update_of_some hv] at ha
    exact absurd rfl ha
  | none =>
    rw [overlay_update_of_none hv, overlay_update_of_none hv] at ha
    exact ⟨⟨_, ha⟩, rfl⟩

/-- Nothing is left to restrict, and only then the edge stays the same. -/
theorem restrict_eq_self_iff :
    (d.restrict values f).1 = f ↔ ∀ v, (values v).isSome = true → ¬d.DependsOn f v := by
  have hy := restrict_yields hd values hf
  constructor
  · intro hself v hv hdep
    have hdep' : (d.restrict values f).2.DependsOn (d.restrict values f).1 v := by
      rwa [hself, hy.grows.dependsOn_iff hd.toReduced hf]
    rw [(dependsOn_of_restrict hd hf hdep').2] at hv
    cases hv
  · intro hno
    refine hy.sound.eq_of_eval_eq hy.has (hy.grows.has hf) fun a => ?_
    rw [hy.eval a, hy.grows.eval_eq hf hd.toReduced]
    refine eval_congr_of_mentions hd.toReduced hf fun v hv => ?_
    have hnone : values v = none := by
      by_contra hsome
      exact hno v (Option.isSome_iff_ne_none.mpr hsome)
        ((mentions_iff_dependsOn hd.toReduced hf).mp hv)
    rw [overlay, hnone]
    rfl

end Restrict

section Session

open Session

/-- In every state of a diagram a restriction puts the values in for their variables. It mentions no
variable with a value and none that the edge did not mention, and it is the edge itself exactly if
that depends on none of them. -/
theorem run_restrict (sizing : Sizing) (cs : List Command) (s : Session)
    (h : (start sizing).run? cs = some s) (f : Edge) (hf : s.diagram.Has f)
    (values : Nat → Option Bool) :
    let r := s.diagram.restrict values f
    r.2.Has r.1 ∧ (∀ a, r.2.eval a r.1 = s.diagram.eval (overlay values a) f) ∧
      (∀ v, r.2.Mentions r.1 v → s.diagram.Mentions f v ∧ values v = none) ∧
      (r.1 = f ↔ ∀ v, (values v).isSome = true → ¬s.diagram.DependsOn f v) ∧
      ∀ e, s.diagram.Has e → r.2.Has e ∧ ∀ a, r.2.eval a e = s.diagram.eval a e := by
  have hs := (run?_valid (start_valid sizing) h).sound
  have hy := restrict_yields hs values hf
  refine ⟨hy.has, hy.eval, fun v hv => ?_, restrict_eq_self_iff hs hf, fun e he => ?_⟩
  · rw [mentions_iff_dependsOn hy.sound.toReduced hy.has] at hv
    rw [mentions_iff_dependsOn hs.toReduced hf]
    exact dependsOn_of_restrict hs hf hv
  · exact ⟨hy.grows.has he, hy.grows.eval_eq he hs.toReduced⟩

/-- A clause of three literals loses the one whose variable is true; a variable that it does not
have changes nothing. -/
theorem run_restrict_clause :
    ∃ s, (start ⟨0, 0⟩).run?
        [.ask (.clause [⟨1, by decide⟩, ⟨-2, by decide⟩, ⟨3, by decide⟩])] = some s ∧
      (s.diagram.restrict (valuesOf [⟨2, by decide⟩]) ⟨4, false⟩).1 = ⟨5, false⟩ ∧
      ¬(s.diagram.restrict (valuesOf [⟨2, by decide⟩]) ⟨4, false⟩).2.Mentions ⟨5, false⟩ 2 ∧
      (s.diagram.restrict (valuesOf [⟨-5, by decide⟩]) ⟨4, false⟩).1 = ⟨4, false⟩ ∧
      ¬s.diagram.DependsOn ⟨4, false⟩ 5 := by
  have hrun : ((start ⟨0, 0⟩).run?
      [.ask (.clause [⟨1, by decide⟩, ⟨-2, by decide⟩, ⟨3, by decide⟩])]).map (fun s =>
        (s.diagram.nodeCount, (s.diagram.restrict (valuesOf [⟨2, by decide⟩]) ⟨4, false⟩).1,
          (s.diagram.restrict (valuesOf [⟨-5, by decide⟩]) ⟨4, false⟩).1)) =
      some (4, ⟨5, false⟩, ⟨4, false⟩) := by cbv
  obtain ⟨s, hs, hvalue⟩ := Option.map_eq_some_iff.mp hrun
  rw [Prod.mk.injEq, Prod.mk.injEq] at hvalue
  obtain ⟨hcount, htrue, hother⟩ := hvalue
  have hhas : s.diagram.Has ⟨4, false⟩ := ⟨by decide, hcount.ge⟩
  obtain ⟨-, -, hmentions, -⟩ := run_restrict _ _ s hs ⟨4, false⟩ hhas (valuesOf [⟨2, by decide⟩])
  obtain ⟨-, -, -, hself, -⟩ := run_restrict _ _ s hs ⟨4, false⟩ hhas (valuesOf [⟨-5, by decide⟩])
  refine ⟨s, hs, htrue, fun h => ?_, hother, hself.mp hother 5 (by decide)⟩
  have hnone := (hmentions 2 (htrue ▸ h)).2
  cases hnone

end Session

end Qualify.Diagram
