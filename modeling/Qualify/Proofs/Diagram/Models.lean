import Qualify.Diagram.Models
import Qualify.Proofs.Formula
import Qualify.Proofs.Diagram.Canonical

namespace Qualify.Diagram

variable {d : Diagram}

/-- Only the variables up to `n` matter to the edge. -/
def Upto (d : Diagram) (n : Nat) (e : Edge) : Prop :=
  ∀ a b, (∀ u ≤ n, a u = b u) → d.eval a e = d.eval b e

section Support

variable (hd : d.Reduced) {n : Nat} {e : Edge} (he : d.Has e) (hne : e.node ≠ Edge.terminal)
  (hn : d.Upto n e)

include hd he hne

theorem eval_low (a : Nat → Bool) :
    d.eval a (d.low e) = d.eval (Function.update a (d.varOf e) false) e := by
  rw [hd.eval_eq _ he hne, Function.update_self,
    hd.eval_update _ _ (hd.has_low he hne) (hd.past_low he hne)]
  rfl

theorem eval_high (a : Nat → Bool) :
    d.eval a (d.high e) = d.eval (Function.update a (d.varOf e) true) e := by
  rw [hd.eval_eq _ he hne, Function.update_self,
    hd.eval_update _ _ (hd.has_high he hne) (hd.past_high he hne)]
  rfl

include hn

theorem Upto.varOf_le : d.varOf e ≤ n := by
  by_contra hlt
  apply hd.branches_differ he hne fun f g hf hg _ _ hfg => hd.eq_of_eval_eq hf hg hfg
  intro a b hab
  exact hn a b fun u hu => hab u (by omega)

theorem Upto.low : d.Upto n (d.low e) := by
  intro a b hab
  rw [eval_low hd he hne, eval_low hd he hne]
  apply hn
  intro u hu
  simp only [Function.update_apply, hab u hu]

theorem Upto.high : d.Upto n (d.high e) := by
  intro a b hab
  rw [eval_high hd he hne, eval_high hd he hne]
  apply hn
  intro u hu
  simp only [Function.update_apply, hab u hu]

end Support

section Path

/-- What one step of the walk to true says, and where it goes: high unless that edge is false. -/
inductive Step (d : Diagram) : Edge → Lit → Edge → Prop where
  | high {e : Edge} {v : Var} (hv : v.number = d.varOf e) (hh : d.high e ≠ .zero) :
    Step d e v.pos (d.high e)
  | low {e : Edge} {v : Var} (hv : v.number = d.varOf e) (hh : d.high e = .zero) :
    Step d e v.neg (d.low e)

/-- The walk from an edge comes to true, and these are the literals of its steps. -/
inductive Walks (d : Diagram) : Edge → List Lit → Prop where
  | one : Walks d .one []
  | step {e f : Edge} {l : Lit} {ls : List Lit} (hne : e ≠ .one) (hstep : d.Step e l f)
    (hf : Walks d f ls) : Walks d e (l :: ls)

theorem Step.var_eq {e f : Edge} {l : Lit} (h : d.Step e l f) : l.var.number = d.varOf e := by
  cases h with
  | high hv => rw [Var.var_pos, hv]
  | low hv => rw [Var.var_neg, hv]

theorem Step.unique {e f f' : Edge} {l l' : Lit} (h : d.Step e l f) (h' : d.Step e l' f') :
    l = l' ∧ f = f' := by
  cases h with
  | high hv hh =>
    cases h' with
    | high hv' => exact ⟨congrArg Var.pos (Var.mk.injEq .. ▸ hv.trans hv'.symm), rfl⟩
    | low _ hz => exact absurd hz hh
  | low hv hh =>
    cases h' with
    | high _ hz => exact absurd hh hz
    | low hv' => exact ⟨congrArg Var.neg (Var.mk.injEq .. ▸ hv.trans hv'.symm), rfl⟩

/-- The walk has no choice. -/
theorem Walks.unique {e : Edge} {ls ls' : List Lit} (h : d.Walks e ls) (h' : d.Walks e ls') :
    ls = ls' := by
  induction h generalizing ls' with
  | one =>
    cases h' with
    | one => rfl
    | step hne => exact absurd rfl hne
  | step hne hstep _ ih =>
    cases h' with
    | one => exact absurd rfl hne
    | step _ hstep' hf' =>
      obtain ⟨rfl, rfl⟩ := hstep.unique hstep'
      rw [ih hf']

variable (hd : d.Reduced)

include hd

theorem high_or_low_ne_zero {e : Edge} (he : d.Has e) (hne : e.node ≠ Edge.terminal)
    (hh : d.high e = .zero) :
    d.low e ≠ .zero :=
  fun hl => hd.low_ne_high he hne (hl.trans hh.symm)

section Step

variable {e f : Edge} {l : Lit} (he : d.Has e) (h : d.Step e l f)

include he h

theorem Step.node_ne : e.node ≠ Edge.terminal := by
  have hpos : 0 < d.varOf e := h.var_eq ▸ l.var.positive
  exact fun ht => Nat.ne_of_gt hpos ((hd.varOf_eq_zero he).mpr ht)

/-- A step goes to an older node, never to false, and past the variable that it decides. -/
theorem Step.goes : d.Has f ∧ f ≠ .zero ∧ d.Past (d.varOf e) f := by
  have hne := h.node_ne hd he
  cases h with
  | high _ hh => exact ⟨hd.has_high he hne, hh, hd.past_high he hne⟩
  | low _ hh => exact ⟨hd.has_low he hne, high_or_low_ne_zero hd he hne hh, hd.past_low he hne⟩

/-- Where its literal holds, a step does not change the value. -/
theorem Step.eval_eq {a : Nat → Bool} (ha : l.eval a = true) : d.eval a e = d.eval a f := by
  rw [Lit.eval, h.var_eq] at ha
  rw [hd.eval_eq a he (h.node_ne hd he)]
  cases h with
  | high => simp_all
  | low => simp_all

end Step

namespace Walks

variable {e : Edge} {ls : List Lit} (h : d.Walks e ls) (he : d.Has e)

include h he

/-- The literals come by variable, after those that the edge is past. -/
theorem increasing : (∀ v, d.Past v e → ∀ l ∈ ls, v < l.var.number) ∧
    ls.Pairwise fun l l' => l.var.number < l'.var.number := by
  induction h with
  | one => exact ⟨by simp, .nil⟩
  | step _ hstep _ ih =>
    obtain ⟨hf, -, hp⟩ := hstep.goes hd he
    obtain ⟨hlater, hpair⟩ := ih hf
    have hvar := hstep.var_eq
    refine ⟨fun v hv => ?_, List.pairwise_cons.mpr ⟨fun l hl => hvar ▸ hlater _ hp l hl, hpair⟩⟩
    have hlt := hv.resolve_left (hstep.node_ne hd he)
    exact List.forall_mem_cons.mpr ⟨hvar ▸ hlt, hlater v (hp.mono hlt.le)⟩

/-- The literals together make the edge true. -/
theorem eval_eq_true {a : Nat → Bool} (ha : ∀ l ∈ ls, l.eval a = true) : d.eval a e = true := by
  induction h with
  | one => exact eval_one a
  | step _ hstep _ ih =>
    obtain ⟨hl, hls⟩ := List.forall_mem_cons.mp ha
    rw [hstep.eval_eq hd he hl]
    exact ih (hstep.goes hd he).1 hls

end Walks

/-- Every edge but zero is walked down to true, in fewer steps than its node has number. -/
theorem walks_pathToOne (fuel : Nat) {e : Edge} (he : d.Has e) (hz : e ≠ .zero)
    (hf : e.node ≤ fuel) :
    d.Walks e (d.pathToOne fuel e) := by
  induction fuel generalizing e with
  | zero =>
    have := he.1
    omega
  | succ fuel ih =>
    unfold pathToOne
    by_cases h1 : e = .one
    · rw [if_pos h1, h1]
      exact .one
    have hne : e.node ≠ Edge.terminal := fun ht => (eq_one_or_zero ht).elim h1 hz
    rw [if_neg h1, Var.ofNat?, dif_pos (hd.varOf_pos he hne)]
    have hlow := hd.low_lt he hne
    have hhigh := hd.high_lt he hne
    dsimp only
    split_ifs with hh
    · exact .step h1 (.high rfl hh) (ih (hd.has_high he hne) hh (by omega))
    · have hh := not_not.mp hh
      exact .step h1 (.low rfl hh)
        (ih (hd.has_low he hne) (high_or_low_ne_zero hd he hne hh) (by omega))

/-- The answer for an edge is its walk. -/
theorem oneModel?_eq_some_iff {e : Edge} (he : d.Has e) {ls : List Lit} :
    d.oneModel? e = some ls ↔ d.Walks e ls := by
  by_cases hz : e = .zero
  · subst hz
    rw [oneModel?, if_pos rfl]
    refine ⟨by rintro ⟨⟩, fun h => ?_⟩
    cases h with
    | step _ hstep => exact absurd rfl (hstep.node_ne hd he)
  · have hwalks := walks_pathToOne hd (e.node + 1) he hz (Nat.le_succ _)
    rw [oneModel?, if_neg hz, Option.some.injEq]
    exact ⟨fun h => h ▸ hwalks, hwalks.unique⟩

/-- An edge other than zero has a model, given by literals of different variables. -/
theorem oneModel?_spec {e : Edge} (he : d.Has e) (hz : e ≠ .zero) :
    ∃ ls, d.oneModel? e = some ls ∧ ls.Pairwise (fun l l' => l.var.number < l'.var.number) ∧
      ∀ a, (∀ l ∈ ls, l.eval a = true) → d.eval a e = true := by
  have hwalks := walks_pathToOne hd (e.node + 1) he hz (Nat.le_succ _)
  refine ⟨_, (oneModel?_eq_some_iff hd he).mpr hwalks, (hwalks.increasing hd he).2, fun a ha => ?_⟩
  exact hwalks.eval_eq_true hd he ha

end Path

end Qualify.Diagram
