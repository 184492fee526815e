import Qualify.Proofs.Diagram.Support

namespace Qualify.Diagram

section Walk

variable {d : Diagram} (hd : d.Reduced) {e : Edge} (he : d.Has e)

include hd he

theorem Step.mentions {f : Edge} {l : Lit} (h : d.Step e l f) {v : Nat} (hv : d.Mentions f v) :
    d.Mentions e v := by
  rw [mentions_iff (h.node_ne hd he)]
  cases h with
  | high => exact .inr (.inr hv)
  | low => exact .inr (.inl hv)

/-- Only variables of the edge are decided. -/
theorem Walks.mentions {ls : List Lit} (h : d.Walks e ls) :
    ∀ l ∈ ls, d.Mentions e l.var.number := by
  induction h with
  | one => simp
  | step _ hstep _ ih =>
    rw [List.forall_mem_cons]
    constructor
    · rw [mentions_iff (hstep.node_ne hd he)]
      exact .inl hstep.var_eq
    · intro l hl
      exact hstep.mentions hd he (ih (hstep.goes hd he).1 l hl)

theorem oneModel?_eq_none_iff : d.oneModel? e = none ↔ ¬∃ a, d.eval a e = true := by
  have hnone : d.oneModel? e = none ↔ e = .zero := by
    rw [oneModel?]
    split_ifs with hz <;> simp [hz]
  rw [hnone, hd.eq_zero_iff he]
  simp

end Walk

open Session

/-- In every state of a diagram there is no answer for an edge that is false everywhere. For any
other edge the walk comes to true, and it answers with its literals: they are of variables of the
edge, one each and in their order, and wherever all of them hold the edge is true. -/
theorem run_oneModel (sizing : Sizing) (cs : List Command) (s : Session)
    (h : (start sizing).run? cs = some s) (f : Edge) (hf : s.diagram.Has f) :
    (s.diagram.oneModel? f = none ↔ ¬∃ a, s.diagram.eval a f = true) ∧
      ((∃ a, s.diagram.eval a f = true) → ∃ ls, s.diagram.oneModel? f = some ls ∧
        s.diagram.Walks f ls ∧
        ls.Pairwise (fun l l' => l.var.number < l'.var.number) ∧
          (∀ l ∈ ls, s.diagram.Mentions f l.var.number) ∧
        ∀ a, (∀ l ∈ ls, l.eval a = true) → s.diagram.eval a f = true) := by
  have hd := (run?_valid (start_valid sizing) h).sound.toReduced
  refine ⟨oneModel?_eq_none_iff hd hf, fun hsat => ?_⟩
  have hsome : s.diagram.oneModel? f ≠ none :=
    fun hnone => (oneModel?_eq_none_iff hd hf).mp hnone hsat
  obtain ⟨ls, hls⟩ := Option.ne_none_iff_exists'.mp hsome
  have hwalks := (oneModel?_eq_some_iff hd hf).mp hls
  exact ⟨ls, hls, hwalks, (hwalks.increasing hd hf).2, hwalks.mentions hd hf,
    fun a => hwalks.eval_eq_true hd hf⟩

/-- Not the first variable, and the second or the third one: the walk goes low once and does not
come to the third. The edge and its opposite together have no model. -/
theorem run_oneModel_lowFirst :
    ∃ s, (start ⟨0, 0⟩).run? [.ask (.lit ⟨-1, by decide⟩),
      .ask (.clause [⟨3, by decide⟩, ⟨2, by decide⟩]),
        .ask (.and ⟨2, true⟩ ⟨4, false⟩), .ask (.negate ⟨5, true⟩),
          .ask (.and ⟨5, true⟩ ⟨5, false⟩)] = some s ∧
      s.diagram.oneModel? ⟨5, true⟩ = some [⟨-1, by decide⟩, ⟨2, by decide⟩] ∧
      (∀ a : Nat → Bool, a 1 = false → a 2 = true → s.diagram.eval a ⟨5, true⟩ = true) ∧
      ∃ e, s.held.head? = some e ∧ s.diagram.oneModel? e = none ∧
        ¬∃ a, s.diagram.eval a e = true := by
  have hrun : ((start ⟨0, 0⟩).run? [.ask (.lit ⟨-1, by decide⟩),
      .ask (.clause [⟨3, by decide⟩, ⟨2, by decide⟩]), .ask (.and ⟨2, true⟩ ⟨4, false⟩),
      .ask (.negate ⟨5, true⟩), .ask (.and ⟨5, true⟩ ⟨5, false⟩)]).map (fun s =>
        (s.diagram.nodeCount, s.diagram.oneModel? ⟨5, true⟩, s.held.head?,
          s.diagram.oneModel? .zero)) =
      some (5, some [⟨-1, by decide⟩, ⟨2, by decide⟩], some .zero, none) := by cbv
  obtain ⟨s, hs, hvalue⟩ := Option.map_eq_some_iff.mp hrun
  rw [Prod.mk.injEq, Prod.mk.injEq, Prod.mk.injEq] at hvalue
  obtain ⟨hcount, hmodel, hheld, hzero⟩ := hvalue
  obtain ⟨hnone, hsome⟩ := run_oneModel _ _ s hs ⟨5, true⟩ ⟨by decide, hcount.ge⟩
  obtain ⟨ls, hls, -, -, -, himplies⟩ := hsome (not_not.mp (mt hnone.mpr (by rw [hmodel]; simp)))
  obtain rfl := Option.some.inj (hmodel.symm.trans hls)
  refine ⟨s, hs, hmodel, fun a h1 h2 => himplies a ?_, .zero, hheld, hzero, ?_⟩
  · have h1 : Lit.eval a ⟨-1, by decide⟩ = true := by simp [Lit.eval, Lit.var, Lit.isPositive, h1]
    have h2 : Lit.eval a ⟨2, by decide⟩ = true := by simp [Lit.eval, Lit.var, Lit.isPositive, h2]
    simp [h1, h2]
  · exact (run_oneModel _ _ s hs .zero ⟨by decide, by rw [hcount]; decide⟩).1.mp hzero

end Qualify.Diagram
