import Qualify.Proofs.Diagram.Session

namespace Qualify.Diagram

section Congruence

variable {lits lits' : List Lit} (h : ∀ l, l ∈ lits ↔ l ∈ lits') (d : Diagram)

include h

theorem mkClause_congr : d.mkClause lits = d.mkClause lits' := by
  rw [mkClause, mkClause, Clause.normalize?_congr h]

theorem mkCube_congr : d.mkCube lits = d.mkCube lits' := by
  rw [mkCube, mkCube, Clause.normalize?_congr h]

end Congruence

/-- The edge of `r` is true exactly where `P` holds, and the edges of `d` keep their values. -/
structure Represents (d : Diagram) (P : (Nat → Bool) → Prop) (r : Edge × Diagram) : Prop where
  has : r.2.Has r.1
  eval_iff : ∀ a, r.2.eval a r.1 = true ↔ P a
  kept : ∀ e, d.Has e → r.2.Has e ∧ ∀ a, r.2.eval a e = d.eval a e

theorem Yields.represents {d : Diagram} (hd : d.Sound) {f : (Nat → Bool) → Bool}
    {P : (Nat → Bool) → Prop} {r : Edge × Diagram} (h : d.Yields f r) (hP : ∀ a, f a = true ↔ P a) :
    d.Represents P r where
  has := h.has
  eval_iff a := by rw [h.eval, hP]
  kept e he := ⟨h.grows.has he, h.grows.eval_eq he hd.toReduced⟩

namespace Session

/-- The edge that `make` gives is the one that `make'` gives after any further requests. -/
def FoundBy (s : Session) (make make' : Diagram → Edge × Diagram) : Prop :=
  ∀ (rs : List Request) (s' : Session),
    run? ⟨(make s.diagram).2, (make s.diagram).1 :: s.held⟩ (rs.map .ask) = some s' →
    (make' s'.diagram).1 = (make s.diagram).1

/-- One function has one edge, whenever and however it is asked for. -/
theorem Valid.foundBy {s : Session} (hs : s.Valid) {f : (Nat → Bool) → Bool}
    {make make' : Diagram → Edge × Diagram} (hmake : ∀ d : Diagram, d.Sound → d.Yields f (make d))
    (hmake' : ∀ d : Diagram, d.Sound → d.Yields f (make' d)) :
    s.FoundBy make make' := by
  intro rs s' hrun
  have hy := hmake s.diagram hs.sound
  have hasked : Valid ⟨(make s.diagram).2, (make s.diagram).1 :: s.held⟩ :=
    ⟨hy.sound, List.forall_mem_cons.mpr ⟨hy.has, fun e he => hy.grows.has (hs.has e he)⟩⟩
  have hs' := run?_valid hasked hrun
  obtain ⟨hmem, hkept⟩ := run?_asks hasked hrun List.mem_cons_self
  have hy' := hmake' s'.diagram hs'.sound
  have hhas := hs'.has _ hmem
  -- the old edge is still there with its values, beside the new one
  apply hy'.sound.eq_of_eval_eq hy'.has (hy'.grows.has hhas)
  intro a
  rw [hy'.eval, hy'.grows.eval_eq hhas hs'.sound.toReduced, hkept, hy.eval]

end Session

open Session

/-- In every state of a diagram the edge of a clause is true where some literal holds, the edge of a
cube where all of them do, and the conjunction of a list of edges has an edge, which is true where
all of these are. Literals in another order, or another number of times, give the same edge, now and
after any further requests. -/
theorem run_junction (sizing : Sizing) (cs : List Command) (s : Session)
    (h : (start sizing).run? cs = some s) :
    let d := s.diagram
    (∀ lits, d.Represents (fun a => ∃ l ∈ lits, l.eval a = true) (d.mkClause lits)) ∧
      (∀ lits, d.Represents (fun a => ∀ l ∈ lits, l.eval a = true) (d.mkCube lits)) ∧
      (∀ fs, (∀ f ∈ fs, d.Has f) →
        ∃ r, d.andMany? fs = some r ∧ d.Represents (fun a => ∀ f ∈ fs, d.eval a f = true) r) ∧
      ∀ lits lits', (∀ l, l ∈ lits ↔ l ∈ lits') →
        d.mkClause lits' = d.mkClause lits ∧ s.FoundBy (·.mkClause lits) (·.mkClause lits') ∧
        d.mkCube lits' = d.mkCube lits ∧ s.FoundBy (·.mkCube lits) (·.mkCube lits') := by
  intro d
  have hs := run?_valid (start_valid sizing) h
  have hd : d.Sound := hs.sound
  refine ⟨fun lits => ?_, fun lits => ?_, fun fs hfs => ?_,
    fun lits lits' hlits => ⟨?_, ?_, ?_, ?_⟩⟩
  · exact (mkClause_yields hd lits).represents hd fun a => by simp [Clause.eval]
  · exact (mkCube_yields hd lits).represents hd fun a => by simp
  · obtain ⟨r, hr, hy⟩ := andMany?_yields hd hfs
    exact ⟨r, hr, hy.represents hd fun a => by simp⟩
  · exact (mkClause_congr hlits d).symm
  · exact hs.foundBy (fun d hd => mkClause_yields hd lits) fun d hd => mkClause_congr hlits d ▸
      mkClause_yields hd lits
  · exact (mkCube_congr hlits d).symm
  · exact hs.foundBy (fun d hd => mkCube_yields hd lits) fun d hd => mkCube_congr hlits d ▸
      mkCube_yields hd lits

/-- A clause with a literal twice is found again, in another order, after another request. A cube
with opposite literals is false, and so is the conjunction of three edges whose last one is left
over in the first round. -/
theorem run_junction_unordered :
    let twice : List Lit := [⟨3, by decide⟩, ⟨-1, by decide⟩, ⟨3, by decide⟩, ⟨2, by decide⟩]
    let once : List Lit := [⟨2, by decide⟩, ⟨3, by decide⟩, ⟨-1, by decide⟩]
    let opposed : List Lit := [⟨2, by decide⟩, ⟨-1, by decide⟩, ⟨-2, by decide⟩]
    ∃ s, (start ⟨0, 0⟩).run? [.ask (.lit ⟨2, by decide⟩)] = some s ∧
      (∃ s', run? ⟨(s.diagram.mkClause twice).2, (s.diagram.mkClause twice).1 :: s.held⟩
        [.ask (.cube once)] = some s' ∧
        (s'.diagram.mkClause once).1 = (s.diagram.mkClause twice).1) ∧
      ((s.diagram.mkCube opposed).1 = .zero ∧ ∀ a, ¬∀ l ∈ opposed, l.eval a = true) ∧
      (∃ r, s.diagram.andMany? [⟨2, false⟩, .one, ⟨2, true⟩] = some r ∧ r.1 = .zero) ∧
      ∀ a, ¬∀ f ∈ [(⟨2, false⟩ : Edge), .one, ⟨2, true⟩], s.diagram.eval a f = true := by
  intro twice once opposed
  have hrun : ((start ⟨0, 0⟩).run? [.ask (.lit ⟨2, by decide⟩)]).map (fun s => (s.diagram.nodeCount,
      (run? ⟨(s.diagram.mkClause twice).2, (s.diagram.mkClause twice).1 :: s.held⟩
        [.ask (.cube once)]).isSome,
      (s.diagram.mkCube opposed).1, (s.diagram.andMany? [⟨2, false⟩, .one, ⟨2, true⟩]).map (·.1))) =
      some (2, true, .zero, some .zero) := by cbv
  obtain ⟨s, hs, hvalue⟩ := Option.map_eq_some_iff.mp hrun
  rw [Prod.mk.injEq, Prod.mk.injEq, Prod.mk.injEq] at hvalue
  obtain ⟨hcount, hlater, hcube, hand⟩ := hvalue
  obtain ⟨s', hs'⟩ := Option.isSome_iff_exists.mp hlater
  obtain ⟨r, hr, hzero⟩ := Option.map_eq_some_iff.mp hand
  obtain ⟨-, hcubes, hmany, hsame⟩ := run_junction _ _ s hs
  have hhas : ∀ f ∈ [(⟨2, false⟩ : Edge), .one, ⟨2, true⟩], s.diagram.Has f := by
    intro f hf
    simp only [List.mem_cons, List.not_mem_nil, or_false] at hf
    rcases hf with rfl | rfl | rfl <;> simp [Has, hcount, Edge.one, Edge.terminal]
  obtain ⟨-, hfound, -⟩ := hsame twice once (by simp [twice, once]; tauto)
  obtain ⟨r', hr', hrepresents⟩ := hmany _ hhas
  obtain rfl := Option.some.inj (hr.symm.trans hr')
  refine ⟨s, hs, ⟨s', hs', hfound [.cube once] s' hs'⟩, ⟨hcube, fun a ha => ?_⟩, ⟨r, hr, hzero⟩,
    fun a ha => ?_⟩
  · have htrue := ((hcubes opposed).eval_iff a).mpr ha
    rw [hcube, eval_zero] at htrue
    cases htrue
  · have htrue := (hrepresents.eval_iff a).mpr ha
    rw [hzero, eval_zero] at htrue
    cases htrue

end Qualify.Diagram
