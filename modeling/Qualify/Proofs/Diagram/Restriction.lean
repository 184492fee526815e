import Qualify.Diagram.Restriction
import Qualify.Proofs.Lists
import Qualify.Proofs.Diagram.Growth

namespace Qualify.Diagram

def overlay (values : Nat → Option Bool) (a : Nat → Bool) (v : Nat) : Bool := (values v).getD (a v)

namespace Restriction

variable {values : Nat → Option Bool} {d : Diagram} {s : Restriction}

/-- Every finished node stands for the node of `d` with the values laid over. -/
structure Correct (d : Diagram) (values : Nat → Option Bool) (s : Restriction) : Prop where
  sound : s.diagram.Sound
  grows : d.Extends s.diagram
  done : ∀ i e, s.done.getD i none = some e →
    s.diagram.Has e ∧ ∀ a, s.diagram.eval a e = d.eval (overlay values a) ⟨i, false⟩

abbrev Restricts (d : Diagram) (values : Nat → Option Bool) (s : Restriction) (i : Nat)
    (r : Edge × Restriction) :
    Prop :=
  r.2.Correct d values ∧ s.diagram.Yields (fun a => d.eval (overlay values a) ⟨i, false⟩)
    (r.1, r.2.diagram)

theorem Correct.grow (h : s.Correct d values) {d' : Diagram} (hs : d'.Sound)
    (hx : s.diagram.Extends d') :
    Correct d values ⟨d', s.done⟩ :=
  ⟨hs, h.grows.trans hx, fun i e hi => ⟨hx.has (h.done i e hi).1, fun a => by
    rw [hx.eval_eq (h.done i e hi).1 h.sound.toReduced, (h.done i e hi).2 a]⟩⟩

/-- A new answer may be noted down. -/
theorem Restricts.note {s₀ : Restriction} {i : Nat} {r : Edge × Restriction}
    (h : Restricts d values s₀ i r) :
    Restricts d values s₀ i (r.1, ⟨r.2.diagram, r.2.done.setIfInBounds i (some r.1)⟩) := by
  refine ⟨⟨h.1.sound, h.1.grows, fun j e hj => ?_⟩, h.2⟩
  rw [Array.getD_setIfInBounds] at hj
  split_ifs at hj with hij
  · obtain ⟨rfl, -⟩ := hij
    obtain rfl := Option.some.inj hj
    exact ⟨h.2.has, h.2.eval⟩
  · exact h.1.done j e hj

/-- An answer for the node of an edge is one for the edge, up to its sign. -/
theorem Restricts.edge {e : Edge} {r : Edge × Restriction} (h : Restricts d values s e.node r) :
    s.diagram.Yields (fun a => d.eval (overlay values a) e) (r.1.negateIf e.negated, r.2.diagram) :=
  (h.2.negateIf e.negated).congr fun a => by simp [eval]

/-- With the values laid over, the function of an edge does not depend on more variables than the
edge. -/
theorem overlay_congr (hd : d.Reduced) {v : Nat} {e : Edge} (he : d.Has e) (hp : d.Past v e)
    (a b : Nat → Bool) (hab : ∀ u, v < u → a u = b u) :
    d.eval (overlay values a) e = d.eval (overlay values b) e :=
  hd.eval_congr (fun u hu => by rw [overlay, overlay, hab u hu]) he hp

/-- Each node is restricted once: a finished one is answered from its note, any other after its
branches. -/
theorem node_restricts (hd : d.Reduced) (fuel : Nat) :
    ∀ {s : Restriction}, s.Correct d values → ∀ {i : Nat},
    1 ≤ i → i ≤ d.nodeCount → i ≤ fuel → Restricts d values s i (node values fuel s i) := by
  induction fuel with
  | zero => intro s _ i hi _ hf; omega
  | succ fuel ih =>
    intro s hs i hi hc hf
    unfold node
    by_cases ht : i = Edge.terminal
    · rw [if_pos ht]
      exact ⟨hs, (Yields.self hs.sound hs.sound.has_one).congr fun a => by rw [ht]; rfl⟩
    rw [if_neg ht]
    split
    · next e he => exact ⟨hs, (Yields.self hs.sound (hs.done i e he).1).congr (hs.done i e he).2⟩
    · have hn : s.diagram.node i = d.node i := hs.grows.node_eq i hc
      have hhas : d.Has ⟨i, false⟩ := ⟨hi, hc⟩
      have heval : ∀ a, d.eval (overlay values a) ⟨i, false⟩ =
          if overlay values a (d.node i).var then d.eval (overlay values a) (d.node i).high
          else d.eval (overlay values a) (d.node i).low := fun a => hd.eval_eq _ hhas ht
      have hp : d.Proper i (d.node i) := hd.proper_of_ne hhas ht
      have hl_lt := hp.low_lt
      have hh_lt := hp.high_lt
      have hlow := ih hs hp.low_pos (by omega) (by omega)
      simp only [hn]
      cases hv : values (d.node i).var with
      | some b =>
        -- a variable with a value leaves one branch
        have hnext : Restricts d values s (if b then (d.node i).high else (d.node i).low).node
            (node values fuel s (if b then (d.node i).high else (d.node i).low).node) := by
          cases b
          · exact hlow
          · exact ih hs hp.high_pos (hh_lt.le.trans hc) (Nat.le_of_lt_succ (hh_lt.trans_le hf))
        refine Restricts.note (r := (_, _)) ⟨hnext.1, hnext.edge.congr fun a => ?_⟩
        rw [heval a, overlay, hv]
        cases b <;> rfl
      | none =>
        have hhigh := ih hlow.1 hp.high_pos (by omega) (by omega)
        have hx := hhigh.2.grows
        have hle := hlow.edge
        have hhe := hhigh.edge
        have hmk := mkNode_yields hhigh.1.sound hp.var_pos (hx.has hle.has) hhe.has
          ((hx.past_iff hle.has).mpr
            (hle.past (overlay_congr hd ⟨hp.low_pos, by omega⟩ hp.low_past)))
          (hhe.past (overlay_congr hd ⟨hp.high_pos, by omega⟩ hp.high_past))
        refine Restricts.note (r := (_, ⟨_, _⟩)) ⟨hhigh.1.grow hmk.sound hmk.grows,
          (hmk.after (hle.grows.trans hx)).congr fun a => ?_⟩
        rw [heval a, overlay, hv, hhe.eval, hx.eval_eq hle.has hlow.1.sound.toReduced, hle.eval]
        rfl

end Restriction

/-- The edge with the values laid over, in a diagram that has grown. -/
theorem restrict_yields {d : Diagram} (hd : d.Sound) (values : Nat → Option Bool) {f : Edge}
    (hf : d.Has f) :
    d.Yields (fun a => d.eval (overlay values a) f) (d.restrict values f) := by
  have hs : Restriction.Correct d values ⟨d, Array.replicate (d.nodeCount + 1) none⟩ :=
    ⟨hd, .refl d, fun i e hi => by rw [Array.getD_replicate_self] at hi; cases hi⟩
  exact (Restriction.node_restricts hd.toReduced _ hs hf.1 hf.2 (Nat.le_succ _)).edge

end Qualify.Diagram
