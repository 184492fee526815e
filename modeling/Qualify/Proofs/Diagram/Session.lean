import Qualify.Proofs.Diagram.Literals
import Qualify.Proofs.Diagram.Conditional
import Qualify.Proofs.Diagram.Restriction
import Qualify.Proofs.Diagram.Collection

namespace Qualify.Diagram

inductive Request where
  | var (v : Var)
  | lit (l : Lit)
  | cube (lits : List Lit)
  | clause (lits : List Lit)
  | ite (f g h : Edge)
  | and (f g : Edge)
  | andMany (fs : List Edge)
  | restrict (values : Nat → Option Bool) (f : Edge)
  | node (v : Var) (low high : Edge)
  | negate (f : Edge)

namespace Request

def edges : Request → List Edge
  | var _ | lit _ | cube _ | clause _ => []
  | ite f g h => [f, g, h]
  | and f g => [f, g]
  | andMany fs => fs
  | restrict _ f => [f]
  | node _ low high => [low, high]
  | negate f => [f]

/-- A node may be asked for if its edges test later variables than it does. -/
def ordered (d : Diagram) : Request → Bool
  | node v low high => [low, high].all fun e => e.isTerminal || decide (v.number < d.varOf e)
  | _ => true

def answer? (d : Diagram) : Request → Option (Edge × Diagram)
  | var v => some (d.mkVar v)
  | lit l => some (d.mkLit l)
  | cube lits => some (d.mkCube lits)
  | clause lits => some (d.mkClause lits)
  | ite f g h => d.ite? f g h
  | and f g => d.and? f g
  | andMany fs => d.andMany? fs
  | restrict values f => some (d.restrict values f)
  | node v low high => some (d.mkNode v.number low high)
  | negate f => some (-f, d)

/-- The function asked for, where `value` is that of the edges in the request. -/
def meaning (value : (Nat → Bool) → Edge → Bool) (a : Nat → Bool) : Request → Bool
  | var v => a v.number
  | lit l => l.eval a
  | cube lits => lits.all (·.eval a)
  | clause lits => lits.any (·.eval a)
  | ite f g h => if value a f then value a g else value a h
  | and f g => value a f && value a g
  | andMany fs => fs.all (value a)
  | restrict values f => value (overlay values a) f
  | node v low high => if a v.number then value a high else value a low
  | negate f => !value a f

theorem answer?_yields {d : Diagram} (hd : d.Sound) (r : Request) (hr : ∀ e ∈ r.edges, d.Has e)
    (ho : r.ordered d = true) :
    ∃ x, r.answer? d = some x ∧ d.Yields (fun a => r.meaning d.eval a) x := by
  cases r with
  | var v => exact ⟨_, rfl, mkVar_yields hd v⟩
  | lit l => exact ⟨_, rfl, (mkLit_yields hd l).congr fun a => (l.eval_eq_xor a).symm⟩
  | cube lits => exact ⟨_, rfl, mkCube_yields hd lits⟩
  | clause lits => exact ⟨_, rfl, mkClause_yields hd lits⟩
  | ite f g h =>
    exact ite?_yields hd (hr f (by simp [edges])) (hr g (by simp [edges])) (hr h (by simp [edges]))
  | and f g => exact and?_yields hd (hr f (by simp [edges])) (hr g (by simp [edges]))
  | andMany fs => exact andMany?_yields hd hr
  | restrict values f => exact ⟨_, rfl, restrict_yields hd values (hr f (by simp [edges]))⟩
  | node v low high =>
    have hp : ∀ e ∈ [low, high], d.Past v.number e := by
      simpa only [ordered, Past, List.all_eq_true, Bool.or_eq_true, decide_eq_true_eq,
        Edge.isTerminal, beq_iff_eq] using ho
    exact ⟨_, rfl, mkNode_yields hd v.positive (hr low (by simp [edges]))
      (hr high (by simp [edges])) (hp low (by simp)) (hp high (by simp))⟩
  | negate f =>
    exact ⟨_, rfl, (Yields.self hd (hr f (by simp [edges]))).negateIf true |>.congr
      fun a => by simp [meaning]⟩

end Request

inductive Command where
  | ask (r : Request)
  | collect (roots : List Edge)

/-- A diagram and the edges that may still be used. -/
structure Session where
  diagram : Diagram
  held : List Edge

namespace Session

def start (sizing : Sizing) : Session := ⟨Diagram.new sizing, [.one, .zero]⟩

/-- An answer joins the edges at hand. A collection leaves its roots, under their new names, and the
constants. -/
def step? (s : Session) : Command → Option Session
  | .ask r =>
    if r.edges ⊆ s.held ∧ r.ordered s.diagram then
      (r.answer? s.diagram).map fun x => ⟨x.2, x.1 :: s.held⟩
    else none
  | .collect roots =>
    if roots ⊆ s.held then
      let (roots, diagram) := s.diagram.collect roots
      some ⟨diagram, .one :: .zero :: roots⟩
    else none

def run? (s : Session) (cs : List Command) : Option Session := cs.foldlM step? s

theorem run?_cons (s : Session) (c : Command) (cs : List Command) :
    s.run? (c :: cs) = (s.step? c).bind fun t => t.run? cs := rfl

structure Valid (s : Session) : Prop where
  sound : s.diagram.Sound
  has : ∀ e ∈ s.held, s.diagram.Has e

variable {s s' : Session}

theorem start_valid (sizing : Sizing) : (start sizing).Valid := by
  refine ⟨sound_new sizing, fun e he => ?_⟩
  rcases List.mem_pair.mp he with rfl | rfl
  · exact (sound_new sizing).has_one
  · exact (sound_new sizing).has_zero

/-- The roots of a collection may be used from then on, and the constants. -/
theorem collect_valid {d : Diagram} (hd : d.Reduced) {roots : List Edge}
    (hroots : ∀ e ∈ roots, d.Has e) :
    Valid ⟨(d.collect roots).2, .one :: .zero :: (d.collect roots).1⟩ := by
  obtain ⟨hsound, hnames⟩ := collect_spec hd hroots
  refine ⟨hsound, fun e he => ?_⟩
  rcases List.mem_cons.mp he with rfl | he
  · exact hsound.has_one
  rcases List.mem_cons.mp he with rfl | he
  · exact hsound.has_zero
  obtain ⟨i, hi, rfl⟩ := List.getElem_of_mem he
  exact (hnames.get (hnames.length_eq ▸ hi) hi).1

section Step

variable (hs : s.Valid)

include hs

/-- A request that is allowed is answered, by an edge of the function asked for. -/
theorem ask_spec {r : Request} (hr : r.edges ⊆ s.held) (ho : r.ordered s.diagram = true) :
    ∃ x, s.step? (.ask r) = some ⟨x.2, x.1 :: s.held⟩ ∧
      s.diagram.Yields (fun a => r.meaning s.diagram.eval a) x := by
  obtain ⟨x, hx, hy⟩ := r.answer?_yields hs.sound (fun e he => hs.has e (hr he)) ho
  exact ⟨x, by rw [step?, if_pos ⟨hr, ho⟩, hx]; rfl, hy⟩

/-- What one step can do. -/
theorem step?_cases {c : Command} (h : s.step? c = some s') :
    (∃ r x, c = .ask r ∧ s' = ⟨x.2, x.1 :: s.held⟩ ∧
      s.diagram.Yields (fun a => r.meaning s.diagram.eval a) x) ∨
      (∃ roots, c = .collect roots ∧ roots ⊆ s.held ∧
        s' = ⟨(s.diagram.collect roots).2, .one :: .zero :: (s.diagram.collect roots).1⟩) := by
  cases c with
  | ask r =>
    by_cases hr : r.edges ⊆ s.held ∧ r.ordered s.diagram = true
    · obtain ⟨x, hx, hy⟩ := ask_spec hs hr.1 hr.2
      exact .inl ⟨r, x, rfl, Option.some.inj (h.symm.trans hx), hy⟩
    · rw [step?, if_neg hr] at h
      cases h
  | collect roots =>
    by_cases hr : roots ⊆ s.held
    · rw [step?, if_pos hr] at h
      exact .inr ⟨roots, rfl, hr, (Option.some.inj h).symm⟩
    · rw [step?, if_neg hr] at h
      cases h

theorem step?_valid {c : Command} (h : s.step? c = some s') : s'.Valid := by
  rcases step?_cases hs h with ⟨r, x, -, rfl, hy⟩ | ⟨roots, -, hr, rfl⟩
  · refine ⟨hy.sound, fun e he => ?_⟩
    rcases List.mem_cons.mp he with rfl | he
    · exact hy.has
    · exact hy.grows.has (hs.has e he)
  · exact collect_valid hs.sound.toReduced fun e he => hs.has e (hr he)

theorem run?_valid {cs : List Command} (h : s.run? cs = some s') : s'.Valid := by
  induction cs generalizing s with
  | nil => exact Option.some.inj h ▸ hs
  | cons c cs ih =>
    obtain ⟨t, ht, hrest⟩ := Option.bind_eq_some_iff.mp (s.run?_cons c cs ▸ h)
    exact ih (step?_valid hs ht) hrest

/-- Until the next collection every edge at hand stays there, with the values that it has. -/
theorem run?_asks {rs : List Request} (h : s.run? (rs.map .ask) = some s') {e : Edge}
    (he : e ∈ s.held) :
    e ∈ s'.held ∧ ∀ a, s'.diagram.eval a e = s.diagram.eval a e := by
  induction rs generalizing s with
  | nil => exact Option.some.inj h ▸ ⟨he, fun _ => rfl⟩
  | cons r rs ih =>
    obtain ⟨t, ht, hrest⟩ := Option.bind_eq_some_iff.mp (s.run?_cons (.ask r) (rs.map .ask) ▸ h)
    rcases step?_cases hs ht with ⟨_, x, -, rfl, hy⟩ | ⟨_, hc, -⟩
    · obtain ⟨hmem, heval⟩ := ih (step?_valid hs ht) hrest (List.mem_cons_of_mem _ he)
      exact ⟨hmem, fun a => (heval a).trans (hy.grows.eval_eq (hs.has e he) hs.sound.toReduced a)⟩
    · cases hc

end Step

/-- The edges of the session represent their functions canonically, and go on to do so. -/
structure Canonical (s : Session) : Prop where
  /-- Every node tests an earlier variable than its edges, which go to older nodes and differ; the
  high one is not negated. -/
  proper : ∀ i, 1 < i → i ≤ s.diagram.nodeCount → s.diagram.Proper i (s.diagram.node i)
  distinct : ∀ i j, 1 ≤ i → i ≤ s.diagram.nodeCount → 1 ≤ j → j ≤ s.diagram.nodeCount →
    s.diagram.node i = s.diagram.node j → i = j
  stored : ∀ e ∈ s.held, s.diagram.Has e
  eq_iff : ∀ e f, s.diagram.Has e → s.diagram.Has f →
    (e = f ↔ ∀ a, s.diagram.eval a e = s.diagram.eval a f)
  zero_iff : ∀ e, s.diagram.Has e → (e = .zero ↔ ¬∃ a, s.diagram.eval a e = true)
  /-- A request for edges at hand is answered. -/
  answered : ∀ r : Request, r.edges ⊆ s.held → r.ordered s.diagram = true → ∃ e d,
    s.step? (.ask r) = some ⟨d, e :: s.held⟩ ∧ ∀ a, d.eval a e = r.meaning s.diagram.eval a
  /-- Requests do not change what an edge at hand stands for. -/
  kept : ∀ (rs : List Request) (s' : Session), s.run? (rs.map .ask) = some s' →
    ∀ e ∈ s.held, e ∈ s'.held ∧ ∀ a, s'.diagram.eval a e = s.diagram.eval a e
  /-- A collection gives its roots new names for the same functions. -/
  renamed : ∀ roots ⊆ s.held, ∃ d roots', s.step? (.collect roots) =
    some ⟨d, .one :: .zero :: roots'⟩ ∧
    List.Forall₂ (fun e e' => ∀ a, d.eval a e' = s.diagram.eval a e) roots roots'

/-- A sound diagram with its edges at hand is canonical. -/
theorem Valid.canonical (hs : s.Valid) : s.Canonical where
  proper := hs.sound.proper
  distinct i j hi hic hj hjc h := hs.sound.node_inj hi hic hj hjc h
  stored := hs.has
  eq_iff e f he hf := ⟨fun h a => by rw [h], hs.sound.eq_of_eval_eq he hf⟩
  zero_iff e he := by
    rw [hs.sound.eq_zero_iff he]
    simp
  answered r hr ho := by
    obtain ⟨x, hx, hy⟩ := ask_spec hs hr ho
    exact ⟨x.1, x.2, hx, hy.eval⟩
  kept rs s' h e he := run?_asks hs h he
  renamed roots hr := by
    have hroots := (collect_spec hs.sound.toReduced fun e he => hs.has e (hr he)).2
    refine ⟨_, _, by rw [step?, if_pos hr], hroots.imp fun e e' h => h.2⟩

/-- Every run of requests and collections, from a new diagram of any size, ends in a canonical
state. -/
theorem run_canonical (sizing : Sizing) (cs : List Command) (s : Session)
    (h : (start sizing).run? cs = some s) :
    s.Canonical :=
  (run?_valid (start_valid sizing) h).canonical

/-- Two terms over two variables are built, one is kept, and the run goes on with its new name. -/
theorem run_canonical_renamed :
    ∃ s, (start ⟨0, 0⟩).run? [.ask (.lit ⟨1, by decide⟩), .ask (.lit ⟨-2, by decide⟩),
        .ask (.ite ⟨2, false⟩ .one ⟨3, true⟩), .ask (.negate ⟨3, true⟩),
          .ask (.and ⟨4, false⟩ ⟨3, false⟩),
        .collect [⟨5, false⟩], .ask (.restrict (valuesOf [⟨2, by decide⟩]) ⟨3, false⟩)] = some s ∧
          s.Canonical := by
  refine (Option.isSome_iff_exists.mp ?_).imp fun s hs => ⟨hs, run_canonical _ _ s hs⟩
  cbv

end Session

end Qualify.Diagram
