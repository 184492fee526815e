import Qualify.Proofs.Solver.Work
import Qualify.Proofs.Solver.Selectors
import Qualify.Proofs.Diagram.Literals

namespace Qualify.DiagramSolver

open Diagram (Halves)

variable {c : Config}

section Conjoin

theorem conjoinPairs_gives (fs : List Edge) {d : Diagram} (hd : d.Sound) (hfs : ∀ f ∈ fs, d.Has f) :
    Gives c (conjoinPairs c fs) d (fun r d' => d.Halves fs r d') (Grown d) := by
  induction fs using List.twoStepInduction generalizing d with
  | nil => exact .pure (.nil hd)
  | singleton f =>
    refine Gives.checkLimits ⟨hd, .refl d⟩ ?_
    exact .pure (.singleton hd (hfs f (List.mem_singleton_self f)))
  | cons_cons f g rest ih _ =>
    have hrest : ∀ e ∈ rest, d.Has e := fun e he => hfs e (by simp [he])
    obtain ⟨⟨e, d₁⟩, he, hy⟩ := Diagram.and?_yields hd (hfs f (by simp)) (hfs g (by simp))
    rw [conjoinPairs]
    refine Gives.withDiagram he (Gives.checkLimits ⟨hy.sound, hy.grows⟩ ?_)
    split_ifs with hz
    · subst hz
      exact .pure (.stop hy)
    · have hih := ih hy.sound fun e he => hy.grows.has (hrest e he)
      refine (hih.mono (fun _ _ h => h) fun d' h => ⟨h.1, hy.grows.trans h.2⟩).bind fun r d' h => ?_
      exact .pure (.cons hd hy hrest h)

/-- In the sound diagram `d` the edge has the values `f`. -/
structure Denotes (d : Diagram) (f : (Nat → Bool) → Bool) (e : Edge) : Prop where
  sound : d.Sound
  has : d.Has e
  eval : ∀ a, d.eval a e = f a

theorem forall₂_all_eval {α : Type} {d : Diagram} {value : (Nat → Bool) → α → Bool} {es : List Edge}
    {xs : List α} (h : List.Forall₂ (fun e x => d.Has e ∧ ∀ a, d.eval a e = value a x) es xs) :
    (∀ e ∈ es, d.Has e) ∧ ∀ a, es.all (d.eval a) = xs.all (value a) := by
  induction h with
  | nil => simp
  | cons h _ ih =>
    refine ⟨List.forall_mem_cons.mpr ⟨h.1, ih.1⟩, fun a => ?_⟩
    rw [List.all_cons, List.all_cons, h.2 a, ih.2 a]

theorem conjoinRounds_gives (rounds : Nat) :
    ∀ (live : Nat) (fs : List Edge) {d : Diagram}, d.Sound →
    (∀ f ∈ fs, d.Has f) → fs.length ≤ rounds + 1 →
    Gives c (conjoinRounds c rounds live fs) d
      (fun e d' => Denotes d' (fun a => fs.all (d.eval a)) e)
      (fun _ => True) := by
  induction rounds with
  | zero =>
    intro live fs d hd hfs hlen
    match fs, hlen with
    | [], _ => exact .pure ⟨hd, hd.has_one, fun a => by simp⟩
    | [f], _ => exact .pure ⟨hd, hfs f (by simp), fun a => by simp⟩
  | succ rounds ih =>
    intro live fs d hd hfs hlen
    match fs with
    | [] => exact .pure ⟨hd, hd.has_one, fun a => by simp⟩
    | [f] => exact .pure ⟨hd, hfs f (by simp), fun a => by simp⟩
    | f :: g :: rest =>
      simp only [conjoinRounds]
      have hpairs := (conjoinPairs_gives (c := c) (f :: g :: rest) hd hfs).mono (fun _ _ h => h)
        fun _ _ => trivial
      refine hpairs.bind fun r d₁ h => ?_
      rcases r with _ | es
      · exact .pure ⟨h.sound, h.sound.has_zero,
          fun a => by rw [Diagram.eval_zero, h.eval_none rfl a]⟩
      · have hes : es.length ≤ rounds + 1 := by
          have := h.length es rfl
          simp only [List.length_cons] at *
          omega
        have hall := h.eval_some es rfl
        refine Gives.needsCollection fun collect => ?_
        cases collect with
        | false =>
          refine (ih live es h.sound (h.has es rfl) hes).mono (fun e d' hden => ?_) fun _ h => h
          exact ⟨hden.sound, hden.has, fun a => (hden.eval a).trans (hall a)⟩
        | true =>
          -- the edges go on under their new names
          obtain ⟨hsound, hroots⟩ := Diagram.collect_spec h.sound.toReduced (h.has es rfl)
          obtain ⟨hhas, heval⟩ := forall₂_all_eval hroots.flip
          refine Gives.updateDiagram (Gives.nodeCount fun live' => ?_)
          refine (ih live' _ hsound hhas (hroots.length_eq ▸ hes)).mono (fun e d' hden => ?_)
            fun _ h => h
          exact ⟨hden.sound, hden.has, fun a => (hden.eval a).trans ((heval a).trans (hall a))⟩

theorem conjoin_gives (fs : List Edge) {d : Diagram} (hd : d.Sound) (hfs : ∀ f ∈ fs, d.Has f) :
    Gives c (conjoin c fs) d (fun e d' => Denotes d' (fun a => fs.all (d.eval a)) e)
      (fun _ => True) := by
  refine Gives.nodeCount fun live => ?_
  exact conjoinRounds_gives _ live fs hd hfs (Nat.le_succ _)

end Conjoin

section SoftClauses

theorem addSoftClauses_select {lits : Clause} (hlits : ∀ l, lits ≠ [l]) (w : Weight)
    (rest : List SoftClause) (root : Edge) (gains : Array Gain) (selector : Var)
    (hs : selector.number = gains.size + 1) :
    addSoftClauses c (⟨lits, w⟩ :: rest) root gains = (do
      let guard ← updateDiagram (·.mkClause (selector.neg :: lits))
      let root ← withDiagram (·.and? root guard)
      checkLimits c
      addSoftClauses c rest root (gains.push ⟨0, w⟩)) := by
  obtain ⟨number, hpos⟩ := selector
  obtain rfl : number = gains.size + 1 := hs
  rw [addSoftClauses]
  · simp only [Array.size_push]
  · exact hlits

theorem addSoftClauses_gives (softs : List SoftClause) :
    ∀ {d : Diagram} {f : (Nat → Bool) → Bool} {root : Edge} {gains : Array Gain},
    Denotes d f root →
    Gives c (addSoftClauses c softs root gains) d
      (fun r d' => Grown d d' ∧ Denotes d' (scoring softs f gains).1 r.1 ∧
        r.2 = (scoring softs f gains).2)
      (fun _ => True) := by
  induction softs with
  | nil =>
    intro d f root gains hroot
    exact .pure ⟨⟨hroot.sound, .refl d⟩, hroot, rfl⟩
  | cons s softs ih =>
    intro d f root gains hroot
    obtain ⟨lits, w⟩ := s
    by_cases hunit : ∃ l, lits = [l]
    · obtain ⟨l, rfl⟩ := hunit
      exact ih hroot
    · rw [addSoftClauses_select (fun l hl => hunit ⟨l, hl⟩) w softs root gains
        ⟨gains.size + 1, Nat.succ_pos _⟩ rfl, scoring_select softs fun l hl => hunit ⟨l, hl⟩]
      have hguard := Diagram.mkClause_yields hroot.sound
        (Var.neg ⟨gains.size + 1, Nat.succ_pos _⟩ :: lits)
      obtain ⟨r, hr, hy⟩ := Diagram.and?_yields hguard.sound (hguard.grows.has hroot.has) hguard.has
      have hroot' : Denotes r.2
          (fun a => f a && Clause.eval a (Var.neg ⟨gains.size + 1, Nat.succ_pos _⟩ :: lits))
          r.1 := by
        refine ⟨hy.sound, hy.has, fun a => ?_⟩
        rw [hy.eval a, hguard.eval a, hguard.grows.eval_eq hroot.has hroot.sound.toReduced,
          hroot.eval a]
      refine Gives.updateDiagram (Gives.withDiagram hr (Gives.checkLimits trivial ?_))
      refine (ih hroot').mono (fun _ _ h => ?_) fun _ h => h
      exact ⟨⟨h.1.1, (hguard.grows.trans hy.grows).trans h.1.2⟩, h.2⟩

end SoftClauses

/-- Other edges for the same function do as well. -/
theorem Denotes.transport {d d' : Diagram} {f : (Nat → Bool) → Bool} {e e' : Edge}
    (h : Denotes d f e) (hs : d'.Sound) (he : d'.Has e' ∧ ∀ a, d'.eval a e' = d.eval a e) :
    Denotes d' f e' :=
  ⟨hs, he.1, fun a => (he.2 a).trans (h.eval a)⟩

theorem Denotes.grow {d d' : Diagram} {f : (Nat → Bool) → Bool} {e : Edge} (h : Denotes d f e)
    (hg : Grown d d') :
    Denotes d' f e :=
  h.transport hg.1 ⟨hg.2.has h.has, hg.2.eval_eq h.has h.sound.toReduced⟩

theorem Denotes.eq_zero_iff {d : Diagram} {f : (Nat → Bool) → Bool} {e : Edge} (h : Denotes d f e) :
    e = .zero ↔ ∀ a, f a = false := by
  rw [h.sound.eq_zero_iff h.has]
  exact forall_congr' fun a => by rw [h.eval a]

def scoringOf (f : Cnf) : ((Nat → Bool) → Bool) × Array Gain :=
  scoring f.soft.toList (fun a => f.eval a) (Array.replicate f.numVars ⟨0, 0⟩)

def rootOf (weighted : Bool) (f : Cnf) : (Nat → Bool) → Bool :=
  if weighted then (scoringOf f).1 else fun a => f.eval a

/-- The edges of the compiled problem have the values of its clauses, in the diagram `d`. -/
structure Compiled.Exact (weighted : Bool) (k : Compiled) (d : Diagram) : Prop where
  hard : Denotes d (fun a => k.cnf.eval a) k.hard
  root : Denotes d (rootOf weighted k.cnf) k.root
  gains : weighted = true → k.hard ≠ .zero → k.gains = (scoringOf k.cnf).2

namespace Compiled.Exact

variable {weighted : Bool} {k : Compiled} {d d' : Diagram}

theorem transport (h : k.Exact weighted d) (hs : d'.Sound) {hard root : Edge}
    (hh : d'.Has hard ∧ ∀ a, d'.eval a hard = d.eval a k.hard)
    (hr : d'.Has root ∧ ∀ a, d'.eval a root = d.eval a k.root) (live : Nat) :
    Exact weighted { k with hard, root, live } d' where
  hard := h.hard.transport hs hh
  root := h.root.transport hs hr
  gains hw hz := by
    -- the new edge is zero exactly if the old one is, as both diagrams are canonical
    refine h.gains hw fun hzero => hz ?_
    exact (h.hard.transport hs hh).eq_zero_iff.mpr (h.hard.eq_zero_iff.mp hzero)

theorem grow (h : k.Exact weighted d) (hg : Grown d d') : k.Exact weighted d' :=
  ⟨h.hard.grow hg, h.root.grow hg, h.gains⟩

/-- A collection of both edges gives them new names. -/
theorem collect (h : k.Exact weighted d) :
    ∃ hard root, (d.collect [k.hard, k.root]).1 = [hard, root] ∧
    ∀ live, Exact weighted { k with hard, root, live } (d.collect [k.hard, k.root]).2 := by
  have hkept : ∀ e ∈ [k.hard, k.root], d.Has e := by simp [h.hard.has, h.root.has]
  obtain ⟨hs, hroots⟩ := Diagram.collect_spec h.hard.sound.toReduced hkept
  obtain ⟨hard, rest, hh, hrest, hnames⟩ := List.forall₂_cons_left_iff.mp hroots
  obtain ⟨root, last, hr, hlast, rfl⟩ := List.forall₂_cons_left_iff.mp hrest
  obtain rfl := List.forall₂_nil_left_iff.mp hlast
  exact ⟨hard, root, hnames, h.transport hs hh hr⟩

end Compiled.Exact

/-- The compiled problem means what its clauses mean, in the diagram `d`. -/
structure Compiled.Faithful (weighted : Bool) (k : Compiled) (d : Diagram) : Prop where
  sound : d.Sound
  has_hard : d.Has k.hard
  has_root : d.Has k.root
  hard_eval : ∀ a, d.eval a k.hard = k.cnf.eval a
  scored : weighted = true → k.hard ≠ .zero →
    Scored (fun a => k.cnf.eval a) k.cnf.numVars k.cnf.soft.toList
      (fun a => d.eval a k.root) k.gains
  plain : weighted = false → k.root = k.hard

theorem scored_start {f : Cnf} (hf : f.Bounded) :
    Scored (fun a => f.eval a) f.numVars [] (fun a => f.eval a)
      (Array.replicate f.numVars ⟨0, 0⟩) :=
  Scored.start fun _ _ hab => hf.eval_congr fun v _ => hab v

/-- The gains pay for the soft clauses as long as these have no variables beyond those that are
counted. -/
theorem scored_scoringOf {f : Cnf} (hf : f.Bounded) :
    Scored (fun a => f.eval a) f.numVars f.soft.toList (scoringOf f).1 (scoringOf f).2 :=
  (scored_start hf).scoring f.soft.toList fun s hs => hf.soft s (Array.mem_toList_iff.mp hs)

theorem Compiled.Exact.faithful {weighted : Bool} {k : Compiled} {d : Diagram}
    (h : k.Exact weighted d) (hcnf : k.cnf.Bounded) : k.Faithful weighted d where
  sound := h.hard.sound
  has_hard := h.hard.has
  has_root := h.root.has
  hard_eval := h.hard.eval
  scored hw hz := by
    have hroot := h.root.eval
    rw [rootOf, if_pos hw] at hroot
    rw [h.gains hw hz, funext hroot]
    exact scored_scoringOf hcnf
  plain hw := by
    have hroot := h.root.eval
    rw [rootOf, if_neg (by simp [hw])] at hroot
    exact h.hard.sound.eq_of_eval_eq h.root.has h.hard.has fun a => by rw [hroot a, h.hard.eval a]

section Compile

def keepRoots (cnf : Cnf) (hard : Edge) (r : Edge × Array Gain) : Work Compiled := do
  match ← updateDiagram (·.collect [hard, r.1]) with
  | [hard, root] => return ⟨cnf, hard, root, r.2, ← nodeCount⟩
  | _ => throw (.failed "the roots are lost")

theorem keepRoots_gives {cnf : Cnf} {hard : Edge} {r : Edge × Array Gain} {d : Diagram}
    (hk : Compiled.Exact c.weighted ⟨cnf, hard, r.1, r.2, 0⟩ d) :
    Gives c (keepRoots cnf hard r) d (fun k d' => k.cnf = cnf ∧ k.Exact c.weighted d')
      (fun _ => True) := by
  refine Gives.updateDiagram ?_
  obtain ⟨hard', root', hnames, hk'⟩ := hk.collect
  simp only [hnames]
  exact Gives.nodeCount fun live => .pure ⟨rfl, hk' live⟩

theorem compile_gives (cnf : Cnf) {d : Diagram} (hd : d.Sound) :
    Gives c (compile c cnf) d (fun k d' => k.cnf = cnf ∧ k.Exact c.weighted d')
      (fun _ => True) := by
  obtain ⟨hs, -, hclauses⟩ := Diagram.mkClauses_spec hd (cnf.hard.toList.mergeSort byLocality)
  obtain ⟨hhas, hall⟩ := forall₂_all_eval hclauses
  rw [compile]
  refine Gives.updateDiagram ((conjoin_gives _ hs hhas).bind fun hard d₁ hhard => ?_)
  have hhard : Denotes d₁ (fun a => cnf.eval a) hard := by
    refine ⟨hhard.sound, hhard.has, fun a => ?_⟩
    rw [hhard.eval a, hall a, (List.mergeSort_perm _ _).all_eq, Cnf.eval]
  dsimp only
  split_ifs with hw
  · refine (addSoftClauses_gives cnf.soft.toList hhard).bind
      fun r d₂ h => keepRoots_gives (r := r) ?_
    obtain ⟨hg, hroot, hgains⟩ := h
    exact ⟨hhard.grow hg, by rwa [rootOf, if_pos hw.1], fun _ _ => hgains⟩
  · refine keepRoots_gives (r := (hard, _)) ⟨hhard, ?_, fun hc hz => absurd ⟨hc, hz⟩ hw⟩
    by_cases hc : c.weighted = true
    · -- nothing is true, with or without guards
      have hzero := hhard.eq_zero_iff.mp (not_not.mp fun hz => hw ⟨hc, hz⟩)
      rw [rootOf, if_pos hc]
      refine ⟨hhard.sound, hhard.has, fun a => ?_⟩
      rw [hhard.eval a, hzero a]
      exact (eq_false_of_ne_true fun h => absurd (scoring_implies _ a h) (by simp [hzero a])).symm
    · rwa [rootOf, if_neg hc]

theorem prepare_gives {last : Option Compiled} (cnf : Cnf) {d : Diagram}
    (hlast : ∀ k, last = some k → k.Exact c.weighted d) :
    Gives c (prepare c last cnf) d (fun k d' => k.cnf = cnf ∧ k.Exact c.weighted d')
      (fun _ => True) := by
  have hfresh : Gives c (prepare.fresh c cnf) d (fun k d' => k.cnf = cnf ∧ k.Exact c.weighted d')
      (fun _ => True) :=
    Gives.updateDiagram (compile_gives cnf (Diagram.sound_new c.sizing))
  rcases last with _ | k
  · exact hfresh
  · rw [prepare]
    split_ifs with hk
    · exact .pure ⟨hk, hlast k rfl⟩
    · exact hfresh

theorem tidy_gives {k : Compiled} {d : Diagram} (hk : k.Exact c.weighted d) :
    Gives c (tidy c k) d (fun k' d' => k'.cnf = k.cnf ∧ k'.Exact c.weighted d')
      (fun _ => True) := by
  rw [tidy]
  refine Gives.needsCollection fun collect => ?_
  cases collect with
  | false => exact .pure ⟨rfl, hk⟩
  | true =>
    refine Gives.updateDiagram ?_
    obtain ⟨hard', root', hnames, hk'⟩ := hk.collect
    simp only [hnames]
    exact Gives.nodeCount fun live => .pure ⟨rfl, hk' live⟩

end Compile

end Qualify.DiagramSolver
