import Qualify.Proofs.Diagram.Alike
import Qualify.Proofs.Solver.Correct

namespace Qualify.DiagramSolver

open Diagram (valuesOf overlay Alike)

theorem Denotes.alike {d d' : Diagram} {f : (Nat → Bool) → Bool} {e e' : Edge} (h : Denotes d f e)
    (h' : Denotes d' f e') : Alike d d' e e' :=
  ⟨h.sound.toReduced, h'.sound.toReduced, h.has, h'.has, fun a => (h.eval a).trans (h'.eval a).symm⟩

/-- What is read off an edge alike in all diagrams is a property of its values. -/
theorem Denotes.determined {α : Type} [Nonempty α] (read : Diagram → Edge → α)
    (hread : ∀ {d d' : Diagram} {e e' : Edge}, Alike d d' e e' → read d e = read d' e')
    (f : (Nat → Bool) → Bool) :
    ∃ r, ∀ {d : Diagram} {e : Edge}, Denotes d f e → read d e = r := by
  by_cases hex : ∃ d e, Denotes d f e
  · obtain ⟨d₀, e₀, h₀⟩ := hex
    exact ⟨read d₀ e₀, fun h => hread (h.alike h₀)⟩
  · exact ⟨Classical.arbitrary α, fun h => absurd ⟨_, _, h⟩ hex⟩

section Core

/-- Whatever the diagram, a computation on the edges of the clauses `cs` can have one result
only. -/
def Determined {α : Type} (cs : List Clause) (x : Config → Array Edge → Work α) : Prop :=
  ∃ r, ∀ {c : Config} {clauses : Array Edge} {d : Diagram}, Represents d clauses.toList cs →
    Keeps c (x c clauses) d (· = r)

variable {cs : List Clause}

theorem Determined.pure {α : Type} (a : α) : Determined cs fun _ _ => Pure.pure a :=
  ⟨a, fun hd => .pure hd.sound rfl⟩

/-- A test of consistency goes the same way in every diagram. -/
theorem Determined.test {α : Type} {cs' : List Clause} {es : Array Edge → List Edge}
    (hes : ∀ {clauses d}, Represents d clauses.toList cs → (∀ e ∈ es clauses, d.Has e) ∧
      ∀ a, (es clauses).all (d.eval a) = cs'.all (Clause.eval a))
    {x y : Config → Array Edge → Work α} (hx : Determined cs x) (hy : Determined cs y) :
    Determined cs fun c clauses =>
      (do if ← isUnsat c (es clauses) then x c clauses else y c clauses) := by
  by_cases hcs : Clause.Consistent cs'
  · obtain ⟨r, hr⟩ := hy
    refine ⟨r, fun hd => (isUnsat_keeps hd.sound (hes hd).1 (hes hd).2).bind fun b d₁ hg hb => ?_⟩
    rw [if_neg fun h => hb.mp h hcs]
    exact hr (hd.grow hg)
  · obtain ⟨r, hr⟩ := hx
    refine ⟨r, fun hd => (isUnsat_keeps hd.sound (hes hd).1 (hes hd).2).bind fun b d₁ hg hb => ?_⟩
    rw [if_pos (hb.mpr hcs)]
    exact hr (hd.grow hg)

theorem coreEnd_determined (fuel lo hi : Nat) :
    Determined cs fun c clauses => coreEnd c clauses fuel lo hi := by
  induction fuel generalizing lo hi with
  | zero => exact .pure hi
  | succ fuel ih =>
    simp only [coreEnd]
    split_ifs
    · exact .test (fun hd => forall₂_all_eval (hd.take _).edges) (ih _ _) (ih _ _)
    · exact .pure hi

theorem coreStart_determined (stop fuel lo hi : Nat) :
    Determined cs fun c clauses => coreStart c clauses stop fuel lo hi := by
  induction fuel generalizing lo hi with
  | zero => exact .pure lo
  | succ fuel ih =>
    simp only [coreStart]
    split_ifs
    · exact .test (fun hd => forall₂_all_eval ((hd.take stop).drop _).edges) (ih _ _) (ih _ _)
    · exact .pure lo

theorem shrinkCore_determined (kept rest : List Nat) :
    Determined cs fun c clauses => shrinkCore c clauses kept rest := by
  induction rest generalizing kept with
  | nil => exact .pure kept
  | cons k rest ih => exact .test (fun hd => hd.pick (kept ++ rest)) (ih _) (ih _)

theorem core_determined (cnf : Cnf) :
    ∃ ks, ∀ {c : Config} {d : Diagram}, d.Sound → Keeps c (core c cnf) d (· = ks) := by
  obtain ⟨stop, hstop⟩ := @coreEnd_determined cnf.hard.toList cnf.hard.size 0 cnf.hard.size
  obtain ⟨start, hstart⟩ := @coreStart_determined cnf.hard.toList stop cnf.hard.size 0 (stop - 1)
  obtain ⟨ks, hks⟩ := @shrinkCore_determined cnf.hard.toList [] (List.range' start (stop - start))
  refine ⟨ks, fun {c d} hd => ?_⟩
  obtain ⟨hs, hx, hclauses⟩ := Diagram.mkClauses_spec hd cnf.hard.toList
  have hrep : Represents (d.mkClauses cnf.hard.toList).2
      (d.mkClauses cnf.hard.toList).1.toArray.toList cnf.hard.toList := ⟨hs, hclauses⟩
  have hsize : (d.mkClauses cnf.hard.toList).1.toArray.size = cnf.hard.size := by
    simpa using hclauses.length_eq
  refine Keeps.updateDiagram ⟨hs, hx⟩ ?_
  dsimp only
  rw [hsize]
  refine (hstop hrep).bind fun _ d₁ h₁ hr => ?_
  subst hr
  refine (hstart (hrep.grow h₁)).bind fun _ d₂ h₂ hr => ?_
  subst hr
  exact hks ((hrep.grow h₁).grow h₂)

end Core

section Query

def reading (weighted : Bool) (cnf : Cnf) (gains : Array Gain) (assumed : List Lit) (d : Diagram)
    (f : Edge) :
    Outcome :=
  if f = .zero then .unsat none
  else
    let found := if weighted then (d.bestModel? f gains).map (·.1)
      else some (imposed ((d.oneModel? f).getD []) (Array.replicate cnf.numVars false))
    match found with
    | none => .unsat none
    | some assignment =>
      let assignment := imposed assumed (assignment.take cnf.numVars)
      .sat ⟨assignment, if weighted then cnf.softCost assignment else 0⟩

theorem modelOf_keeps {c : Config} {k : Compiled} {assumed : List Lit} {d : Diagram} (hd : d.Sound)
    (f : Edge) :
    Keeps c (modelOf c k assumed f) d (· = reading c.weighted k.cnf k.gains assumed d f) := by
  unfold modelOf reading
  by_cases hf : f = .zero
  · rw [if_pos hf, if_pos hf]
    exact .pure hd rfl
  · rw [if_neg hf, if_neg hf]
    refine Keeps.updateDiagram ⟨hd, .refl d⟩ ?_
    dsimp only
    generalize (if c.weighted then (d.bestModel? f k.gains).map (·.1) else _) = found
    cases found <;> exact .pure hd rfl

/-- Gains are not looked at if nothing is weighted. -/
theorem reading_gains {weighted : Bool} {cnf : Cnf} {gains gains' : Array Gain} {assumed : List Lit}
    {d : Diagram} {e : Edge} (h : weighted = true → gains = gains') :
    reading weighted cnf gains assumed d e = reading weighted cnf gains' assumed d e := by
  cases weighted with
  | true => rw [h rfl]
  | false => rfl

theorem reading_eq {weighted : Bool} {cnf : Cnf} {gains : Array Gain} {assumed : List Lit}
    {d d' : Diagram} {e e' : Edge} (h : Alike d d' e e') :
    reading weighted cnf gains assumed d e = reading weighted cnf gains assumed d' e' := by
  unfold reading
  by_cases hz : e = .zero
  · rw [if_pos hz, if_pos (h.eq_zero_iff.mp hz)]
  · rw [if_neg hz, if_neg (mt h.eq_zero_iff.mpr hz), h.bestModel?_eq hz, h.oneModel?_eq]

/-- The edge from which a query reads its outcome has the values of the problem under the assumed
literals. -/
theorem query_reads {c : Config} {k : Compiled} {d : Diagram} (hk : k.Exact c.weighted d)
    (hz : k.hard ≠ .zero) {assumed : List Lit} (ho : opposed assumed = false) :
    ∃ d₁ e, Denotes d₁ (fun a => rootOf c.weighted k.cnf (overlay (valuesOf assumed) a)) e ∧
      Keeps c (query c k assumed) d (· = reading c.weighted k.cnf k.gains assumed d₁ e) := by
  rw [query_eq hz ho]
  split_ifs with hempty
  · refine ⟨d, k.root, ⟨hk.root.sound, hk.root.has, fun a => ?_⟩,
      modelOf_keeps hk.root.sound k.root⟩
    rw [List.isEmpty_iff.mp hempty, hk.root.eval a]
    rfl
  · have hy := Diagram.restrict_yields hk.root.sound (valuesOf assumed) hk.root.has
    refine ⟨_, _, ⟨hy.sound, hy.has, fun a => ?_⟩,
      Keeps.updateDiagram ⟨hy.sound, hy.grows⟩ (modelOf_keeps hy.sound _)⟩
    rw [hy.eval a, hk.root.eval]

theorem query_determined (weighted : Bool) (cnf : Cnf) (assumed : List Lit) :
    ∃ o, ∀ {c : Config} {k : Compiled} {d : Diagram}, c.weighted = weighted → k.cnf = cnf →
      k.Exact c.weighted d →
      Keeps c (query c k assumed) d (· = o) := by
  by_cases hz : ∀ a, cnf.eval a = false
  · obtain ⟨ks, hks⟩ := core_determined cnf
    refine ⟨if assumed.isEmpty then .unsat (some ks) else .unsat none, ?_⟩
    rintro c k d rfl rfl hk
    simp only [query, if_pos (hk.hard.eq_zero_iff.mpr hz)]
    split_ifs
    · refine (hks hk.hard.sound).bind fun _ d₁ hg h => ?_
      subst h
      exact .pure hg.1 rfl
    · exact .pure hk.hard.sound rfl
  · cases ho : opposed assumed with
    | true =>
      refine ⟨.unsat none, ?_⟩
      rintro c k d rfl rfl hk
      simp only [query, if_neg (mt hk.hard.eq_zero_iff.mp hz), ho, if_true]
      exact .pure hk.hard.sound rfl
    | false =>
      have : Nonempty Outcome := ⟨.unsat none⟩
      obtain ⟨o, hreading⟩ := Denotes.determined (reading weighted cnf (scoringOf cnf).2 assumed)
        reading_eq fun a => rootOf weighted cnf (overlay (valuesOf assumed) a)
      refine ⟨o, ?_⟩
      rintro c k d rfl rfl hk
      have hhard := mt hk.hard.eq_zero_iff.mp hz
      obtain ⟨d₁, e, he, hkeeps⟩ := query_reads hk hhard ho
      rw [← hreading he]
      rwa [reading_gains fun hw => hk.gains hw hhard] at hkeeps

end Query

section History

/-- What can happen to a solver. Between two calls the clock may be set, so that the time goes by in
each call as it likes. -/
inductive Event where
  | solve (cnf : Cnf) (assumed : List Lit)
  | countModels (cnf : Cnf)
  | setTimeBudget (budget : Option Nat)
  | setClock (clock : Nat → Nat)

def Event.apply (s : DiagramSolver) : Event → DiagramSolver
  | .solve cnf assumed => (DiagramSolver.solve cnf assumed s).2
  | .countModels cnf => (DiagramSolver.countModels cnf s).2
  | .setTimeBudget budget => DiagramSolver.setTimeBudget budget s
  | .setClock clock => { s with config := { s.config with clock } }

/-- Every event leaves what is kept exact, and the solver weighted or not as it was. -/
theorem Event.apply_kept {s : DiagramSolver} (hs : s.Kept) (event : Event) :
    (event.apply s).Kept ∧ (event.apply s).config.weighted = s.config.weighted := by
  cases event with
  | solve cnf assumed =>
    obtain ⟨o, ho⟩ := query_determined s.config.weighted cnf assumed
    have h := solve_meets hs cnf assumed fun k d hk hexact => ho rfl hk hexact
    unfold Solving.Meets at h
    rw [Event.apply]
    rcases hsolve : DiagramSolver.solve cnf assumed s with ⟨e | o, s'⟩ <;> rw [hsolve] at h <;>
      exact ⟨h.2.kept, congrArg Config.weighted h.2.config⟩
  | countModels cnf =>
    have h := countModels_meets hs cnf (Q := fun _ => True) fun _ _ _ _ => trivial
    unfold Solving.Meets at h
    rw [Event.apply]
    rcases hcount : DiagramSolver.countModels cnf s with ⟨e | n, s'⟩ <;> rw [hcount] at h <;>
      exact ⟨h.2.kept, congrArg Config.weighted h.2.config⟩
  | setTimeBudget budget => exact ⟨hs, rfl⟩
  | setClock clock => exact ⟨hs, rfl⟩

theorem foldl_apply_kept (events : List Event) {s : DiagramSolver} (hs : s.Kept) :
    (events.foldl Event.apply s).Kept ∧ (events.foldl Event.apply s).config.weighted =
      s.config.weighted := by
  induction events generalizing s with
  | nil => exact ⟨hs, rfl⟩
  | cons event events ih =>
    obtain ⟨hkept, hweighted⟩ := event.apply_kept hs
    obtain ⟨hkept', hweighted'⟩ := ih hkept
    exact ⟨hkept', hweighted'.trans hweighted⟩

/-- The one result that a solver can have, whatever came before, and which it has if nothing limits
it. -/
def Settles {α : Type} (weighted : Bool) (x : Solving DiagramSolver α) (a : α) : Prop :=
  ∀ s : DiagramSolver, s.Kept → s.config.weighted = weighted →
    (∀ b, (x s).1 = .ok b → b = a) ∧ (¬s.config.Limited → (x s).1 = .ok a)

theorem settles_of_meets {α : Type} {weighted : Bool} {cnf : Cnf}
    {x : Solving DiagramSolver α} {a : α}
    (h : ∀ s : DiagramSolver, s.Kept → s.config.weighted = weighted →
      Solving.Meets x s (fun b s' => b = a ∧ After s.config cnf s')
        fun s' => s.config.Limited ∧ After s.config cnf s') :
    Settles weighted x a := by
  intro s hs hw
  have hx := h s hs hw
  unfold Solving.Meets at hx
  rcases hrun : x s with ⟨e | b, s'⟩ <;> rw [hrun] at hx
  · exact ⟨by rintro _ ⟨⟩, fun hl => absurd hx.1 hl⟩
  · refine ⟨?_, fun _ => congrArg Except.ok hx.1⟩
    rintro _ ⟨⟩
    exact hx.1

theorem exists_settles_solve (weighted : Bool) (cnf : Cnf) (assumed : List Lit) :
    ∃ o, Settles weighted (solve cnf assumed) o := by
  obtain ⟨o, ho⟩ := query_determined weighted cnf assumed
  exact ⟨o, settles_of_meets fun s hs hw => solve_meets hs cnf assumed fun k d hk hexact =>
    ho hw hk hexact⟩

theorem exists_settles_countModels (weighted : Bool) (cnf : Cnf) :
    ∃ n, Settles weighted (countModels cnf) n := by
  obtain ⟨n, hn⟩ := Denotes.determined (fun d e => d.countModels cnf.numVars e) (·.countModels_eq _)
    fun a => cnf.eval a
  refine ⟨n, settles_of_meets fun s hs hw => countModels_meets hs cnf fun k d hk hexact => ?_⟩
  subst hk
  exact hn hexact.hard

/-- After any events, a result is the one of a new solver with the default sizes and without
limits. -/
theorem Settles.eq_fresh {α : Type} {config : Config} {x : Solving DiagramSolver α} {a : α}
    (h : Settles config.weighted x a) (events : List Event) {b : α}
    (hx : (x (events.foldl Event.apply (new config))).1 = .ok b) :
    (x (new { nodeLimit := none, weighted := config.weighted })).1 = .ok b := by
  obtain ⟨hkept, hweighted⟩ := foldl_apply_kept events (s := new config) nofun
  obtain rfl := (h _ hkept hweighted).1 b hx
  exact (h (new { nodeLimit := none, weighted := config.weighted }) nofun rfl).2
    (by simp [Config.Limited, new])

/-- What a solver answers depends neither on its history nor on its sizes and limits. -/
theorem answers_eq_fresh (config : Config) (events : List Event) (cnf : Cnf) :
    (∀ assumed o, (solve cnf assumed (events.foldl Event.apply (new config))).1 = .ok o →
      (solve cnf assumed (new { nodeLimit := none, weighted := config.weighted })).1 = .ok o) ∧
    ∀ n, (countModels cnf (events.foldl Event.apply (new config))).1 = .ok n →
      (countModels cnf (new { nodeLimit := none, weighted := config.weighted })).1 = .ok n := by
  constructor
  · intro assumed o h
    obtain ⟨_, hsettles⟩ := exists_settles_solve config.weighted cnf assumed
    exact hsettles.eq_fresh events h
  · intro n h
    obtain ⟨_, hsettles⟩ := exists_settles_countModels config.weighted cnf
    exact hsettles.eq_fresh events h

def onePair : Cnf :=
  let x : Var := ⟨1, Nat.one_pos⟩
  let y : Var := ⟨2, Nat.two_pos⟩
  (Cnf.addHard {} [x.pos, y.pos]).addSoft [x.neg, y.neg] 5

/-- A call that needs too many nodes, and one that runs out of time. -/
def troubles : List Event :=
  [.solve mixedSofts [], .setTimeBudget (some 5), .setClock (· + 5), .solve onePair [],
    .setTimeBudget none]

theorem answers_eq_fresh_troubles :
    let cramped : Config := { sizing := ⟨1, 1⟩, nodeLimit := some 7, collectAbove := 1 }
    (solve mixedSofts [] (new cramped)).1 = .error (.nodeLimit 7) ∧
      (solve onePair [] ((troubles.take 3).foldl Event.apply (new cramped))).1 =
        .error (.timeout 5) ∧
      (solve onePair [] (new { nodeLimit := none })).1 = .ok (.sat ⟨#[false, true], 0⟩) ∧
      (countModels onePair (new { nodeLimit := none })).1 = .ok 3 := by
  intro cramped
  have hsolve : (solve onePair [] (troubles.foldl Event.apply (new cramped))).1 =
      .ok (.sat ⟨#[false, true], 0⟩) := by
    cbv
  have hcount : (countModels onePair (troubles.foldl Event.apply (new cramped))).1 = .ok 3 := by
    cbv
  exact ⟨by cbv, by cbv, (answers_eq_fresh cramped troubles onePair).1 [] _ hsolve,
    (answers_eq_fresh cramped troubles onePair).2 3 hcount⟩

end History

end Qualify.DiagramSolver
