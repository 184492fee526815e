import Qualify.Proofs.Inference.UnitOrder

namespace Qualify

inductive Progress where
  | waiting
  | reading
  | done (result : UnitResult)

def Progress.result : Progress → UnitResult
  | waiting | reading => none
  | done r => r

def Progress.left : Progress → Nat
  | waiting => 2
  | reading => 1
  | done _ => 0

/-- The units of a program, in their order, while they are read. -/
structure Pool where
  /-- A failure was noted. -/
  failed : Bool
  tasks : List (CodeUnit × Progress)

namespace Generated

variable {g g' : Generated} {unit : String}

/-- Where failures are fatal, a unit that is taken over was read. -/
theorem add_ok {r : UnitResult} (h : g.add true unit r = .ok g') :
    (∀ e, r ≠ some (.error e)) ∧ g'.skipped = g.skipped ∧ g'.diagnostics = g.diagnostics := by
  rcases r with _ | e | c
  · cases h
    exact ⟨by rintro _ ⟨⟩, rfl, rfl⟩
  · cases h
  · refine ⟨by rintro _ ⟨⟩, ?_⟩
    simp only [add, absorbed] at h
    cases habsorb : g.store.absorb c with
    | error e => simp [habsorb] at h
    | ok r =>
      simp only [habsorb, Except.ok.injEq] at h
      subst h
      exact ⟨rfl, rfl⟩

theorem add_error {r : UnitResult} {f : InferenceFailure} (h : g.add true unit r = .error f) :
    ∃ r' e, r = some r' ∧ g.absorbed unit r' = .error e ∧ f = .after g.diagnostics e := by
  cases r with
  | none => cases h
  | some r' =>
    simp only [add] at h
    split at h
    case h_1 => cases h
    case h_2 e he =>
      cases h
      exact ⟨r', e, rfl, he, rfl⟩

variable {rs : List (String × UnitResult)}

theorem addAll_ok (h : addAll true g rs = .ok g') :
    (∀ unit e, (unit, some (.error e)) ∉ rs) ∧ g'.skipped = g.skipped ∧
      g'.diagnostics = g.diagnostics := by
  induction rs generalizing g with
  | nil =>
    cases h
    exact ⟨fun _ _ => List.not_mem_nil, rfl, rfl⟩
  | cons x rs ih =>
    obtain ⟨unit, r⟩ := x
    rcases hadd : g.add true unit r with f | g₁
    · simp [addAll, hadd, bind, Except.bind] at h
    · obtain ⟨hr, hskipped, hdiagnostics⟩ := add_ok hadd
      obtain ⟨hrs, hskipped', hdiagnostics'⟩ :=
        ih (g := g₁) (by simpa [addAll, hadd, bind, Except.bind] using h)
      refine ⟨fun unit' e hmem => ?_, hskipped'.trans hskipped, hdiagnostics'.trans hdiagnostics⟩
      obtain heq | hmem := List.mem_cons.mp hmem
      · exact hr e (Prod.mk.inj heq).2.symm
      · exact hrs unit' e hmem

/-- A failure is that of the first unit that cannot be taken over. -/
theorem addAll_error {f : InferenceFailure} (h : addAll true g rs = .error f) :
    ∃ before unit r after g' e, rs = before ++ (unit, some r) :: after ∧
      addAll true g before = .ok g' ∧
      g'.absorbed unit r = .error e ∧ f = .after g.diagnostics e := by
  induction rs generalizing g with
  | nil => cases h
  | cons x rs ih =>
    obtain ⟨unit, r⟩ := x
    rcases hadd : g.add true unit r with f' | g₁
    · obtain rfl : f' = f := by simpa [addAll, hadd, bind, Except.bind] using h
      obtain ⟨r', e, rfl, habsorbed, rfl⟩ := add_error hadd
      exact ⟨[], unit, r', rs, g, e, rfl, rfl, habsorbed, rfl⟩
    · obtain ⟨before, unit', r', after, g', e, rfl, hbefore, habsorbed, rfl⟩ :=
        ih (g := g₁) (by simpa [addAll, hadd, bind, Except.bind] using h)
      refine ⟨(unit, r) :: before, unit', r', after, g', e, rfl, ?_, habsorbed,
        by rw [(add_ok hadd).2.2]⟩
      simpa [addAll, hadd, bind, Except.bind] using hbefore

end Generated

namespace Pool

variable {types : TypeSystem} {p : Program} {pool pool' : Pool}

def start (p : Program) : Pool := ⟨false, p.units.map (·, .waiting)⟩

/-- One of the units goes on. It may be left out if a failure was noted. It may also be read then,
for the note need not be seen at once. -/
inductive Step (types : TypeSystem) (p : Program) : Pool → Pool → Prop where
  | skip {before after : List (CodeUnit × Progress)} {u : CodeUnit} :
    Step types p ⟨true, before ++ (u, .waiting) :: after⟩ ⟨true, before ++ (u, .done none) :: after⟩
  | start {failed : Bool} {before after : List (CodeUnit × Progress)} {u : CodeUnit} :
    Step types p ⟨failed, before ++ (u, .waiting) :: after⟩
      ⟨failed, before ++ (u, .reading) :: after⟩
  | finish {failed : Bool} {before after : List (CodeUnit × Progress)} {u : CodeUnit} :
    Step types p ⟨failed, before ++ (u, .reading) :: after⟩
      ⟨failed || !(generate types p u).isOk,
        before ++ (u, .done (some (generate types p u))) :: after⟩

abbrev Runs (types : TypeSystem) (p : Program) : Pool → Pool → Prop :=
  Relation.ReflTransGen (Step types p)

def Finished (pool : Pool) : Prop := ∀ x ∈ pool.tasks, ∃ r, x.2 = .done r

def results (tasks : List (CodeUnit × Progress)) : List (String × UnitResult) :=
  tasks.map fun x => (x.1.name, x.2.result)

/-- The results are taken over in the order of the units, whatever the order in which they came. -/
def outcome (pool : Pool) : Except InferenceFailure Generated :=
  Generated.addAll true { units := pool.tasks.length } (results pool.tasks)

structure Sound (types : TypeSystem) (p : Program) (pool : Pool) : Prop where
  units : pool.tasks.map (·.1) = p.units
  read : ∀ u r, (u, .done (some r)) ∈ pool.tasks → r = generate types p u
  noted : pool.failed = true → ∃ u e, (u, .done (some (.error e))) ∈ pool.tasks
  skipped : ∀ u, (u, .done none) ∈ pool.tasks → pool.failed = true

theorem sound_start : Sound types p (start p) where
  units := by simp [start, Function.comp_def]
  read := by simp [start]
  noted := by simp [start]
  skipped := by simp [start]

theorem Sound.step (h : Sound types p pool) (hstep : Step types p pool pool') :
    Sound types p pool' := by
  obtain ⟨hunits, hread, hnoted, hskipped⟩ := h
  cases hstep with
  | skip =>
    refine ⟨by simpa using hunits, ?_, ?_, ?_⟩ <;> grind
  | start =>
    refine ⟨by simpa using hunits, ?_, ?_, ?_⟩ <;> grind
  | @finish failed before after u =>
    refine ⟨by simpa using hunits, ?_, ?_, ?_⟩
    · grind
    · intro hfailed
      dsimp only at hfailed hnoted ⊢
      cases hgenerate : generate types p u with
      | error e => exact ⟨u, e, by simp⟩
      | ok c =>
        obtain ⟨v, e, hv⟩ := hnoted (by simpa [hgenerate, Except.isOk, Except.toBool] using hfailed)
        refine ⟨v, e, ?_⟩
        grind
    · grind

theorem Sound.run (h : Sound types p pool) (hrun : Runs types p pool pool') :
    Sound types p pool' := by
  induction hrun with
  | refl => exact h
  | tail _ hstep ih => exact ih.step hstep

section

variable (h : Sound types p pool)
include h

theorem Sound.mem_units {u : CodeUnit} : u ∈ p.units ↔ ∃ progress, (u, progress) ∈ pool.tasks := by
  rw [← h.units]
  simp

variable (hfinished : pool.Finished)
include hfinished

/-- Where all units can be read, all of them are. -/
theorem Sound.tasks_eq (hok : ∀ u ∈ p.units, ∃ c, generate types p u = .ok c) :
    pool.tasks = p.units.map fun u => (u, .done (some (generate types p u))) := by
  have hfailed : pool.failed ≠ true := by
    intro hfailed
    obtain ⟨u, e, hu⟩ := h.noted hfailed
    obtain ⟨c, hc⟩ := hok u (h.mem_units.mpr ⟨_, hu⟩)
    rw [← h.read u _ hu] at hc
    cases hc
  have hdone : ∀ x ∈ pool.tasks, x = (x.1, .done (some (generate types p x.1))) := by
    rintro ⟨u, progress⟩ hx
    obtain ⟨r, rfl⟩ := hfinished _ hx
    cases r with
    | none => exact absurd (h.skipped u hx) hfailed
    | some r => rw [h.read u r hx]
  rw [← h.units, List.map_map]
  exact (List.map_id _).symm.trans (List.map_congr_left hdone)

/-- Where some unit cannot be read, a failure is among the results. -/
theorem Sound.exists_error {u : CodeUnit} (hu : u ∈ p.units) {e : GenerationError}
    (he : generate types p u = .error e) : ∃ v e', (v, .done (some (.error e'))) ∈ pool.tasks := by
  obtain ⟨progress, hprogress⟩ := h.mem_units.mp hu
  obtain ⟨r, rfl⟩ := hfinished _ hprogress
  cases r with
  | none => exact h.noted (h.skipped u hprogress)
  | some r =>
    obtain rfl := h.read u r hprogress
    exact ⟨u, e, he ▸ hprogress⟩

/-- The results do not depend on the order in which they came. -/
theorem Sound.outcome_eq_ok_iff {g : Generated} : pool.outcome = .ok g ↔
    (∀ u ∈ p.units, ∃ c, generate types p u = .ok c) ∧
      Generated.addAll true { units := p.units.length }
        (p.units.map fun u => (u.name, some (generate types p u))) = .ok g := by
  have hall (hok : ∀ u ∈ p.units, ∃ c, generate types p u = .ok c) :
      pool.outcome = Generated.addAll true { units := p.units.length }
        (p.units.map fun u => (u.name, some (generate types p u))) := by
    rw [outcome, results, h.tasks_eq hfinished hok, List.length_map, List.map_map]
    rfl
  constructor
  · intro hoc
    have hok : ∀ u ∈ p.units, ∃ c, generate types p u = .ok c := by
      intro u hu
      rcases he : generate types p u with e | c
      · obtain ⟨v, e', hv⟩ := h.exists_error hfinished hu he
        exact absurd (List.mem_map_of_mem hv) ((Generated.addAll_ok hoc).1 v.name e')
      · exact ⟨c, rfl⟩
    exact ⟨hok, hall hok ▸ hoc⟩
  · rintro ⟨hok, hg⟩
    rw [hall hok, hg]

/-- A failure is that of a unit which cannot be read, or which cannot be taken over after the ones
before it. -/
theorem Sound.outcome_eq_error {f : InferenceFailure} (hoc : pool.outcome = .error f) :
    ∃ u ∈ p.units,
    (∃ e, generate types p u = .error e ∧ f = .after [] (.generation u.name e)) ∨
      ∃ c before after g e, generate types p u = .ok c ∧
        pool.tasks = before ++ (u, .done (some (.ok c))) :: after ∧
        Generated.addAll true { units := p.units.length } (results before) = .ok g ∧
        g.store.absorb c = .error e ∧ f = .after [] (.store u.name e) := by
  have hlength : pool.tasks.length = p.units.length := by rw [← h.units, List.length_map]
  obtain ⟨_, unit, r, _, g, e, hresults, hbefore, habsorbed, rfl⟩ := Generated.addAll_error hoc
  obtain ⟨before, rest, htasks, rfl, hrest⟩ := List.map_eq_append_iff.mp hresults
  obtain ⟨⟨u, progress⟩, after, rfl, hx, -⟩ := List.map_eq_cons_iff.mp hrest
  have hmem : (u, progress) ∈ pool.tasks := by
    rw [htasks]
    exact List.mem_append_right _ List.mem_cons_self
  obtain ⟨result, rfl⟩ := hfinished _ hmem
  obtain ⟨rfl, rfl⟩ : u.name = unit ∧ result = some r := Prod.mk.inj hx
  have hr := h.read u r hmem
  rw [hlength] at hbefore
  refine ⟨u, h.mem_units.mpr ⟨_, hmem⟩, ?_⟩
  cases r with
  | error e' =>
    cases habsorbed
    exact .inl ⟨e', hr.symm, rfl⟩
  | ok c =>
    simp only [Generated.absorbed] at habsorbed
    cases habsorb : g.store.absorb c with
    | ok s => simp [habsorb] at habsorbed
    | error e' =>
      simp only [habsorb, Except.error.injEq] at habsorbed
      subst habsorbed
      exact .inr ⟨c, before, after, g, e', hr.symm, htasks, hbefore, habsorb, rfl⟩

end

/-- A unit that is not done can go on. -/
theorem exists_step (h : ¬pool.Finished) : ∃ pool', Step types p pool pool' := by
  obtain ⟨failed, tasks⟩ := pool
  simp only [Finished, not_forall] at h
  obtain ⟨⟨u, progress⟩, hx, hdone⟩ := h
  obtain ⟨before, after, rfl⟩ := List.append_of_mem hx
  cases progress with
  | waiting => exact ⟨_, .start⟩
  | reading => exact ⟨_, .finish⟩
  | done r => exact absurd ⟨r, rfl⟩ hdone

/-- Every unit goes on twice at most. -/
theorem wellFounded_step : WellFounded fun pool' pool => Step types p pool pool' := by
  refine Subrelation.wf ?_ (measure fun pool : Pool => (pool.tasks.map (·.2.left)).sum).wf
  intro pool' pool hstep
  show (pool'.tasks.map (·.2.left)).sum < (pool.tasks.map (·.2.left)).sum
  cases hstep <;> simp [Progress.left]

section

variable (before : List (CodeUnit × Progress)) (us : List CodeUnit)

theorem runs_skip :
    Runs types p ⟨true, before ++ us.map (·, .waiting)⟩
      ⟨true, before ++ us.map (·, .done none)⟩ := by
  induction us generalizing before with
  | nil => exact .refl
  | cons u us ih =>
    have hrest := ih (before ++ [(u, .done none)])
    rw [List.append_assoc, List.append_assoc] at hrest
    exact .head .skip hrest

/-- Units may also be read one after the other. -/
theorem runs_read :
    ∃ failed tasks, Runs types p ⟨false, before ++ us.map (·, .waiting)⟩ ⟨failed, before ++ tasks⟩ ∧
    (∀ x ∈ tasks, ∃ r, x.2 = .done r) ∧
    results tasks = Generated.readUnits true types p us := by
  induction us generalizing before with
  | nil => exact ⟨false, [], .refl, by simp, rfl⟩
  | cons u us ih =>
    have hread : Runs types p ⟨false, before ++ (u :: us).map (·, .waiting)⟩
        ⟨!(generate types p u).isOk,
            before ++ (u, .done (some (generate types p u))) :: us.map (·, .waiting)⟩ :=
      (Relation.ReflTransGen.single .start).tail .finish
    cases hgenerate : generate types p u with
    | ok c =>
      obtain ⟨failed, tasks, hruns, hdone, hresults⟩ := ih (before ++ [(u, .done (some (.ok c)))])
      rw [List.append_assoc, List.append_assoc] at hruns
      refine ⟨failed, (u, .done (some (.ok c))) :: tasks, ?_, ?_, ?_⟩
      · rw [hgenerate] at hread
        exact hread.trans hruns
      · exact List.forall_mem_cons.mpr ⟨⟨_, rfl⟩, hdone⟩
      · rw [Generated.readUnits, hgenerate, ← hresults]
        rfl
    | error e =>
      have hruns : Runs types p _ _ := runs_skip (before ++ [(u, .done (some (.error e)))]) us
      rw [List.append_assoc, List.append_assoc] at hruns
      refine ⟨true, (u, .done (some (.error e))) :: us.map (·, .done none), ?_, ?_, ?_⟩
      · rw [hgenerate] at hread
        exact hread.trans hruns
      · exact List.forall_mem_cons.mpr ⟨⟨_, rfl⟩, by simp⟩
      · rw [Generated.readUnits, hgenerate, results, List.map_cons, List.map_map]
        rfl

end

/-- One after the other is one of the ways. -/
theorem exists_sequential (hnames : (p.units.map (·.name)).Nodup) :
    ∃ pool, Runs types p (start p) pool ∧
    pool.Finished ∧ pool.outcome = Generated.ofProgram true types p := by
  obtain ⟨failed, tasks, hruns, hdone, hresults⟩ := @runs_read types p [] p.units
  have hlength : tasks.length = p.units.length := by
    rw [← (sound_start.run hruns).units, List.length_map]
    rfl
  refine ⟨⟨failed, tasks⟩, hruns, hdone, ?_⟩
  rw [outcome, hresults, hlength, Generated.ofProgram, Program.duplicateUnit?_eq_none.mpr hnames]

end Pool

/-- Units of distinct names may be read side by side where failures are fatal. Reading them one
after the other is one of the ways to do it. No way gets stuck or goes on forever, and all ways end
alike: there are results if there are some one after the other, and then the same ones, with the
slots and constraints of all units. If there are none, the failure is one of a unit that cannot be
read, or that cannot be taken over after the ones before it. -/
theorem Generated.ofProgram_any_schedule {types : TypeSystem} {p : Program}
    (hnames : (p.units.map (·.name)).Nodup) :
    (∃ pool, Pool.Runs types p (.start p) pool ∧ pool.Finished ∧
      pool.outcome = ofProgram true types p) ∧
    WellFounded (fun pool' pool => Pool.Step types p pool pool') ∧
    ∀ pool, Pool.Runs types p (.start p) pool →
      (pool.Finished ∨ ∃ pool', Pool.Step types p pool pool') ∧
      (pool.Finished →
        (∀ g, pool.outcome = .ok g ↔ ofProgram true types p = .ok g) ∧
        (∀ g, pool.outcome = .ok g → g.skipped = [] ∧
          g.store.Collects (fun c => ∃ u ∈ p.units, generate types p u = .ok c) ∧
          ∀ u ∈ p.units, ∃ c,
            generate types p u = .ok c ∧ (u, .done (some (.ok c))) ∈ pool.tasks) ∧
        ∀ f, pool.outcome = .error f → ∃ u ∈ p.units,
          (∃ e, generate types p u = .error e ∧ f = .after [] (.generation u.name e)) ∨
          ∃ c before after g e, generate types p u = .ok c ∧
            pool.tasks = before ++ (u, .done (some (.ok c))) :: after ∧
            addAll true { units := p.units.length } (Pool.results before) = .ok g ∧
            g.store.absorb c = .error e ∧ f = .after [] (.store u.name e)) := by
  obtain ⟨sequential, hsequential, hend, hprogram⟩ := @Pool.exists_sequential types p hnames
  refine ⟨⟨sequential, hsequential, hend, hprogram⟩, Pool.wellFounded_step, fun pool hrun => ?_⟩
  have hs := Pool.sound_start.run hrun
  refine ⟨or_iff_not_imp_left.mpr Pool.exists_step, fun hfinished => ?_⟩
  have hsame : ∀ g, pool.outcome = .ok g ↔ ofProgram true types p = .ok g := by
    intro g
    rw [← hprogram, hs.outcome_eq_ok_iff hfinished,
      (Pool.sound_start.run hsequential).outcome_eq_ok_iff hend]
  refine ⟨hsame, fun g hg => ?_, fun f hf => hs.outcome_eq_error hfinished hf⟩
  obtain ⟨hok, -⟩ := (hs.outcome_eq_ok_iff hfinished).mp hg
  obtain ⟨g', hg', hcollects, hskipped, -⟩ := ofProgram_collects hnames hok true
  obtain rfl := Except.ok.inj (hg'.symm.trans ((hsame g).mp hg))
  refine ⟨hskipped, hcollects, fun u hu => ?_⟩
  obtain ⟨c, hc⟩ := hok u hu
  rw [hs.tasks_eq hfinished hok]
  exact ⟨c, hc, List.mem_map.mpr ⟨u, hu, by rw [hc]⟩⟩

namespace Generated

/-- The second unit copies from one that does not exist. -/
def failingProgram : Program :=
  ⟨[copyingUnit "A" "B", copyingUnit "B" "X", copyingUnit "C" "A"]⟩

/-- The first unit is still read when the second one fails, and the third one is left out. -/
def skippingPool : Pool := ⟨true, [
  (copyingUnit "A" "B", .done (some (generate copyingTypes failingProgram (copyingUnit "A" "B")))),
  (copyingUnit "B" "X", .done (some (generate copyingTypes failingProgram (copyingUnit "B" "X")))),
  (copyingUnit "C" "A", .done none)]⟩

def copyingPool : Pool :=
  ⟨false, copyingUnits.map fun u => (u, .done (some (generate copyingTypes ⟨copyingUnits⟩ u)))⟩

theorem runs_skipping
    (hfails : (generate copyingTypes failingProgram (copyingUnit "B" "X")).isOk = false) :
    Pool.Runs copyingTypes failingProgram (.start failingProgram) skippingPool := by
  have hstart : Pool.Runs copyingTypes failingProgram (.start failingProgram) ⟨false,
      [(copyingUnit "A" "B", .reading), (copyingUnit "B" "X", .reading),
        (copyingUnit "C" "A", .waiting)]⟩ :=
    (Relation.ReflTransGen.single
      (@Pool.Step.start _ _ _ [(copyingUnit "A" "B", .waiting)]
        [(copyingUnit "C" "A", .waiting)] _)).tail
      (@Pool.Step.start _ _ _ [] [(copyingUnit "B" "X", .reading),
        (copyingUnit "C" "A", .waiting)] _)
  have hfinish := hstart.tail
    (@Pool.Step.finish _ _ _ [(copyingUnit "A" "B", .reading)] [(copyingUnit "C" "A", .waiting)] _)
  rw [hfails] at hfinish
  have hskip := hfinish.tail
    (@Pool.Step.skip _ _ [(copyingUnit "A" "B", .reading), (copyingUnit "B" "X", _)] [] _)
  exact hskip.tail
    (@Pool.Step.finish _ _ _ [] [(copyingUnit "B" "X", _), (copyingUnit "C" "A", .done none)] _)

/-- The second unit is started first and finished last. -/
theorem runs_copying :
    Pool.Runs copyingTypes ⟨copyingUnits⟩ (.start ⟨copyingUnits⟩) copyingPool := by
  obtain ⟨hfirst, hsecond, -⟩ := by
    simpa only [copyingUnits, List.forall_mem_cons] using isOk_generate_copying
  have hstart : Pool.Runs copyingTypes ⟨copyingUnits⟩ (.start ⟨copyingUnits⟩) ⟨false,
      [(copyingUnit "A" "B", .reading), (copyingUnit "B" "A", .reading)]⟩ :=
    (Relation.ReflTransGen.single
      (@Pool.Step.start _ _ _ [(copyingUnit "A" "B", .waiting)] [] _)).tail
      (@Pool.Step.start _ _ _ [] [(copyingUnit "B" "A", .reading)] _)
  have hfinish := (hstart.tail
    (@Pool.Step.finish _ _ _ [] [(copyingUnit "B" "A", .reading)] _)).tail
    (@Pool.Step.finish _ _ _ [(copyingUnit "A" "B", _)] [] _)
  rw [copyingUnits, hfirst, hsecond] at hfinish
  exact hfinish

/-- Where a unit cannot be read, another one may be left out, but there is no result then. Where
both can be read, the result has the slots and constraints of both. -/
theorem ofProgram_any_schedule_skipping :
    ((failingProgram.units.map (·.name)).Nodup ∧
      Pool.Runs copyingTypes failingProgram (.start failingProgram) skippingPool ∧
      skippingPool.Finished ∧
      (generate copyingTypes failingProgram (copyingUnit "B" "X")).isOk = false ∧
      ∀ g, skippingPool.outcome ≠ .ok g ∧ ofProgram true copyingTypes failingProgram ≠ .ok g) ∧
    (copyingUnits.map (·.name)).Nodup ∧
      Pool.Runs copyingTypes ⟨copyingUnits⟩ (.start ⟨copyingUnits⟩) copyingPool ∧
      copyingPool.Finished ∧
      copyingPool.outcome = .ok { store := copyingStore "A" "B", units := 2 } ∧
      (copyingStore "A" "B").Collects
        (fun c => ∃ u ∈ copyingUnits, generate copyingTypes ⟨copyingUnits⟩ u = .ok c) := by
  refine ⟨?_, ?_⟩
  · have hnames : (failingProgram.units.map (·.name)).Nodup := by decide
    have hfails : (generate copyingTypes failingProgram (copyingUnit "B" "X")).isOk = false := by
      cbv
    have hrun := runs_skipping hfails
    have hfinished : skippingPool.Finished := by simp [Pool.Finished, skippingPool]
    obtain ⟨-, -, hall⟩ := ofProgram_any_schedule hnames
    obtain ⟨hsame, hread, -⟩ := (hall _ hrun).2 hfinished
    have hoc : ∀ g, skippingPool.outcome ≠ .ok g := by
      intro g hg
      obtain ⟨c, hc, -⟩ := (hread g hg).2.2 (copyingUnit "B" "X") (by simp [failingProgram])
      rw [hc] at hfails
      cases hfails
    exact ⟨hnames, hrun, hfinished, hfails, fun g => ⟨hoc g, fun hg => hoc g ((hsame g).mpr hg)⟩⟩
  · have hnames : (copyingUnits.map (·.name)).Nodup := by decide
    have hfinished : copyingPool.Finished := by simp [Pool.Finished, copyingPool]
    obtain ⟨-, -, hall⟩ := ofProgram_any_schedule (p := ⟨copyingUnits⟩) hnames
    obtain ⟨hsame, hread, -⟩ := (hall _ runs_copying).2 hfinished
    have hok := (hsame _).mpr ofProgram_copying.1
    exact ⟨hnames, runs_copying, hfinished, hok, (hread _ hok).2.1⟩

end Generated

end Qualify
