import Qualify.Proofs.Solver.Core
import Qualify.Proofs.Diagram.Restriction

namespace Qualify

namespace Lit

def Consistent (ls : List Lit) : Prop := ∀ l ∈ ls, ∀ l' ∈ ls, l.var = l'.var → l = l'

variable {ls : List Lit}

theorem Consistent.of_pairwise (h : ls.Pairwise fun l l' => l.var.number < l'.var.number) :
    Consistent ls := by
  induction ls with
  | nil => intro l hl; cases hl
  | cons m ms ih =>
    obtain ⟨hm, hms⟩ := List.pairwise_cons.mp h
    intro l hl l' hl' hv
    rcases List.mem_cons.mp hl with rfl | hmem
    · rcases List.mem_cons.mp hl' with rfl | hmem'
      · rfl
      · exact absurd (congrArg Var.number hv) (Nat.ne_of_lt (hm l' hmem'))
    · rcases List.mem_cons.mp hl' with rfl | hmem'
      · exact absurd (congrArg Var.number hv) (Nat.ne_of_gt (hm l hmem))
      · exact ih hms l hmem l' hmem' hv

theorem Consistent.of_opposed (h : DiagramSolver.opposed ls = false) : Consistent ls := by
  intro l hl l' hl' hv
  refine (eq_or_opposite hv).resolve_right fun ho => ?_
  have := List.any_eq_false.mp h l' hl'
  exact this (List.contains_iff_mem.mpr (ho ▸ hl))

theorem not_all_of_opposed (h : DiagramSolver.opposed ls = true) (a : Nat → Bool) :
    ¬∀ l ∈ ls, l.eval a = true := by
  intro hall
  obtain ⟨l, hl, ho⟩ := List.any_eq_true.mp h
  have hl := hall l hl
  have ho := hall l.opposite (List.contains_iff_mem.mp ho)
  rw [eval_opposite, hl] at ho
  cases ho

end Lit

namespace Diagram

variable {ls : List Lit}

theorem valuesOf_of_mem (hc : Lit.Consistent ls) {l : Lit} (hl : l ∈ ls) :
    valuesOf ls l.var.number = some l.isPositive := by
  unfold valuesOf
  -- the last literal of a variable counts, and it is the only one
  cases hfind : ls.reverse.find? fun l' => l'.var.number == l.var.number with
  | none => simpa using List.find?_eq_none.mp hfind l (List.mem_reverse.mpr hl)
  | some l' =>
    have hv : l'.var.number = l.var.number := by simpa using List.find?_some hfind
    have hmem := List.mem_reverse.mp (List.mem_of_find?_eq_some hfind)
    rw [hc l' hmem l hl (by rw [Var.mk.injEq, hv])]
    rfl

theorem valuesOf_eq_none {v : Nat} (h : ∀ l ∈ ls, l.var.number ≠ v) : valuesOf ls v = none := by
  unfold valuesOf
  rw [Option.map_eq_none_iff, List.find?_eq_none]
  intro l hl
  simpa using h l (List.mem_reverse.mp hl)

/-- Values that make all literals true stay as they are under them. -/
theorem overlay_valuesOf (hc : Lit.Consistent ls) {a : Nat → Bool}
    (ha : ∀ l ∈ ls, l.eval a = true) :
    overlay (valuesOf ls) a = a := by
  funext v
  unfold overlay
  by_cases hv : ∃ l ∈ ls, l.var.number = v
  · obtain ⟨l, hl, rfl⟩ := hv
    rw [valuesOf_of_mem hc hl]
    exact (eq_of_beq (ha l hl)).symm
  · rw [valuesOf_eq_none fun l hl hlv => hv ⟨l, hl, hlv⟩]
    rfl

theorem eval_overlay_valuesOf (hc : Lit.Consistent ls) (a : Nat → Bool) {l : Lit} (hl : l ∈ ls) :
    l.eval (overlay (valuesOf ls) a) = true := by
  rw [Lit.eval, overlay, valuesOf_of_mem hc hl]
  simp

end Diagram

namespace DiagramSolver

open Diagram (valuesOf overlay)

/-- Writing literals into an assignment is laying their values over it. -/
theorem valuation_imposed {ls : List Lit} (hc : Lit.Consistent ls) (assignment : Array Bool) :
    (imposed ls assignment).size = assignment.size ∧ ∀ v, 0 < v → v ≤ assignment.size →
      valuation (imposed ls assignment) v = overlay (valuesOf ls) (valuation assignment) v := by
  obtain ⟨hsize, hget⟩ := List.foldl_setIfInBounds (fun l : Lit => l.var.index) (·.isPositive)
    (fun i => (valuesOf ls (i + 1)).getD false) ls (fun l hl => by
      rw [Var.index, Nat.sub_add_cancel l.var.positive, Diagram.valuesOf_of_mem hc hl]
      rfl) assignment
  refine ⟨hsize, fun v hv hvs => ?_⟩
  have hidx : ∀ l : Lit, l.var.index = v - 1 ↔ l.var.number = v := fun l => by
    have := l.var.positive
    unfold Var.index
    omega
  unfold valuation overlay
  rw [imposed, hget]
  simp only [hidx]
  by_cases hex : ∃ l ∈ ls, l.var.number = v
  · rw [if_pos ⟨hex, by omega⟩, Nat.sub_add_cancel hv]
    obtain ⟨l, hl, rfl⟩ := hex
    rw [Diagram.valuesOf_of_mem hc hl]
    rfl
  · rw [if_neg fun h => hex h.1, Diagram.valuesOf_eq_none fun l hl hlv => hex ⟨l, hl, hlv⟩]
    rfl

/-- The same for the first values of an assignment. -/
theorem valuation_imposed_take {ls : List Lit} (hc : Lit.Consistent ls) {m : Array Bool} {n : Nat}
    (hn : n ≤ m.size) :
    (imposed ls (m.take n)).size = n ∧
      ∀ v, 0 < v → v ≤ n → valuation (imposed ls (m.take n)) v =
        overlay (valuesOf ls) (valuation m) v := by
  have hsize : (m.take n).size = n := by
    rw [Array.size_extract, Nat.min_eq_left hn, Nat.sub_zero]
  obtain ⟨himposed, hval⟩ := valuation_imposed hc (m.take n)
  rw [hsize] at himposed hval
  refine ⟨himposed, fun v hv hvn => ?_⟩
  have htake : valuation (m.take n) v = valuation m v := by
    rw [valuation, valuation, Array.getD_eq_getD_getElem?, Array.getD_eq_getD_getElem?,
      Array.getElem?_extract, if_pos (by rw [← hsize, Array.size_extract] at hvn; omega),
      Nat.zero_add]
  rw [hval v hv hvn, overlay, overlay, htake]

end DiagramSolver

/-- The assignment satisfies the hard clauses and the assumed literals. -/
def Cnf.Allows (f : Cnf) (assumed : List Lit) (assignment : Array Bool) : Prop :=
  f.evaluate assignment = true ∧ ∀ l ∈ assumed, l.holds assignment = true

/-- The right outcomes of a problem under assumptions. The cost is that of the assignment, and no
allowed assignment has a smaller one if the weights have a sum within the words; an unweighted
solver leaves the cost at zero. -/
def Outcome.Answers (weighted : Bool) (f : Cnf) (assumed : List Lit) : Outcome → Prop
  | .unsat _ => ∀ assignment, ¬f.Allows assumed assignment
  | .sat m => m.assignment.size = f.numVars ∧ f.Allows assumed m.assignment ∧
      if weighted then
        m.cost = f.softCost m.assignment ∧
          (totalWeight f.soft.toList < 2 ^ 64 → ∀ assignment, f.Allows assumed assignment →
            m.cost ≤ f.softCost assignment)
      else m.cost = 0

section Cost

variable {f : Cnf}

theorem toNat_softCost (h : totalWeight f.soft.toList < 2 ^ 64) (assignment : Array Bool) :
    (f.softCost assignment).toNat + satisfiedWeight f.soft.toList (valuation assignment) =
      totalWeight f.soft.toList := by
  have hsplit := Weight.sum_filter_add_sum_filter_not (·.weight)
    (fun s : SoftClause => Clause.eval (valuation assignment) s.lits) f.soft.toList
  have hcost : (f.softCost assignment).toNat =
      Weight.sum ((f.soft.toList.filter fun s => !Clause.eval (valuation assignment) s.lits).map
          (·.weight)) := by
    refine Weight.toNat_total_of_lt (lt_of_le_of_lt ?_ h)
    change Weight.sum ((f.soft.toList.filter fun s =>
      !Clause.eval (valuation assignment) s.lits).map (·.weight)) ≤ _
    unfold totalWeight
    omega
  rw [hcost]
  unfold satisfiedWeight totalWeight
  omega

theorem satisfiedWeight_congr {softs : List SoftClause} {n : Nat}
    (hb : ∀ s ∈ softs, ∀ l ∈ s.lits, l.var.number ≤ n) {a b : Nat → Bool}
    (h : ∀ v, 0 < v → v ≤ n → a v = b v) : satisfiedWeight softs a = satisfiedWeight softs b := by
  unfold satisfiedWeight
  rw [List.filter_congr fun s hs => Clause.eval_congr fun l hl => h _ l.var.positive (hb s hs l hl)]

end Cost

namespace DiagramSolver

open Diagram (valuesOf overlay)

variable {c : Config}

section Blend

variable {values : Nat → Option Bool} {m b : Nat → Bool}

def blend (values : Nat → Option Bool) (m b : Nat → Bool) (v : Nat) : Bool :=
  if (values v).isSome then m v else b v

theorem overlay_blend (hb : overlay values b = b) : overlay values (blend values m b) = b := by
  funext v
  rw [← congrFun hb v, overlay, overlay, blend]
  cases values v <;> rfl

/-- Where values are laid over, both sides change places; the sum stays the same. -/
theorem income_swap (gains : Array Gain) (hb : overlay values b = b) :
    income gains b + income gains m = income gains (blend values m b) +
      income gains (overlay values m) := by
  unfold income tally
  rw [← Finset.sum_add_distrib, ← Finset.sum_add_distrib]
  refine Finset.sum_congr rfl fun i _ => ?_
  have hbi : (values (i + 1)).getD (b (i + 1)) = b (i + 1) := congrFun hb (i + 1)
  simp only [overlay, blend]
  cases hv : values (i + 1) with
  | none => rfl
  | some x =>
    rw [hv, Option.getD_some] at hbi
    rw [hbi, Nat.add_comm]
    rfl

end Blend

section Answers

variable {weighted : Bool} {k : Compiled} {d : Diagram} (hk : k.Faithful weighted d)
  (hcnf : k.cnf.Bounded)
  (hz : k.hard ≠ .zero) {assumed : List Lit} (hc : Lit.Consistent assumed)

include hk hz in
theorem eval_of_root {a : Nat → Bool} (ha : d.eval a k.root = true) : k.cnf.eval a = true := by
  cases weighted with
  | true => exact (hk.scored rfl hz).implies a ha
  | false => rw [← hk.hard_eval a, ← hk.plain rfl, ha]

include hk hz in
/-- An assignment that satisfies the hard clauses reaches the root, with the selectors that it has
earned. -/
theorem exists_root {a : Nat → Bool} (ha : k.cnf.eval a = true) :
    ∃ b, (∀ v ≤ k.cnf.numVars, b v = a v) ∧ d.eval b k.root = true ∧
      (weighted = true → totalWeight k.cnf.soft.toList < 2 ^ 64 →
        income k.gains b = satisfiedWeight k.cnf.soft.toList a) := by
  cases weighted with
  | true =>
    obtain ⟨b, hb, hroot, hinc⟩ := (hk.scored rfl hz).reached a ha
    exact ⟨b, hb, hroot, fun _ => hinc⟩
  | false => exact ⟨a, fun _ _ => rfl, by rw [hk.plain rfl, hk.hard_eval a, ha], nofun⟩

variable (hass : ∀ l ∈ assumed, l.var.number ≤ k.cnf.numVars)

include hc hass in
theorem overlay_of_allows {assignment : Array Bool} (h : k.cnf.Allows assumed assignment)
    {b : Nat → Bool} (hb : ∀ v ≤ k.cnf.numVars, b v = valuation assignment v) :
    overlay (valuesOf assumed) b = b :=
  Diagram.overlay_valuesOf hc fun l hl => by
    rw [Lit.eval_congr (hb _ (hass l hl)), ← Lit.holds_eq]
    exact h.2 l hl

include hk hz hc hass in
theorem unsat_answers (h : ∀ a, d.eval (overlay (valuesOf assumed) a) k.root = false)
    (core : Option (List Nat)) :
    Outcome.Answers weighted k.cnf assumed (.unsat core) := by
  intro assignment hallow
  have heval := hallow.1
  rw [Cnf.evaluate_eq] at heval
  obtain ⟨b, hb, hroot, -⟩ := exists_root hk hz heval
  have := h b
  rw [overlay_of_allows hc hass hallow hb, hroot] at this
  cases this

include hk hcnf hz hc hass in
/-- An assignment that has the values of a model of the root on the variables of the problem. -/
theorem allows_of_root {a : Nat → Bool} (ha : d.eval (overlay (valuesOf assumed) a) k.root = true)
    {assignment : Array Bool}
    (hv : ∀ v, 0 < v → v ≤ k.cnf.numVars →
      valuation assignment v = overlay (valuesOf assumed) a v) :
    k.cnf.Allows assumed assignment := by
  constructor
  · rw [Cnf.evaluate_eq, hcnf.eval_congr hv]
    exact eval_of_root hk hz ha
  · intro l hl
    rw [Lit.holds_eq, Lit.eval_congr (hv _ l.var.positive (hass l hl))]
    exact Diagram.eval_overlay_valuesOf hc a hl

include hk hcnf hz hc hass in
/-- A model of the restricted root that earns the most is an assignment of least cost. -/
theorem weighted_answers (hw : weighted = true) {m : Array Bool} (hm : m.size = k.gains.size)
    (hroot : d.eval (overlay (valuesOf assumed) (valuation m)) k.root = true)
    (hbest : (Diagram.Gains.ofArray k.gains).Fits →
      ∀ a, d.eval (overlay (valuesOf assumed) a) k.root = true →
        income k.gains a ≤ income k.gains (valuation m)) :
    Outcome.Answers weighted k.cnf assumed (.sat ⟨imposed assumed (m.take k.cnf.numVars),
      k.cnf.softCost (imposed assumed (m.take k.cnf.numVars))⟩) := by
  have hscore := hk.scored hw hz
  obtain ⟨himposed, hvalue⟩ := valuation_imposed_take hc (hm ▸ hscore.size)
  refine ⟨himposed, allows_of_root hk hcnf hz hc hass hroot hvalue, ?_⟩
  rw [if_pos hw]
  refine ⟨rfl, fun hsum assignment hallow => ?_⟩
  have heval := hallow.1
  rw [Cnf.evaluate_eq] at heval
  -- With the values of `m` where literals are assumed, the rival `b` is a model of the restricted
  -- root, and earns at most what `m` does. What it gives away there is what `m` gains by the
  -- assumed values.
  obtain ⟨b, hb, hbroot, hbinc⟩ := exists_root hk hz heval
  have hbover := overlay_of_allows hc hass hallow hb
  have hswap := income_swap (m := valuation m) k.gains hbover
  have hle := hbest (fits_of_spread (by rw [hscore.spread_eq hsum]; exact hsum))
    (blend (valuesOf assumed) (valuation m) b) (by rw [overlay_blend hbover, hbroot])
  have hmodel := hscore.income_le hsum _ hroot
  have hsat := satisfiedWeight_congr (fun s hs => hcnf.soft s (Array.mem_toList_iff.mp hs)) hvalue
  have hb := hbinc hw hsum
  have hcost := toNat_softCost hsum assignment
  have hcost' := toNat_softCost hsum (imposed assumed (m.take k.cnf.numVars))
  refine UInt64.le_iff_toNat_le.mpr ?_
  dsimp only
  omega

include hk hcnf hz hc hass in
/-- Variables without a literal on the path are false. -/
theorem plain_answers (hw : weighted = false) {ls : List Lit}
    (hls : ls.Pairwise fun l l' => l.var.number < l'.var.number)
    (hsat : ∀ a, (∀ l ∈ ls, l.eval a = true) →
      d.eval (overlay (valuesOf assumed) a) k.root = true) :
    Outcome.Answers weighted k.cnf assumed (.sat ⟨imposed assumed
      ((imposed ls (Array.replicate k.cnf.numVars false)).take k.cnf.numVars), 0⟩) := by
  have hls := Lit.Consistent.of_pairwise hls
  obtain ⟨hsize, hval⟩ := valuation_imposed hls (Array.replicate k.cnf.numVars false)
  rw [Array.size_replicate] at hsize hval
  have htake : (imposed ls (Array.replicate k.cnf.numVars false)).take k.cnf.numVars =
      imposed ls (Array.replicate k.cnf.numVars false) := by
    refine Array.extract_eq_self_of_le ?_
    rw [hsize]
  obtain ⟨hsize', hval'⟩ := valuation_imposed hc (imposed ls (Array.replicate k.cnf.numVars false))
  rw [hsize] at hsize' hval'
  rw [htake]
  refine ⟨hsize', allows_of_root hk hcnf hz hc hass (hsat (overlay (valuesOf ls) fun _ => false)
    fun l hl => Diagram.eval_overlay_valuesOf hls _ hl) ?_, ?_⟩
  · intro v hv hvn
    rw [hval' v hv hvn, overlay, overlay, hval v hv hvn, overlay, overlay, valuation,
      Array.getD_replicate_self]
  · rw [if_neg (by simp [hw])]

end Answers

section Query

def modelOf (c : Config) (k : Compiled) (assumed : List Lit) (f : Edge) : Work Outcome := do
  if f = .zero then return .unsat none
  else
    let n := k.cnf.numVars
    let found ← updateDiagram fun d =>
      (if c.weighted then (d.bestModel? f k.gains).map (·.1)
       else some (imposed ((d.oneModel? f).getD []) (Array.replicate n false)), d)
    match found with
    | none => return .unsat none
    | some assignment =>
      let assignment := imposed assumed (assignment.take n)
      return .sat ⟨assignment, if c.weighted then k.cnf.softCost assignment else 0⟩

theorem modelOf_gives {k : Compiled} {d d₁ : Diagram} (hk : k.Faithful c.weighted d)
    (hcnf : k.cnf.Bounded) (hz : k.hard ≠ .zero) {assumed : List Lit} (hc : Lit.Consistent assumed)
    {f : Edge} (hg : Grown d d₁) (hf : d₁.Has f)
    (heval : ∀ a, d₁.eval a f = d.eval (overlay (valuesOf assumed) a) k.root) :
    Gives c (modelOf c k assumed f) d₁ (fun o d' => Grown d d' ∧
      ((∀ l ∈ assumed, l.var.number ≤ k.cnf.numVars) → o.Answers c.weighted k.cnf assumed))
        (Grown d) := by
  by_cases hfz : f = .zero
  · rw [modelOf, if_pos hfz]
    refine .pure ⟨hg, fun hass => unsat_answers hk hz hc hass (fun a => ?_) none⟩
    rw [← heval a, hfz, Diagram.eval_zero]
  · rw [modelOf, if_neg hfz]
    refine Gives.updateDiagram ?_
    cases hw : c.weighted with
    | true =>
      -- the gains cover the selectors too, so that the best model knows every variable of the root
      have hupto : d₁.Upto k.gains.size f := by
        intro a b hab
        rw [heval a, heval b]
        refine (hk.scored hw hz).upto _ _ fun v hv => ?_
        rw [overlay, overlay, hab v hv]
      obtain ⟨m, w, hm, hsize, hmf, hbest⟩ := Diagram.bestModel?_spec hg.1.toReduced hf hfz hupto
      simp only [hm, if_true, Option.map_some]
      refine .pure ⟨hg, fun hass => ?_⟩
      rw [heval] at hmf
      rw [hw] at hk
      refine weighted_answers hk hcnf hz hc hass rfl hsize hmf fun hfits a ha => ?_
      rw [← heval] at ha
      rw [income_eq_earned, income_eq_earned, ← (hbest hfits).1]
      exact (hbest hfits).2 a ha
    | false =>
      obtain ⟨ls, hls, hpair, hsat⟩ := Diagram.oneModel?_spec hg.1.toReduced hf hfz
      simp only [hls, Bool.false_eq_true, if_false, Option.getD_some]
      refine .pure ⟨hg, fun hass => ?_⟩
      rw [hw] at hk
      exact plain_answers hk hcnf hz hc hass rfl hpair fun a ha => by rw [← heval a, hsat a ha]

theorem query_eq {k : Compiled} (hz : k.hard ≠ .zero) {assumed : List Lit}
    (ho : opposed assumed = false) :
    query c k assumed =
      if assumed.isEmpty then modelOf c k assumed k.root
      else updateDiagram (·.restrict (valuesOf assumed) k.root) >>= modelOf c k assumed := by
  rw [query, if_neg hz, if_neg (by simp [ho])]
  rfl

/-- A query leaves the compiled problem as it is, and its outcome is right if all assumed variables
are counted. -/
theorem query_gives {k : Compiled} {d : Diagram} (hk : k.Faithful c.weighted d)
    (hcnf : k.cnf.Bounded) (assumed : List Lit) :
    Gives c (query c k assumed) d (fun o d' => Grown d d' ∧
      ((∀ l ∈ assumed, l.var.number ≤ k.cnf.numVars) → o.Answers c.weighted k.cnf assumed))
        (Grown d) := by
  have hself : Grown d d := ⟨hk.sound, .refl d⟩
  by_cases hz : k.hard = .zero
  · have hunsat : ∀ core, Outcome.Answers c.weighted k.cnf assumed (.unsat core) := by
      intro core assignment hallow
      have heval := hallow.1
      rw [Cnf.evaluate_eq, ← hk.hard_eval, hz, Diagram.eval_zero] at heval
      cases heval
    simp only [query, if_pos hz]
    split_ifs
    · refine Gives.bind (core_keeps k.cnf (hk.hard_eq_zero_iff.mp hz) hk.sound) fun core d₁ h => ?_
      exact .pure ⟨h.1, fun _ => hunsat _⟩
    · exact .pure ⟨hself, fun _ => hunsat _⟩
  · cases ho : opposed assumed with
    | true =>
      simp only [query, if_neg hz, ho, if_true]
      refine .pure ⟨hself, fun _ assignment hallow => ?_⟩
      exact Lit.not_all_of_opposed ho (valuation assignment) hallow.2
    | false =>
      have hc := Lit.Consistent.of_opposed ho
      rw [query_eq hz ho]
      split_ifs with hempty
      · refine modelOf_gives hk hcnf hz hc hself hk.has_root fun a => ?_
        rw [List.isEmpty_iff.mp hempty]
        rfl
      · have hy := Diagram.restrict_yields hk.sound (valuesOf assumed) hk.has_root
        exact Gives.updateDiagram (modelOf_gives hk hcnf hz hc ⟨hy.sound, hy.grows⟩ hy.has hy.eval)

/-- Where a query without assumptions finds no model, it says which clauses are in conflict. -/
theorem query_core {k : Compiled} {w w' : Workspace} (hk : k.Faithful c.weighted w.diagram)
    (hcnf : k.cnf.Bounded) {core : Option (List Nat)}
    (h : query c k [] w = (.ok (.unsat core), w')) :
    ∃ ks, core = some ks ∧ k.cnf.IsFirstCore ks := by
  have hgives := query_gives hk hcnf [] w.checks
  rw [Solving.Meets, h] at hgives
  have hinconsistent : ¬Clause.Consistent k.cnf.hard.toList := by
    rintro ⟨a, ha⟩
    obtain ⟨assignment, hassignment⟩ := hcnf.exists_evaluate (List.all_eq_true.mpr ha)
    exact hgives.2 (List.forall_mem_nil _) assignment ⟨hassignment, List.forall_mem_nil _⟩
  simp only [query, if_pos (hk.hard_eq_zero_iff.mpr hinconsistent), List.isEmpty_nil, if_true] at h
  have hcore := core_keeps (c := c) k.cnf hinconsistent hk.sound w.checks
  unfold Solving.Meets at hcore
  rw [bind_run] at h
  rcases hrun : DiagramSolver.core c k.cnf w with ⟨e | ks, w₁⟩ <;> rw [hrun] at h hcore
  · cases h
  · cases h
    exact ⟨ks, rfl, hcore.2⟩

end Query

end DiagramSolver

end Qualify
