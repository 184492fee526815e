import Qualify.Encoding.TieBreak
import Qualify.Proofs.Encoding.Bounds
import Qualify.Proofs.Solver.Reliable

namespace Qualify

section FirstOf

variable {α β : Type}

/-- Of the choices in their order, the first possible one is taken. -/
def FirstOf (possible taken : α → Prop) : List α → Prop
  | [] => True
  | x :: xs => (possible x → taken x) ∧ (¬possible x → FirstOf possible taken xs)

variable {possible taken : α → Prop}

theorem firstOf_of_head? {xs : List α} (h : ∀ x ∈ xs.head?, possible x ∧ taken x) :
    FirstOf possible taken xs := by
  cases xs with
  | nil => trivial
  | cons x xs =>
    obtain ⟨hp, ht⟩ := h x rfl
    exact ⟨fun _ => ht, fun hn => absurd hp hn⟩

theorem FirstOf.mono {possible' taken' : α → Prop} {xs : List α} (h : FirstOf possible taken xs)
    (hp : ∀ x ∈ xs, possible' x ↔ possible x) (ht : ∀ x ∈ xs, taken x → taken' x) :
    FirstOf possible' taken' xs := by
  induction xs with
  | nil => trivial
  | cons x xs ih =>
    obtain ⟨hpx, hps⟩ := List.forall_mem_cons.mp hp
    obtain ⟨htx, hts⟩ := List.forall_mem_cons.mp ht
    exact ⟨fun hx => htx (h.1 (hpx.mp hx)), fun hx => ih (h.2 (mt hpx.mpr hx)) hps hts⟩

/-- Choices that are not possible may be put in. -/
theorem FirstOf.of_filter {p : α → Bool} {xs : List α} (h : FirstOf possible taken (xs.filter p))
    (hp : ∀ x ∈ xs, p x = false → ¬possible x) : FirstOf possible taken xs := by
  induction xs with
  | nil => trivial
  | cons x xs ih =>
    obtain ⟨hpx, hps⟩ := List.forall_mem_cons.mp hp
    cases hx : p x with
    | true =>
      rw [List.filter_cons_of_pos hx] at h
      exact ⟨h.1, fun hn => ih (h.2 hn) hps⟩
    | false =>
      rw [List.filter_cons_of_neg (by simp [hx])] at h
      exact ⟨fun hpos => absurd hpos (hpx hx), fun _ => ih h hps⟩

theorem FirstOf.of_eraseDups [BEq α] [LawfulBEq α] (xs : List α)
    (h : FirstOf possible taken xs.eraseDups) :
    FirstOf possible taken xs := by
  match xs with
  | [] => trivial
  | x :: xs =>
    rw [List.eraseDups_cons] at h
    refine ⟨h.1, fun hn => ?_⟩
    refine (FirstOf.of_eraseDups _ (h.2 hn)).of_filter fun y _ hy => ?_
    simp only [Bool.not_eq_false', beq_iff_eq] at hy
    exact hy ▸ hn
termination_by xs.length
decreasing_by exact Nat.lt_succ_of_le (List.length_filter_le _ _)

theorem FirstOf.of_filterMap {f : α → Option β} {possible' taken' : β → Prop} {xs : List α}
    (h : FirstOf possible' taken' (xs.filterMap f))
    (hp : ∀ x, possible x ↔ ∃ y, f x = some y ∧ possible' y)
    (ht : ∀ x y, f x = some y → taken' y → taken x) : FirstOf possible taken xs := by
  induction xs with
  | nil => trivial
  | cons x xs ih =>
    cases hx : f x with
    | none =>
      rw [List.filterMap_cons_none hx] at h
      refine ⟨fun hpos => ?_, fun _ => ih h⟩
      obtain ⟨y, hy, -⟩ := (hp x).mp hpos
      cases hx.symm.trans hy
    | some y =>
      rw [List.filterMap_cons_some hx] at h
      have hiff : possible x ↔ possible' y := by
        rw [hp x, hx]
        simp
      exact ⟨fun hpos => ht x y hx (h.1 (hiff.mp hpos)), fun hn => ih (h.2 (mt hiff.mpr hn))⟩

end FirstOf

def Cnf.reportedCost (weighted : Bool) (f : Cnf) (assignment : Array Bool) : Weight :=
  if weighted then f.softCost assignment else 0

namespace Encoding

section Definitions

variable (e : Encoding) (l : Lattice)

/-- The models of the hard clauses whose cost is at most `optimum`. -/
def rivals (weighted : Bool) (optimum : Weight) : Set (Array Bool) :=
  {assignment | assignment ∈ e.models ∧ e.cnf.reportedCost weighted assignment ≤ optimum}

def Agree (is : List SlotId) (a b : Array Bool) : Prop :=
  ∀ i ∈ is, (e.reading l a).get? i = (e.reading l b).get? i

/-- Slot by slot, the first literal is true that can be true in `R` without a change to the slots
before. -/
def Greedy (R : Set (Array Bool)) (a : Array Bool) : List SlotId → List (SlotId × List Lit) → Prop
  | _, [] => True
  | settled, (i, lits) :: rest =>
    FirstOf (fun x => ∃ b ∈ R, e.Agree l settled b a ∧ x.holds b = true)
      (fun x => x.holds a = true) lits ∧
      Greedy R a (settled ++ [i]) rest

structure Candidate (weighted : Bool) (optimum : Weight) (m : Model) : Prop where
  mem_models : m.assignment ∈ e.models
  cost_eq : weighted = true → m.cost = e.cnf.softCost m.assignment
  cost_le : m.cost ≤ optimum

/-- The right answers to an attempt: a candidate that meets the literals, or nothing if no rival
meets them. -/
def Attempted (weighted : Bool) (optimum : Weight) (lits : List Lit) : Option Model → Prop
  | some m => e.Candidate weighted optimum m ∧ ∀ x ∈ lits, x.holds m.assignment = true
  | none => totalWeight e.cnf.soft.toList < 2 ^ 64 →
      ∀ b ∈ e.rivals weighted optimum, ¬∀ x ∈ lits, x.holds b = true

/-- The literals say that the slots have the qualifiers of the assignment. -/
structure Pins (settled : List SlotId) (pinned : List Lit) (a : Array Bool) : Prop where
  below : ∀ x ∈ pinned, x.var.number ≤ e.vars.numVars
  holds_iff : ∀ {b}, e.OneHot l b → ((∀ x ∈ pinned, x.holds b = true) ↔ e.Agree l settled b a)

def Chooses (slots : List (SlotId × List Lit)) : Prop :=
  ∀ w ∈ slots, w.1 ∈ e.vars.slots ∧ ∀ x ∈ w.2, ∃ q, e.vars.lit? w.1 q = some x

end Definitions

variable {e : Encoding} {l : Lattice} {weighted : Bool} {optimum : Weight}

theorem Candidate.mem_rivals {m : Model} (hm : e.Candidate weighted optimum m) :
    m.assignment ∈ e.rivals weighted optimum := by
  refine ⟨hm.mem_models, ?_⟩
  unfold Cnf.reportedCost
  split
  case isTrue hw => exact hm.cost_eq hw ▸ hm.cost_le
  case isFalse => exact UInt64.zero_le

theorem candidate_of_answers {assumed : List Lit} {m : Model}
    (h : Outcome.Answers weighted e.cnf assumed (.sat m)) (hle : m.cost ≤ optimum) :
    e.Candidate weighted optimum m := by
  obtain ⟨hsize, hallows, hcost⟩ := h
  refine ⟨⟨hsize, hallows.1⟩, fun hw => ?_, hle⟩
  rw [if_pos hw] at hcost
  exact hcost.1

/-- Where the cheapest assignment that meets the literals costs too much, none of the others will
do. -/
theorem attempted_none {lits : List Lit} {m : Model}
    (h : Outcome.Answers weighted e.cnf lits (.sat m)) (hlt : ¬m.cost ≤ optimum) :
    e.Attempted weighted optimum lits none := by
  intro hsum b ⟨hb, hcost⟩ hlits
  obtain ⟨-, -, hanswer⟩ := h
  unfold Cnf.reportedCost at hcost
  split at hanswer
  case isTrue hw =>
    rw [if_pos hw] at hcost
    exact hlt (UInt64.le_trans (hanswer.2 hsum b ⟨hb.2, hlits⟩) hcost)
  case isFalse => exact hlt (hanswer ▸ UInt64.zero_le)

section Agreement

variable {a b c : Array Bool} {is js : List SlotId}

theorem Agree.trans (h : e.Agree l is a b) (h' : e.Agree l is b c) : e.Agree l is a c :=
  fun i hi => (h i hi).trans (h' i hi)

theorem Agree.symm (h : e.Agree l is a b) : e.Agree l is b a := fun i hi => (h i hi).symm

theorem agree_append : e.Agree l (is ++ js) a b ↔ e.Agree l is a b ∧ e.Agree l js a b :=
  List.forall_mem_append

theorem pins_nil : e.Pins l [] [] a := ⟨nofun, by simp [Agree]⟩

theorem Pins.append {xs ys : List Lit} (h : e.Pins l is xs a) (h' : e.Pins l js ys a) :
    e.Pins l (is ++ js) (xs ++ ys) a := by
  refine ⟨List.forall_mem_append.mpr ⟨h.below, h'.below⟩, fun hone => ?_⟩
  rw [List.forall_mem_append, agree_append, h.holds_iff hone, h'.holds_iff hone]

theorem Pins.congr {xs : List Lit} (h : e.Pins l is xs a) (hab : e.Agree l is b a) :
    e.Pins l is xs b := by
  refine ⟨h.below, fun hone => (h.holds_iff hone).trans
    ⟨fun h' => h'.trans hab.symm, fun h' => h'.trans hab⟩⟩

theorem Pins.holds {xs : List Lit} (h : e.Pins l is xs a) (hone : e.OneHot l a) :
    ∀ x ∈ xs, x.holds a = true :=
  (h.holds_iff hone).mpr fun _ _ => rfl

theorem greedy_append {R : Set (Array Bool)} {settled : List SlotId}
    {xs ys : List (SlotId × List Lit)} :
    e.Greedy l R a settled (xs ++ ys) ↔ e.Greedy l R a settled xs ∧
      e.Greedy l R a (settled ++ xs.map (·.1)) ys := by
  induction xs generalizing settled with
  | nil => simp [Greedy]
  | cons w xs ih =>
    rw [List.cons_append, Greedy, ih, Greedy, and_assoc, List.map_cons, List.append_assoc]
    rfl

/-- Slots that have their first choices are settled, whatever the slots before. -/
theorem greedy_of_heads {R : Set (Array Bool)} (ha : a ∈ R) {xs : List (SlotId × List Lit)}
    (h : ∀ x ∈ xs.filterMap (·.2.head?), x.holds a = true) (settled : List SlotId) :
    e.Greedy l R a settled xs := by
  induction xs generalizing settled with
  | nil => trivial
  | cons w xs ih =>
    have hmem : ∀ v ∈ w :: xs, ∀ x ∈ v.2.head?, x.holds a = true := fun v hv x hx =>
      h x (List.mem_filterMap.mpr ⟨v, hv, hx⟩)
    refine ⟨firstOf_of_head? fun x hx => ?_, ih (fun x hx => ?_) _⟩
    · have htrue := hmem w List.mem_cons_self x hx
      exact ⟨⟨a, ha, fun _ _ => rfl, htrue⟩, htrue⟩
    · obtain ⟨v, hv, hx⟩ := List.mem_filterMap.mp hx
      exact hmem v (List.mem_cons_of_mem w hv) x hx

end Agreement

section Literals

variable {s : ConstraintStore} {encoded : Bool} (he : s.Encodes l encoded e) {a b : Array Bool}
  {i : SlotId}
  (hi : i ∈ e.vars.slots)

include he hi in
theorem holds_iff {q : Qualifier} {x : Lit} (hx : e.vars.lit? i q = some x) (hone : e.OneHot l b) :
    x.holds b = true ↔ (e.reading l b).get? i = some q := by
  have h := he.holds_iff_get? hone hi q
  rw [hx, Option.any_some] at h
  rw [h, decide_eq_true_iff]

include he hi in
/-- The pin of a slot says that it has the qualifier of the model. -/
theorem pins_pin? {m : Model} (hone : e.OneHot l m.assignment) :
    e.Pins l [i] (e.pin? l m i).toList m.assignment := by
  obtain ⟨q, hql, hchosen, -⟩ := he.chosen_eq hone m.cost hi
  obtain ⟨place, hplace⟩ := List.mem_iff_getElem?.mp hi
  have hlit := VarMap.lit?_eq_some he.nodup hplace (he.width ▸ Lattice.mem_qualifiers.mp hql)
  have hpin : e.pin? l m i = some (e.vars.variableAt place q).pos := by
    rw [pin?, hchosen]
    exact hlit
  have hget : (e.reading l m.assignment).get? i = some q := by
    rw [← holds_iff he hi hlit hone]
    have hmem : q ∈ e.chosen l m i := by simp [hchosen]
    simpa [chosen, hlit] using (List.mem_filter.mp hmem).2
  refine ⟨fun x hx => ?_, fun hone' => ?_⟩
  · rw [hpin, Option.toList_some, List.mem_singleton] at hx
    exact hx ▸ VarMap.lit?_bounded hlit
  · simp [hpin, Agree, hget, holds_iff he hi hlit hone']

include he in
theorem pins_filterMap {m : Model} (hone : e.OneHot l m.assignment) {is : List SlotId}
    (his : ∀ i ∈ is, i ∈ e.vars.slots) : e.Pins l is (is.filterMap (e.pin? l m)) m.assignment := by
  induction is with
  | nil => exact pins_nil
  | cons i is ih =>
    obtain ⟨hi, his⟩ := List.forall_mem_cons.mp his
    have h := (pins_pin? he hi hone).append (ih his)
    rw [List.filterMap_cons]
    cases hpin : e.pin? l m i <;> rw [hpin] at h <;> exact h

theorem Chooses.below {slots : List (SlotId × List Lit)} (h : e.Chooses slots)
    {w : SlotId × List Lit} (hw : w ∈ slots) : ∀ x ∈ w.2, x.var.number ≤ e.vars.numVars := by
  intro x hx
  obtain ⟨q, hq⟩ := (h w hw).2 x hx
  exact VarMap.lit?_bounded hq

include he in
/-- Assignments that agree on a slot agree on its literals. -/
theorem Chooses.holds_congr {slots : List (SlotId × List Lit)} (h : e.Chooses slots)
    {w : SlotId × List Lit} (hw : w ∈ slots) (ha : e.OneHot l a) (hb : e.OneHot l b)
    (hab : e.Agree l [w.1] a b) {x : Lit} (hx : x ∈ w.2) :
    x.holds a = true ↔ x.holds b = true := by
  obtain ⟨hi, hlits⟩ := h w hw
  obtain ⟨q, hq⟩ := hlits x hx
  rw [holds_iff he hi hq ha, holds_iff he hi hq hb, hab w.1 List.mem_cons_self]

end Literals

section Search

variable {σ : Type} [Backend σ] {I : σ → Prop} (hI : Backend.Reliable weighted I)
  (hbounded : e.cnf.Bounded)
  {current : Model} {pinned : List Lit}

include hI hbounded in
theorem attempt_meets {st : σ} (hst : I st) {lits : List Lit}
    (hlits : ∀ x ∈ lits, x.var.number ≤ e.vars.numVars) :
    Solving.Meets (e.attempt optimum lits) st
      (fun r st' => e.Attempted weighted optimum lits r ∧ I st') fun _ => False := by
  refine (hI.solve_meets hst hbounded hlits).bind fun o st' ⟨hanswers, hst'⟩ => ?_
  cases o with
  | unsat core => exact .pure ⟨fun _ b hb hlits => hanswers b ⟨hb.1.2, hlits⟩, hst'⟩
  | sat m =>
    refine .pure ⟨?_, hst'⟩
    split
    case isTrue hle => exact ⟨candidate_of_answers hanswers hle, hanswers.2.1.2⟩
    case isFalse hlt => exact attempted_none hanswers hlt

variable (hcurrent : e.Candidate weighted optimum current)
  (hpinned : ∀ x ∈ pinned, x.var.number ≤ e.vars.numVars ∧ x.holds current.assignment = true)

include hI hbounded hcurrent hpinned

theorem attemptAll_meets {st : σ} (hst : I st) {lits : List Lit}
    (hlits : ∀ x ∈ lits, x.var.number ≤ e.vars.numVars) :
    Solving.Meets (e.attemptAll current optimum pinned lits) st
      (fun r st' => e.Attempted weighted optimum (pinned ++ lits) r ∧ I st') fun _ => False := by
  unfold attemptAll
  split
  case isTrue hall =>
    exact .pure
      ⟨⟨hcurrent, List.forall_mem_append.mpr
      ⟨fun x hx => (hpinned x hx).2, List.all_eq_true.mp hall⟩⟩, hst⟩
  case isFalse =>
    exact attempt_meets hI hbounded hst
      (List.forall_mem_append.mpr ⟨fun x hx => (hpinned x hx).1, hlits⟩)

/-- Literals tried one after the other: the first one that a rival can meet is met. -/
theorem attemptEach_meets {lits : List Lit} (hlits : ∀ x ∈ lits, x.var.number ≤ e.vars.numVars)
    {st : σ} (hst : I st) :
    Solving.Meets (e.attemptEach current optimum pinned lits) st
      (fun m st' => e.Candidate weighted optimum m ∧ (∀ x ∈ pinned, x.holds m.assignment = true) ∧
        (totalWeight e.cnf.soft.toList < 2 ^ 64 →
          FirstOf (fun x => ∃ b ∈ e.rivals weighted optimum, (∀ y ∈ pinned, y.holds b = true) ∧
            x.holds b = true)
            (fun x => x.holds m.assignment = true) lits) ∧ I st') fun _ => False := by
  induction lits generalizing st with
  | nil => exact .pure ⟨hcurrent, fun x hx => (hpinned x hx).2, fun _ => trivial, hst⟩
  | cons x xs ih =>
    obtain ⟨hx, hxs⟩ := List.forall_mem_cons.mp hlits
    refine (attemptAll_meets hI hbounded hcurrent hpinned hst (by simpa using hx)).bind
      fun r st' ⟨hr, hst'⟩ => ?_
    cases r with
    | none =>
      refine (ih hxs hst').mono (fun m st'' ⟨hm, hpins, hfirst, hst''⟩ => ?_) fun _ => id
      refine ⟨hm, hpins, fun hsum => ⟨fun ⟨b, hb, hbpins, hbx⟩ => ?_, fun _ => hfirst hsum⟩, hst''⟩
      exact absurd (List.forall_mem_append.mpr ⟨hbpins, by simpa using hbx⟩) (hr hsum b hb)
    | some m =>
      obtain ⟨hm, hholds⟩ := hr
      obtain ⟨hpins, hmx⟩ := List.forall_mem_append.mp hholds
      have hmx : x.holds m.assignment = true := hmx x List.mem_cons_self
      refine .pure ⟨hm, hpins, fun _ => firstOf_of_head? fun y hy => ?_, hst'⟩
      cases hy
      exact ⟨⟨m.assignment, hm.mem_rivals, hpins, hmx⟩, hmx⟩

end Search

section Settle

variable {σ : Type} [Backend σ] {I : σ → Prop} (hI : Backend.Reliable weighted I)
  {s : ConstraintStore} {encoded : Bool}
  (he : s.Encodes l encoded e) (hone : ∀ a ∈ e.models, e.OneHot l a)

include he hone in
/-- Slots that had their first choices keep them where they are left alone. -/
theorem greedy_of_agree {a b : Array Bool} (ha : a ∈ e.rivals weighted optimum) (hb : e.OneHot l b)
    {xs : List (SlotId × List Lit)} (hxs : e.Chooses xs) (hagree : e.Agree l (xs.map (·.1)) a b)
    (h : ∀ x ∈ xs.filterMap (·.2.head?), x.holds b = true) (settled : List SlotId) :
    e.Greedy l (e.rivals weighted optimum) a settled xs := by
  refine greedy_of_heads ha (fun x hx => ?_) settled
  obtain ⟨w, hw, hhead⟩ := List.mem_filterMap.mp hx
  have hslot : e.Agree l [w.1] a b :=
    List.forall_mem_singleton.mpr (hagree w.1 (List.mem_map_of_mem hw))
  exact (hxs.holds_congr he hw (hone a ha.1) hb hslot (List.mem_of_head? hhead)).mpr (h x hx)

include he hone in
/-- A slot whose first choice was out of reach, and whose other choices were then tried one after
the other. -/
theorem firstOf_of_agree {a b : Array Bool} (ha : a ∈ e.rivals weighted optimum) (hb : e.OneHot l b)
    {i : SlotId} {lits : List Lit} (hlits : e.Chooses [(i, lits)]) (hagree : e.Agree l [i] a b)
    {settled : List SlotId} {pinned : List Lit} (hpins : e.Pins l settled pinned a)
    (hnone : ∀ c ∈ e.rivals weighted optimum, ¬∀ x ∈ pinned ++ lits.head?.toList, x.holds c = true)
    (hfirst : FirstOf (fun x => ∃ c ∈ e.rivals weighted optimum, (∀ y ∈ pinned, y.holds c = true) ∧
      x.holds c = true) (fun x => x.holds b = true) (lits.drop 1)) :
    FirstOf (fun x => ∃ c ∈ e.rivals weighted optimum, e.Agree l settled c a ∧ x.holds c = true)
      (fun x => x.holds a = true) lits := by
  have hiff : ∀ c ∈ e.rivals weighted optimum, e.Agree l settled c a ↔
      ∀ x ∈ pinned, x.holds c = true :=
    fun c hc => (hpins.holds_iff (hone c hc.1)).symm
  cases lits with
  | nil => trivial
  | cons x xs =>
    refine ⟨fun ⟨c, hc, hcagree, hcx⟩ => ?_,
      fun _ => hfirst.mono (fun y _ => ?_) fun y hy htrue => ?_⟩
    · exact absurd (List.forall_mem_append.mpr ⟨(hiff c hc).mp hcagree, by simpa using hcx⟩)
        (hnone c hc)
    · exact exists_congr fun c => and_congr_right fun hc => and_congr_left' (hiff c hc)
    · exact (hlits.holds_congr he List.mem_cons_self (hone a ha.1) hb hagree
        (List.mem_cons_of_mem x hy)).mpr htrue

include hI he hone in
/-- Settling slots only moves between models that cost at most the optimum. It keeps what was
settled before, and gives each slot the first choice that is left to it. -/
theorem settle_meets (k : Nat) (slots : List (SlotId × List Lit)) (hslots : e.Chooses slots)
    (current : Model) (hcurrent : e.Candidate weighted optimum current) (settled : List SlotId)
    (pinned : List Lit) (hpins : e.Pins l settled pinned current.assignment) {st : σ} (hst : I st) :
    Solving.Meets (e.settle l optimum k slots current pinned) st
      (fun m st' => e.Candidate weighted optimum m ∧
        e.Agree l settled m.assignment current.assignment ∧
        (totalWeight e.cnf.soft.toList < 2 ^ 64 →
          e.Greedy l (e.rivals weighted optimum) m.assignment settled slots) ∧ I st')
            fun _ => False := by
  have hpinned : ∀ x ∈ pinned, x.var.number ≤ e.vars.numVars ∧ x.holds current.assignment = true :=
      fun x hx =>
    ⟨hpins.below x hx, hpins.holds (hone _ hcurrent.mem_models) x hx⟩
  rw [settle.eq_def]
  -- as in the search itself, either slots are settled or the window gets smaller
  match slots with
  | [] => exact .pure ⟨hcurrent, fun _ _ => rfl, fun _ => trivial, hst⟩
  | (i, lits) :: rest =>
    obtain ⟨hi, hrest⟩ := List.forall_mem_cons.mp hslots
    have hwindow : e.Chooses ((i, lits) :: rest.take ((1 <<< k) - 1)) :=
      List.forall_mem_cons.mpr ⟨hi, fun w hw => hrest w (List.mem_of_mem_take hw)⟩
    have hheads : ∀ x ∈ ((i, lits) :: rest.take ((1 <<< k) - 1)).filterMap (·.2.head?),
        x.var.number ≤ e.vars.numVars := by
      intro x hx
      obtain ⟨w, hw, hx⟩ := List.mem_filterMap.mp hx
      exact hwindow.below hw x (List.mem_of_head? hx)
    refine (attemptAll_meets hI he.bounded hcurrent hpinned hst hheads).bind
      fun r st' ⟨hr, hst'⟩ => ?_
    cases r with
    | some m =>
      obtain ⟨hm, hholds⟩ := hr
      obtain ⟨hmpins, hmheads⟩ := List.forall_mem_append.mp hholds
      have hmone := hone _ hm.mem_models
      have hagree := (hpins.holds_iff hmone).mp hmpins
      have hpins' := (hpins.congr hagree).append
        (pins_filterMap he hmone (List.forall_mem_map.mpr fun w hw => (hwindow w hw).1))
      rw [List.filterMap_map] at hpins'
      refine (settle_meets (k + 1) (rest.drop ((1 <<< k) - 1))
        (fun w hw => hrest w (List.mem_of_mem_drop hw)) m hm
        _ _ hpins' hst').mono (fun m' st'' ⟨hm', hagree', hgreedy, hst''⟩ => ?_) fun _ => id
      obtain ⟨hsettled, hids⟩ := agree_append.mp hagree'
      refine ⟨hm', hsettled.trans hagree, fun hsum => ?_, hst''⟩
      have hsplit := greedy_append.mpr
        ⟨greedy_of_agree he hone hm'.mem_rivals hmone hwindow hids hmheads settled, hgreedy hsum⟩
      rwa [List.cons_append, List.take_append_drop] at hsplit
    | none =>
      match k, hr with
      | k + 1, _ =>
        exact settle_meets k ((i, lits) :: rest) hslots current hcurrent settled pinned hpins hst'
      | 0, hr =>
        refine (attemptEach_meets hI he.bounded hcurrent hpinned
          (fun x hx => hslots.below List.mem_cons_self x (List.mem_of_mem_drop hx)) hst').bind
          fun m st'' ⟨hm, hmpins, hfirst, hst''⟩ => ?_
        have hmone := hone _ hm.mem_models
        have hagree := (hpins.holds_iff hmone).mp hmpins
        have hpins' := hpins.congr hagree
        refine (settle_meets 0 rest hrest m hm _ _ (hpins'.append (pins_pin? he hi.1 hmone))
          hst'').mono (fun m' st₃ ⟨hm', hagree', hgreedy, hst₃⟩ => ?_) fun _ => id
        obtain ⟨hsettled, hslot⟩ := agree_append.mp hagree'
        refine ⟨hm', hsettled.trans hagree, fun hsum => ⟨?_, hgreedy hsum⟩, hst₃⟩
        refine firstOf_of_agree he hone hm'.mem_rivals hmone
          (List.forall_mem_singleton.mpr hi) hslot
          (hpins'.congr hsettled) (fun c hc => ?_) (hfirst hsum)
        have hnone := hr hsum c hc
        cases lits <;> exact hnone
termination_by (slots.length, k)

theorem chooses_targetLits (p : TieBreakPolicy) :
    e.Chooses (e.vars.slots.map fun i => (i, e.targetLits l p s i)) := by
  refine List.forall_mem_map.mpr fun i hi => ⟨hi, fun x hx => ?_⟩
  obtain ⟨q, -, hq⟩ := List.mem_filterMap.mp hx
  exact ⟨q, hq⟩

include hI he hone in
theorem tieBreak_meets (p : TieBreakPolicy) {m : Model} (hm : e.Candidate weighted m.cost m)
    {st : σ} (hst : I st) :
    Solving.Meets (e.tieBreak l p s m) st
      (fun m' st' => e.Candidate weighted m.cost m' ∧
        (p ≠ .disabled → (Backend.capabilities st).assumptions = true →
          totalWeight e.cnf.soft.toList < 2 ^ 64 →
          e.Greedy l (e.rivals weighted m.cost) m'.assignment []
            (e.vars.slots.map fun i => (i, e.targetLits l p s i))) ∧
        I st') fun _ => False := by
  have hget : Solving.Meets (get : Solving σ σ) st (fun st₁ st' => st₁ = st ∧ st' = st)
      fun _ => False := ⟨rfl, rfl⟩
  refine hget.bind fun st₁ st' hst' => ?_
  obtain ⟨rfl, rfl⟩ := hst'
  split
  case isTrue hskip =>
    refine .pure ⟨hm, fun hp hcap => ?_, hst⟩
    simp [hp, hcap] at hskip
  case isFalse =>
    refine (settle_meets hI he hone 0 _ (chooses_targetLits p) m hm [] [] pins_nil hst).mono ?_
      fun _ => id
    exact fun m' st' ⟨hm', _, hgreedy, hst'⟩ => ⟨hm', fun _ _ => hgreedy, hst'⟩

end Settle

section Targets

variable {s : ConstraintStore} {encoded : Bool}

/-- The heavier of the deferred preferences of a slot come first, and of equal weights the earlier
ones. -/
theorem pairwise_heavier (ds : List DeferredPreference) : (ds.mergeSort heavier).Pairwise fun a b =>
    b.weight < a.weight ∨ a.weight = b.weight ∧ a.constraint.index ≤ b.constraint.index := by
  have hiff : ∀ a b, heavier a b = true ↔
      b.weight < a.weight ∨ a.weight = b.weight ∧ a.constraint.index ≤ b.constraint.index := by
    simp [heavier]
  refine (List.pairwise_mergeSort (fun a b c hab hbc => ?_) (fun a b => ?_) ds).imp
    fun h => (hiff _ _).mp h
  · rw [hiff] at hab hbc ⊢
    simp only [UInt64.lt_iff_toNat_lt, ← UInt64.toNat_inj] at hab hbc ⊢
    omega
  · rw [Bool.or_eq_true, hiff, hiff]
    simp only [UInt64.lt_iff_toNat_lt, ← UInt64.toNat_inj]
    omega

/-- What greed over the literals says about the qualifiers of a slot. -/
theorem Greedy.firstOf (he : s.Encodes l encoded e) {R : Set (Array Bool)}
    (hR : ∀ b ∈ R, e.OneHot l b) {a : Array Bool} (ha : a ∈ R) {p : TieBreakPolicy}
    (h : e.Greedy l R a [] (e.vars.slots.map fun i => (i, e.targetLits l p s i))) {i : SlotId}
    (hi : i ∈ s.variableSlots) :
    FirstOf
      (fun q => ∃ b ∈ R, (∀ j ∈ s.variableSlots, j.index < i.index →
        (e.reading l b).get? j = (e.reading l a).get? j) ∧ (e.reading l b).get? i = some q)
      (fun q => (e.reading l a).get? i = some q)
        (e.preferred i ++ p.targets l ((s.slot? i).bind Slot.default?)) := by
  have hslots : i ∈ e.vars.slots := he.slots ▸ hi
  obtain ⟨before, after, hsplit⟩ := List.append_of_mem hslots
  -- the slots before are those of smaller number
  have hbefore : ∀ j, j ∈ before ↔ j ∈ s.variableSlots ∧ j.index < i.index := by
    have hpairs := s.pairwise_variableSlots
    rw [← he.slots, hsplit, List.pairwise_append, List.pairwise_cons] at hpairs
    intro j
    rw [← he.slots, hsplit, List.mem_append, List.mem_cons]
    refine ⟨fun hj => ⟨.inl hj, hpairs.2.2 j hj i List.mem_cons_self⟩, ?_⟩
    rintro ⟨hj | rfl | hj, hlt⟩
    · exact hj
    · exact absurd hlt (lt_irrefl _)
    · exact absurd hlt (hpairs.2.1.1 j hj).asymm
  rw [hsplit, List.map_append, greedy_append] at h
  have hfirst := h.2.1
  simp only [List.nil_append, List.map_map, Function.comp_def, List.map_id'] at hfirst
  refine FirstOf.of_eraseDups _ (FirstOf.of_filterMap hfirst (fun q => ?_) fun q x hx htrue => ?_)
  · have hagree : ∀ b, e.Agree l before b a ↔ ∀ j ∈ s.variableSlots, j.index < i.index →
        (e.reading l b).get? j = (e.reading l a).get? j := by
      intro b
      simp only [Agree, hbefore, and_imp]
    constructor
    · rintro ⟨b, hb, hbefore, hq⟩
      have hholds := he.holds_iff_get? (hR b hb) hslots q
      rw [hq, decide_eq_true rfl, Option.any_eq_true] at hholds
      obtain ⟨x, hx, htrue⟩ := hholds
      exact ⟨x, hx, b, hb, (hagree b).mpr hbefore, htrue⟩
    · rintro ⟨x, hx, b, hb, hbefore, htrue⟩
      exact ⟨b, hb, (hagree b).mp hbefore, (holds_iff he hslots hx (hR b hb)).mp htrue⟩
  · exact (holds_iff he hslots hx (hR a ha)).mp htrue

end Targets

theorem targets_of_ne_disabled {p : TieBreakPolicy} (hp : p ≠ .disabled) (l : Lattice)
    (default : Option Qualifier) :
    p.targets l default = (if p = .defaultOrBottom then default.toList else []) ++ [l.bottom] := by
  cases p with
  | defaultOrBottom => rfl
  | bottom => rfl
  | disabled => exact absurd rfl hp

/-- Breaking ties is greed, slot by slot. From the first model of the solver it leads to a model of
the same cost, in which every inferred slot has the first of its targets that is left to it: the
first one that some model of no higher cost gives it, among those that agree on all slots before.
The targets are the deferred preferences of the slot, ranked by weight and then by age, its default
if the policy goes by defaults, and the bottom. -/
theorem tieBreak_greedy {under : Lattice → Prop} {s : ConstraintStore} {l : Lattice}
    (hbuilt : s.Built under) (hwithin : s.Within l) {encoded : Bool} {e : Encoding}
    (hencode : s.encode l encoded = .ok e) (hsum : totalWeight e.cnf.soft.toList < 2 ^ 64)
    {p : TieBreakPolicy} (hp : p ≠ .disabled) {solver solver' : DiagramSolver}
    (hsolver : solver.Reachable) (hnodes : solver.config.nodeLimit = none)
    (htime : solver.config.timeBudget = none) {m₀ : Model}
    (hsolve : DiagramSolver.solve e.cnf [] solver = (.ok (.sat m₀), solver')) :
    ∃ m solver'', e.tieBreak l p s m₀ solver' = (.ok m, solver'') ∧
      e.cnf.evaluate m.assignment = true ∧ m.cost = m₀.cost ∧
      ∀ i ∈ s.variableSlots, ∃ ranking : List DeferredPreference,
        ranking.Perm (e.deferred.filter (·.slot == i)) ∧
        (ranking.Pairwise fun a b =>
          b.weight < a.weight ∨ a.weight = b.weight ∧ a.constraint.index ≤ b.constraint.index) ∧
        FirstOf
          (fun q => ∃ b ∈ e.models, e.cnf.reportedCost solver.config.weighted b ≤ m₀.cost ∧
            (∀ j ∈ s.variableSlots, j.index < i.index →
              (e.reading l b).get? j = (e.reading l m.assignment).get? j) ∧
            (e.reading l b).get? i = some q)
          (fun q => (e.reading l m.assignment).get? i = some q)
          (ranking.map (·.qualifier) ++
            ((if p = .defaultOrBottom then ((s.slot? i).bind Slot.default?).toList else []) ++
              [l.bottom])) := by
  have hclosed := hbuilt.closed_and_sourced.1
  obtain ⟨e', hencode', he⟩ := ConstraintStore.encode_spec (l := l) hclosed encoded
  obtain rfl : e = e' := Except.ok.inj (hencode.symm.trans hencode')
  have hone : ∀ a ∈ e.models, e.OneHot l a :=
    fun a ha => ((he.evaluate_iff hclosed hwithin).mp ha.2).1
  have hI := DiagramSolver.reliable solver.config.weighted
  have hfirst :=
    hI.solve_meets (hsolver.unlimited hnodes htime) he.bounded (List.forall_mem_nil _)
  rw [Solving.Meets, show Backend.solve e.cnf [] solver = _ from hsolve] at hfirst
  obtain ⟨hanswers, hst'⟩ := hfirst
  obtain ⟨m, solver'', htie, hm, hgreedy, -⟩ :=
    (tieBreak_meets hI he hone p (candidate_of_answers hanswers UInt64.le_rfl) hst').exists_eq
  refine ⟨m, solver'', htie, hm.mem_models.2, UInt64.le_antisymm hm.cost_le ?_, fun i hi => ?_⟩
  · -- the first model has the least cost of all
    obtain ⟨-, -, hleast⟩ := hanswers
    split at hleast
    case isTrue hw =>
      have hmodel := hleast.2 hsum m.assignment ⟨hm.mem_models.2, List.forall_mem_nil _⟩
      exact hm.cost_eq hw ▸ hmodel
    case isFalse => exact hleast ▸ UInt64.zero_le
  · refine ⟨_, List.mergeSort_perm _ heavier, pairwise_heavier _, ?_⟩
    have htargets := (hgreedy hp rfl hsum).firstOf he (fun b hb => hone b hb.1) hm.mem_rivals hi
    rw [targets_of_ne_disabled hp] at htargets
    exact htargets.mono (fun q _ => exists_congr fun b => and_assoc.symm) fun q _ => id

/-- A slot with a wish, and two of the same default that must not be equal. -/
def tiedUnit : UnitConstraints where
  unit := "unit"
  slots := ⟨#[⟨⟨"unit", "wish", .field⟩, .inferred none⟩,
    ⟨⟨"unit", "left", .parameter⟩, .inferred (some ⟨1⟩)⟩,
    ⟨⟨"unit", "right", .parameter⟩, .inferred (some ⟨1⟩)⟩]⟩
  constraints := [(.preference ⟨0⟩ ⟨1⟩ 2, ⟨"unit", "wish", .preference⟩),
    (.inequality ⟨1⟩ ⟨2⟩, ⟨"unit", "use", .comparison⟩)]

def tiedStore : ConstraintStore where
  slots := tiedUnit.slots
  entries := #[⟨.preference ⟨0⟩ ⟨1⟩ 2, [⟨"unit", "wish", .preference⟩], .active⟩,
    ⟨.inequality ⟨1⟩ ⟨2⟩, [⟨"unit", "use", .comparison⟩], .active⟩]

open ConstraintStore in
/-- Each slot is settled by a target of another kind: the first one by its deferred preference, the
second one by its default. The third one has the same default, which is no longer possible, so that
it is at the bottom. -/
theorem tieBreak_greedy_tied :
    ∃ e m₀ m solver' solver'', tiedStore.encode twoLevels false = .ok e ∧
      DiagramSolver.solve e.cnf [] (.new { nodeLimit := none }) = (.ok (.sat m₀), solver') ∧
      e.tieBreak twoLevels .defaultOrBottom tiedStore m₀ solver' = (.ok m, solver'') ∧
      m.cost = m₀.cost ∧ (e.reading twoLevels m.assignment).get? ⟨0⟩ = some ⟨1⟩ ∧
      (e.reading twoLevels m.assignment).get? ⟨1⟩ = some ⟨1⟩ ∧
      (e.reading twoLevels m.assignment).get? ⟨2⟩ = some twoLevels.bottom := by
  have habsorb : ({} : ConstraintStore).absorb tiedUnit = .ok ([⟨0⟩, ⟨1⟩, ⟨2⟩], tiedStore) := by cbv
  have hbuilt : tiedStore.Built fun _ => True := .absorb .empty habsorb
  have hwithin : tiedStore.Within twoLevels := by decide
  have hclosed := hbuilt.closed_and_sourced.1
  obtain ⟨e, hencode, he⟩ := encode_spec (l := twoLevels) hclosed false
  have hparts : (tiedStore.encode twoLevels false).map (fun e => (e.deferred, e.soft)) =
      .ok ([⟨⟨0⟩, ⟨0⟩, ⟨1⟩, 2⟩], []) := by cbv
  rw [hencode] at hparts
  obtain ⟨hdeferred, hsoft⟩ := Prod.mk.inj (Except.ok.inj hparts)
  have hsolution : (⟨[(⟨0⟩, ⟨1⟩), (⟨1⟩, ⟨1⟩), (⟨2⟩, ⟨0⟩)]⟩ : Solution) ∈
      tiedStore.solutions twoLevels := ⟨⟨by decide, by decide⟩, by decide⟩
  have hbij := he.bijOn_reading hclosed hwithin
  obtain ⟨b, hb, hreading⟩ := hbij.surjOn hsolution
  have hcheap (m₀ : Model) : e.cnf.reportedCost true b ≤ m₀.cost := by
    simp [Cnf.reportedCost, Cnf.softCost, cnf, hsoft, Weight.total]
  have hunlimited : DiagramSolver.Unlimited true (.new { nodeLimit := none }) :=
    (DiagramSolver.Reachable.new { nodeLimit := none }).unlimited rfl rfl
  obtain ⟨o, solver', hsolve, hanswers, -⟩ :=
    ((DiagramSolver.reliable true).solve_meets hunlimited he.bounded
      (List.forall_mem_nil _)).exists_eq
  cases o with
  | unsat core => exact absurd ⟨hb.2, List.forall_mem_nil _⟩ (hanswers b)
  | sat m₀ =>
    obtain ⟨m, solver'', htie, -, hcost, hgreedy⟩ := tieBreak_greedy hbuilt hwithin hencode
      (by simp [cnf, hsoft, totalWeight]) (p := .defaultOrBottom) (by decide)
      (.new { nodeLimit := none }) rfl rfl hsolve
    obtain ⟨ranking₀, hperm₀, -, hfirst₀⟩ := hgreedy ⟨0⟩ (by decide)
    obtain ⟨ranking₁, hperm₁, -, hfirst₁⟩ := hgreedy ⟨1⟩ (by decide)
    obtain ⟨ranking₂, hperm₂, -, hfirst₂⟩ := hgreedy ⟨2⟩ (by decide)
    rw [hdeferred] at hperm₀ hperm₁ hperm₂
    obtain rfl := List.perm_singleton.mp hperm₀
    obtain rfl := List.perm_nil.mp hperm₁
    obtain rfl := List.perm_nil.mp hperm₂
    have hslot₀ := hfirst₀.1 ⟨b, hb, hcheap m₀,
      fun _ _ hj => absurd hj (Nat.not_lt_zero _), by rw [hreading]; rfl⟩
    have hagree₁ : ∀ j ∈ tiedStore.variableSlots, j.index < 1 →
        (e.reading twoLevels b).get? j = (e.reading twoLevels m.assignment).get? j := by
      rintro ⟨_ | j⟩ - hj
      · rw [hslot₀, hreading]
        rfl
      · simp at hj
    have hslot₁ := hfirst₁.1 ⟨b, hb, hcheap m₀, hagree₁, by rw [hreading]; rfl⟩
    have hagree₂ : ∀ j ∈ tiedStore.variableSlots, j.index < 2 →
        (e.reading twoLevels b).get? j = (e.reading twoLevels m.assignment).get? j := by
      rintro ⟨_ | _ | j⟩ hmem hj
      · exact hagree₁ _ hmem Nat.one_pos
      · rw [hslot₁, hreading]
        rfl
      · simp at hj
    refine ⟨e, m₀, m, solver', solver'', hencode, hsolve, htie, hcost, hslot₀, hslot₁, ?_⟩
    refine (hfirst₂.2 ?_).1 ⟨b, hb, hcheap m₀, hagree₂, by rw [hreading]; rfl⟩
    -- The default of the third slot is the qualifier of the second one, from which it must differ.
    rintro ⟨b', hb', -, hagree, hdefault⟩
    have hleft := (hagree ⟨1⟩ (by decide) (by decide)).trans hslot₁
    have hdiffer := (hbij.mapsTo hb').2 (⟨1⟩, .inequality ⟨1⟩ ⟨2⟩) (by decide)
    simp [Constraint.holds, Solution.value, hleft, hdefault] at hdiffer

end Encoding

end Qualify
