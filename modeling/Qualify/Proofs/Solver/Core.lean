import Qualify.Proofs.Solver.Compilation

namespace Qualify

section Thinning

variable {α : Type} [DecidableEq α]

/-- The list has the property, and no longer so without any one of its members. -/
structure AllNeeded (P : List α → Prop) (xs : List α) : Prop where
  holds : P xs
  needed : ∀ x ∈ xs, ¬P (xs.filter (· ≠ x))

variable {σ : Type} {test : List α → Solving σ Bool} {P : List α → Prop} {I E : σ → Prop}

/-- Leaves out the members one after the other, where the test is still passed without them. -/
def Solving.thin (test : List α → Solving σ Bool) (kept : List α) : List α → Solving σ (List α)
  | [] => return kept
  | x :: rest => do
    if ← test (kept ++ rest) then thin test kept rest else thin test (kept ++ [x]) rest

/-- Once a member is needed, it stays needed: lists only get shorter. -/
theorem Solving.thin_meets (hmono : ∀ {xs ys : List α}, (∀ x ∈ xs, x ∈ ys) → P xs → P ys)
    (htest : ∀ xs {st}, I st → Meets (test xs) st (fun b st' => (b = true ↔ P xs) ∧ I st') E)
    (rest : List α) :
    ∀ (kept : List α), P (kept ++ rest) → (∀ x ∈ kept, ¬P ((kept ++ rest).filter (· ≠ x))) →
      ∀ {st}, I st →
      Meets (thin test kept rest) st (fun xs st' => (xs.Sublist (kept ++ rest) ∧ AllNeeded P xs) ∧
        I st') E := by
  induction rest with
  | nil =>
    intro kept hP hkept st hst
    rw [List.append_nil] at hP hkept ⊢
    exact .pure ⟨⟨.refl _, hP, hkept⟩, hst⟩
  | cons x rest ih =>
    intro kept hP hkept st hst
    have hsub : (kept ++ rest).Sublist (kept ++ x :: rest) :=
      (List.sublist_cons_self x rest).append_left kept
    refine (htest (kept ++ rest) hst).bind fun b st' ⟨hb, hst'⟩ => ?_
    cases b with
    | true =>
      refine (ih kept (hb.mp rfl) (fun y hy hbad => hkept y hy (hmono (fun z hz => ?_) hbad))
        hst').mono (fun xs st'' ⟨h, hst''⟩ => ⟨⟨h.1.trans hsub, h.2⟩, hst''⟩) fun _ => id
      exact (hsub.filter _).subset hz
    | false =>
      have happend : kept ++ [x] ++ rest = kept ++ x :: rest := by simp
      have hx : ¬P (kept ++ rest) := fun h => absurd (hb.mpr h) Bool.false_ne_true
      have hneeded : ∀ y ∈ kept ++ [x], ¬P ((kept ++ x :: rest).filter (· ≠ y)) := by
        intro y hy
        rcases List.mem_append.mp hy with hy | hy
        · exact hkept y hy
        · obtain rfl := List.mem_singleton.mp hy
          refine fun hbad => hx (hmono (fun z hz => ?_) hbad)
          simp only [List.mem_filter, List.mem_append, List.mem_cons, decide_eq_true_eq] at hz ⊢
          tauto
      have hrec := ih (kept ++ [x])
      rw [happend] at hrec
      exact hrec hP hneeded hst'

end Thinning

def Clause.Consistent (cs : List Clause) : Prop := ∃ a, ∀ c ∈ cs, Clause.eval a c = true

theorem Clause.Consistent.mono {cs cs' : List Clause} (h : Consistent cs')
    (hsub : ∀ c ∈ cs, c ∈ cs') : Consistent cs :=
  h.imp fun _ ha c hc => ha c (hsub c hc)

namespace Cnf

def clausesAt (f : Cnf) (ks : List Nat) : List Clause := ks.filterMap (f.hard[·]?)

/-- Indices of hard clauses that cannot be true together, and of which each one is needed for
that. -/
structure IsCore (f : Cnf) (ks : List Nat) : Prop where
  increasing : ks.Pairwise (· < ·)
  bounded : ∀ k ∈ ks, k < f.hard.size
  conflict : AllNeeded (fun ks => ¬Clause.Consistent (f.clausesAt ks)) ks

/-- The core of the first conflict. Its last clause is the first one in conflict with those before
it, and its first clause the last one from which on there is a conflict up to there. -/
structure IsFirstCore (f : Cnf) (ks : List Nat) : Prop extends f.IsCore ks where
  spans : ∃ first last, IsLeast {k | k ∈ ks} first ∧ IsGreatest {k | k ∈ ks} last ∧
    IsLeast {k | ¬Clause.Consistent (f.clausesAt (List.range' 0 (k + 1)))} last ∧
    IsGreatest {k | ¬Clause.Consistent (f.clausesAt (List.range' k (last + 1 - k)))} first

theorem clausesAt_range' (f : Cnf) (i j : Nat) :
    f.clausesAt (List.range' i (j - i)) = (f.hard.toList.take j).drop i := by
  rw [List.drop_take, ← List.filterMap_getElem?_range', clausesAt]
  simp only [Array.getElem?_toList]

theorem consistent_clausesAt {f : Cnf} {i j : Nat}
    (h : Clause.Consistent ((f.hard.toList.take j).drop i)) {ks : List Nat}
    (hks : ∀ k ∈ ks, i ≤ k ∧ k < j) : Clause.Consistent (f.clausesAt ks) := by
  rw [← clausesAt_range'] at h
  refine h.mono (List.filterMap_subset _ fun k hk => List.mem_range'_1.mpr ?_)
  have := hks k hk
  omega

/-- A core between the clauses that the searches found has the first and the last of them. -/
theorem IsCore.isFirstCore {f : Cnf} {ks : List Nat} (h : f.IsCore ks) {start stop : Nat}
    (hstop : IsLeast {n | ¬Clause.Consistent (f.hard.toList.take n)} stop)
    (hstart : IsGreatest {n | ¬Clause.Consistent ((f.hard.toList.take stop).drop n)} start)
    (hks : ∀ k ∈ ks, start ≤ k ∧ k < stop) : f.IsFirstCore ks := by
  obtain ⟨last, rfl⟩ : ∃ last, stop = last + 1 :=
    Nat.exists_eq_succ_of_ne_zero fun h0 => hstop.1 ⟨fun _ => false, by simp [h0]⟩
  refine ⟨h, start, last, ⟨?_, fun k hk => (hks k hk).1⟩,
    ⟨?_, fun k hk => Nat.le_of_lt_succ (hks k hk).2⟩, ?_, ?_⟩
  · by_contra hmem
    have hafter : Clause.Consistent ((f.hard.toList.take (last + 1)).drop (start + 1)) :=
      not_not.mp fun hbad => absurd (hstart.2 hbad) (Nat.not_succ_le_self start)
    refine h.conflict.holds (consistent_clausesAt hafter fun k hk => ⟨?_, (hks k hk).2⟩)
    exact lt_of_le_of_ne (hks k hk).1 fun heq => hmem (heq ▸ hk)
  · by_contra hmem
    have hbefore : Clause.Consistent ((f.hard.toList.take last).drop 0) :=
      not_not.mp fun hbad => absurd (hstop.2 hbad) (Nat.not_succ_le_self last)
    refine h.conflict.holds (consistent_clausesAt hbefore fun k hk => ⟨Nat.zero_le k, ?_⟩)
    exact lt_of_le_of_ne (Nat.le_of_lt_succ (hks k hk).2) fun heq => hmem (heq ▸ hk)
  · have hclauses : ∀ k, f.clausesAt (List.range' 0 (k + 1)) = f.hard.toList.take (k + 1) :=
      fun k => f.clausesAt_range' 0 (k + 1)
    simp only [hclauses]
    exact ⟨hstop.1, fun k hk => Nat.le_of_succ_le_succ (hstop.2 hk)⟩
  · simpa only [clausesAt_range'] using hstart

end Cnf

namespace DiagramSolver

variable {c : Config}

theorem Grown.trans {d d₁ d₂ : Diagram} (h : Grown d d₁) (h' : Grown d₁ d₂) : Grown d d₂ :=
  ⟨h'.1, h.2.trans h'.2⟩

def Keeps {α : Type} (c : Config) (x : Work α) (d : Diagram) (Q : α → Prop) : Prop :=
  Gives c x d (fun a d' => Grown d d' ∧ Q a) (Grown d)

theorem Keeps.pure {α : Type} {d : Diagram} (hd : d.Sound) {a : α} {Q : α → Prop} (ha : Q a) :
    Keeps c (Pure.pure a) d Q :=
  Gives.pure ⟨⟨hd, .refl d⟩, ha⟩

theorem Keeps.bind {α β : Type} {x : Work α} {f : α → Work β} {d : Diagram} {Q : α → Prop}
    {R : β → Prop} (hx : Keeps c x d Q) (hf : ∀ a d₁, Grown d d₁ → Q a → Keeps c (f a) d₁ R) :
    Keeps c (x >>= f) d R :=
  Gives.bind hx fun a d₁ ⟨hg, ha⟩ => (hf a d₁ hg ha).mono (fun _ _ h => ⟨hg.trans h.1, h.2⟩)
    fun _ => hg.trans

theorem Keeps.updateDiagram {α β : Type} {run : Diagram → α × Diagram} {f : α → Work β}
    {d : Diagram} {R : β → Prop} (hg : Grown d (run d).2) (h : Keeps c (f (run d).1) (run d).2 R) :
    Keeps c (DiagramSolver.updateDiagram run >>= f) d R :=
  Gives.updateDiagram (h.mono (fun _ _ h => ⟨hg.trans h.1, h.2⟩) fun _ => hg.trans)

structure Represents (d : Diagram) (es : List Edge) (cs : List Clause) : Prop where
  sound : d.Sound
  edges : List.Forall₂ (fun e c => d.Has e ∧ ∀ a, d.eval a e = Clause.eval a c) es cs

namespace Represents

variable {d d' : Diagram} {es : List Edge} {cs : List Clause}

theorem grow (h : Represents d es cs) (hg : Grown d d') : Represents d' es cs := by
  refine ⟨hg.1, h.edges.imp fun e c he => ⟨hg.2.has he.1, fun a => ?_⟩⟩
  rw [hg.2.eval_eq he.1 h.sound.toReduced, he.2 a]

theorem take (h : Represents d es cs) (n : Nat) : Represents d (es.take n) (cs.take n) :=
  ⟨h.sound, List.forall₂_take n h.edges⟩

theorem drop (h : Represents d es cs) (n : Nat) : Represents d (es.drop n) (cs.drop n) :=
  ⟨h.sound, List.forall₂_drop n h.edges⟩

/-- At indices without a clause nothing is asked. -/
theorem pick (h : Represents d es cs) (ks : List Nat) :
    (∀ e ∈ ks.map (es.toArray.getD · .one), d.Has e) ∧
      ∀ a, (ks.map (es.toArray.getD · .one)).all (d.eval a) =
        (ks.filterMap (cs[·]?)).all (Clause.eval a) := by
  induction ks with
  | nil => simp
  | cons k ks ih =>
    have hk : d.Has (es.toArray.getD k .one) ∧
        ∀ a, d.eval a (es.toArray.getD k .one) = (cs[k]?).toList.all (Clause.eval a) := by
      obtain ⟨hlength, hget⟩ := List.forall₂_iff_get.mp h.edges
      by_cases hk : k < es.length
      · have hk' : k < cs.length := hlength ▸ hk
        simpa [hk, hk'] using hget k hk hk'
      · have hk' : ¬k < cs.length := hlength ▸ hk
        simp [hk, hk', h.sound.has_one]
    refine ⟨List.forall_mem_cons.mpr ⟨hk.1, ih.1⟩, fun a => ?_⟩
    rw [List.map_cons, List.all_cons, hk.2 a, ih.2 a, List.filterMap_cons]
    cases cs[k]? <;> simp

end Represents

theorem isUnsat_keeps {d : Diagram} (hd : d.Sound) {es : List Edge} (hes : ∀ e ∈ es, d.Has e)
    {cs : List Clause} (heval : ∀ a, es.all (d.eval a) = cs.all (Clause.eval a)) :
    Keeps c (isUnsat c es) d fun b => b = true ↔ ¬Clause.Consistent cs := by
  obtain ⟨r, hr, hy⟩ := Diagram.andMany?_yields hd hes
  refine Gives.withDiagram hr
    (Gives.checkLimits ⟨hy.sound, hy.grows⟩ (.pure ⟨⟨hy.sound, hy.grows⟩, ?_⟩))
  show decide (r.1 = .zero) = true ↔ _
  rw [decide_eq_true_iff, hy.sound.eq_zero_iff hy.has, Clause.Consistent, not_exists]
  refine forall_congr' fun a => ?_
  rw [hy.eval a, heval a, ← Bool.not_eq_true, List.all_eq_true]

theorem Represents.isUnsat_keeps {d : Diagram} {es : List Edge} {cs : List Clause}
    (h : Represents d es cs) :
    Keeps c (isUnsat c es) d fun b => b = true ↔ ¬Clause.Consistent cs :=
  DiagramSolver.isUnsat_keeps h.sound (forall₂_all_eval h.edges).1 (forall₂_all_eval h.edges).2

section Core

variable {clauses : Array Edge} {cs : List Clause}

/-- The search ends at the first clause that is in conflict with those before it. -/
theorem coreEnd_keeps (fuel : Nat) : ∀ (lo hi : Nat) {d : Diagram}, Represents d clauses.toList cs →
    lo < hi → hi ≤ lo + (fuel + 1) → Clause.Consistent (cs.take lo) →
      ¬Clause.Consistent (cs.take hi) →
    Keeps c (coreEnd c clauses fuel lo hi) d (IsLeast {n | ¬Clause.Consistent (cs.take n)}) := by
  have hadjacent : ∀ {lo hi : Nat}, hi ≤ lo + 1 → Clause.Consistent (cs.take lo) →
      ¬Clause.Consistent (cs.take hi) →
      IsLeast {n | ¬Clause.Consistent (cs.take n)} hi := by
    refine fun hle hlo hhi => ⟨hhi, fun n hn => hle.trans (Nat.lt_of_not_le fun hnlo => hn ?_)⟩
    exact hlo.mono (List.take_subset_take_left cs hnlo)
  induction fuel with
  | zero => exact fun lo hi d hd _ hle hlo hhi => .pure hd.sound (hadjacent hle hlo hhi)
  | succ fuel ih =>
    intro lo hi d hd hlt hle hlo hhi
    rw [coreEnd]
    split_ifs with hgap
    · refine (hd.take _).isUnsat_keeps.bind fun b d₁ hg hb => ?_
      cases b with
      | false => exact ih _ hi (hd.grow hg) (by omega) (by omega) (by simpa using hb) hhi
      | true => exact ih lo _ (hd.grow hg) (by omega) (by omega) hlo (hb.mp rfl)
    · exact .pure hd.sound (hadjacent (by omega) hlo hhi)

/-- The search ends at the last clause from which on there is a conflict. -/
theorem coreStart_keeps (stop fuel : Nat) :
    ∀ (lo hi : Nat) {d : Diagram}, Represents d clauses.toList cs →
    lo ≤ hi → hi ≤ lo + fuel → ¬Clause.Consistent ((cs.take stop).drop lo) →
    Clause.Consistent ((cs.take stop).drop (hi + 1)) →
    Keeps c (coreStart c clauses stop fuel lo hi) d
      (IsGreatest {n | ¬Clause.Consistent ((cs.take stop).drop n)}) := by
  have hadjacent : ∀ {lo hi : Nat}, hi ≤ lo → ¬Clause.Consistent ((cs.take stop).drop lo) →
      Clause.Consistent ((cs.take stop).drop (hi + 1)) →
      IsGreatest {n | ¬Clause.Consistent ((cs.take stop).drop n)} lo := by
    refine fun hle hlo hhi => ⟨hlo, fun n hn => le_trans (Nat.le_of_not_lt fun hhin => hn ?_) hle⟩
    exact hhi.mono (List.drop_subset_drop_left _ hhin)
  induction fuel with
  | zero => exact fun lo hi d hd _ hle hlo hhi => .pure hd.sound (hadjacent hle hlo hhi)
  | succ fuel ih =>
    intro lo hi d hd hlt hle hlo hhi
    rw [coreStart]
    split_ifs with hgap
    · refine ((hd.take stop).drop _).isUnsat_keeps.bind fun b d₁ hg hb => ?_
      cases b with
      | false =>
        -- the middle is above `lo`, so there is an index before it
        have hmid : lo + (hi - lo + 1) / 2 - 1 + 1 = lo + (hi - lo + 1) / 2 := by omega
        exact ih lo _ (hd.grow hg) (by omega) (by omega) hlo (by simpa [hmid] using hb)
      | true => exact ih _ hi (hd.grow hg) (by omega) (by omega) (hb.mp rfl) hhi
    · exact .pure hd.sound (hadjacent (by omega) hlo hhi)

theorem shrinkCore_eq (rest kept : List Nat) : shrinkCore c clauses kept rest =
    Solving.thin (fun ks => isUnsat c (ks.map (clauses.getD · .one))) kept rest := by
  induction rest generalizing kept with
  | nil => rfl
  | cons k rest ih => simp only [shrinkCore, Solving.thin, ih]

theorem shrinkCore_keeps {d : Diagram} (hd : Represents d clauses.toList cs) {ks : List Nat}
    (hks : ¬Clause.Consistent (ks.filterMap (cs[·]?))) :
    Keeps c (shrinkCore c clauses [] ks) d fun r =>
      r.Sublist ks ∧ AllNeeded (fun ks => ¬Clause.Consistent (ks.filterMap (cs[·]?))) r := by
  intro n
  rw [shrinkCore_eq]
  have hmono : ∀ {ks ks' : List Nat}, (∀ k ∈ ks, k ∈ ks') →
      ¬Clause.Consistent (ks.filterMap (cs[·]?)) →
      ¬Clause.Consistent (ks'.filterMap (cs[·]?)) := by
    exact fun hsub h h' => h (h'.mono (List.filterMap_subset _ hsub))
  have hself : Grown d d := ⟨hd.sound, .refl d⟩
  refine (Solving.thin_meets (I := fun w => Grown d w.diagram) hmono (fun ks w hw => ?_) ks
    [] hks nofun hself).mono (fun r w h => ⟨h.2, h.1⟩) fun _ => id
  obtain ⟨hhas, heval⟩ := (hd.grow hw).pick ks
  exact (isUnsat_keeps hw.1 hhas heval w.checks).mono (fun b w' h => ⟨h.2, hw.trans h.1⟩)
    fun w' h => ⟨h.1, hw.trans h.2⟩

/-- The core of inconsistent clauses. -/
theorem core_keeps (cnf : Cnf) (hcnf : ¬Clause.Consistent cnf.hard.toList) {d : Diagram}
    (hd : d.Sound) :
    Keeps c (core c cnf) d cnf.IsFirstCore := by
  obtain ⟨hs, hx, hclauses⟩ := Diagram.mkClauses_spec hd cnf.hard.toList
  have hrep : Represents (d.mkClauses cnf.hard.toList).2
      (d.mkClauses cnf.hard.toList).1.toArray.toList cnf.hard.toList := ⟨hs, hclauses⟩
  have hsize : (d.mkClauses cnf.hard.toList).1.toArray.size = cnf.hard.size := by
    simpa using hclauses.length_eq
  refine Keeps.updateDiagram ⟨hs, hx⟩ ?_
  dsimp only
  rw [hsize]
  have hnil : Clause.Consistent [] := ⟨fun _ => false, List.forall_mem_nil _⟩
  have hall : ¬Clause.Consistent (cnf.hard.toList.take cnf.hard.size) := by
    rwa [← Array.length_toList, List.take_length]
  have hpos : 0 < cnf.hard.size := Nat.pos_of_ne_zero fun h0 => hall (by simpa [h0] using hnil)
  refine (coreEnd_keeps _ _ _ hrep hpos (by omega) hnil hall).bind fun stop d₁ h₁ hstop => ?_
  have hle : stop ≤ cnf.hard.size := hstop.2 hall
  have hend : Clause.Consistent ((cnf.hard.toList.take stop).drop (stop - 1 + 1)) := by
    rw [List.drop_eq_nil_of_le (by simp; omega)]
    exact hnil
  refine (coreStart_keeps stop _ 0 _ (hrep.grow h₁) (Nat.zero_le _) (by omega) hstop.1 hend).bind
    fun start d₂ h₂ hstart => ?_
  have hrange : ¬Clause.Consistent ((cnf.hard.toList.take stop).drop start) := hstart.1
  rw [List.drop_take, ← List.filterMap_getElem?_range'] at hrange
  refine (shrinkCore_keeps ((hrep.grow h₁).grow h₂) hrange).mono (fun r d' h => ⟨h.1, ?_⟩)
    fun _ => id
  obtain ⟨hsub, hneeded⟩ := h.2
  have hks : ∀ k ∈ r, start ≤ k ∧ k < stop := by
    intro k hk
    have hmem := List.mem_range'_1.mp (hsub.subset hk)
    omega
  refine Cnf.IsCore.isFirstCore ⟨(List.pairwise_lt_range' ..).sublist hsub, fun k hk => ?_, ?_⟩
    hstop hstart hks
  · exact (hks k hk).2.trans_le hle
  · simpa only [Cnf.clausesAt, Array.getElem?_toList] using hneeded

end Core

theorem Compiled.Faithful.hard_eq_zero_iff {weighted : Bool} {k : Compiled} {d : Diagram}
    (hk : k.Faithful weighted d) : k.hard = .zero ↔ ¬Clause.Consistent k.cnf.hard.toList := by
  rw [hk.sound.eq_zero_iff hk.has_hard, Clause.Consistent, not_exists]
  refine forall_congr' fun a => ?_
  rw [hk.hard_eval a, Cnf.eval, ← Bool.not_eq_true, List.all_eq_true]

end DiagramSolver

end Qualify
