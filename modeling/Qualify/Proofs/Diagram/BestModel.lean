import Qualify.Proofs.Diagram.Optimum
import Qualify.Proofs.Diagram.Session

namespace Qualify.Diagram

section Order

/-- From `lo` to just before `hi` both have the same values, or the first one is false where they
differ first. -/
def Precedes (a b : Nat → Bool) (lo hi : Nat) : Prop :=
  (∀ v, lo ≤ v → v < hi → a v = b v) ∨
    ∃ v, lo ≤ v ∧ v < hi ∧ (∀ u, lo ≤ u → u < v → a u = b u) ∧ a v = false ∧ b v = true

variable {a b : Nat → Bool} {lo mid hi : Nat}

theorem Precedes.append (h : Precedes a b lo mid) (h' : Precedes a b mid hi) (hlo : lo ≤ mid)
    (hhi : mid ≤ hi) :
    Precedes a b lo hi := by
  rcases h with h | ⟨v, hv, hvm, hbefore, hav, hbv⟩
  · rcases h' with h' | ⟨v, hv, hvh, hbefore, hav, hbv⟩
    · left
      intro v hv hvh
      by_cases hvm : v < mid
      · exact h v hv hvm
      · exact h' v (by omega) hvh
    · right
      refine ⟨v, by omega, hvh, fun u hu huv => ?_, hav, hbv⟩
      by_cases hum : u < mid
      · exact h u hu hum
      · exact hbefore u (by omega) huv
  · exact .inr ⟨v, hv, by omega, hbefore, hav, hbv⟩

/-- Better values, false on a tie, precede all others that earn as much. -/
theorem precedes_of_choice {g : Gains} (hfits : g.Fits) (h1 : 1 ≤ lo) (hhi : hi ≤ g.size + 1)
    (ha : ∀ v, lo ≤ v → v < hi → a v = g.choice v)
    (hearned : g.earned b lo hi = ∑ v ∈ Finset.Ico lo hi, g.credit v) : Precedes a b lo hi := by
  have hcredit : ∀ v ∈ Finset.Ico lo hi, g.credit v = g.top v := by
    intro v hv
    rw [Finset.mem_Ico] at hv
    exact hfits.credit_eq_top (by omega) (by omega)
  have hb : ∀ v ∈ Finset.Ico lo hi, g.worth v (b v) = g.top v := by
    rw [Finset.sum_congr rfl hcredit] at hearned
    exact (Finset.sum_eq_sum_iff_of_le fun v _ => Gains.worth_le_top v (b v)).mp hearned
  by_cases heq : ∀ v, lo ≤ v → v < hi → a v = b v
  · exact .inl heq
  · push Not at heq
    -- the first difference
    obtain ⟨⟨hv, hvh, hne⟩, hfirst⟩ := Nat.find_spec heq, fun {u : Nat} => Nat.find_min heq (m := u)
    set v := Nat.find heq
    have hbefore : ∀ u, lo ≤ u → u < v → a u = b u := by
      intro u hu huv
      by_contra hdiff
      exact hfirst huv ⟨hu, by omega, hdiff⟩
    have hav : a v = false := by
      by_contra htrue
      rw [Bool.not_eq_false] at htrue
      rw [ha v hv hvh] at htrue
      have hbv := Gains.eq_true_of_choice (by omega) (by omega) htrue
        (hb v (Finset.mem_Ico.mpr ⟨hv, hvh⟩))
      rw [ha v hv hvh, htrue, hbv] at hne
      exact hne rfl
    rw [hav] at hne
    exact .inr ⟨v, hv, hvh, hbefore, hav, by simpa using hne⟩

theorem le_of_precedes {m m' : Array Bool} (hsize : m.size = m'.size)
    (h : Precedes (valuation m) (valuation m') 1 (m.size + 1)) : m ≤ m' := by
  rcases h with h | ⟨v, hv, hvh, hbefore, hav, hbv⟩
  · have heq : m = m' := eq_of_valuation_eq hsize fun v hv hvs => h v hv (by omega)
    rw [heq]
    exact Array.le_refl m'
  · obtain ⟨i, rfl⟩ := Nat.exists_eq_add_of_le' hv
    apply Array.le_of_lt
    rw [Array.lt_iff_exists]
    refine .inr ⟨i, by omega, by omega, fun j hj => ?_, ?_⟩
    · rw [← valuation_succ, ← valuation_succ, hbefore (j + 1) (by omega) (by omega)]
    · rw [← valuation_succ, ← valuation_succ, hav, hbv]
      decide

end Order

section Least

variable {d : Diagram} {g : Gains} {e : Edge} {b : Nat → Bool}

theorem Best.lt_of_goesHigh {h l : Weight} (hgoes : Best.goesHigh (some h) (some l) = true) :
    l.toNat < h.toNat := by
  rw [Best.goesHigh, decide_eq_true_eq] at hgoes
  exact UInt64.lt_iff_toNat_lt.mp hgoes

theorem Gains.Fits.earned_le_credit (h : g.Fits) (b : Nat → Bool) {lo : Nat} (h1 : 1 ≤ lo)
    (hi : Nat) :
    g.earned b lo hi ≤ ∑ v ∈ Finset.Ico lo hi, g.credit v := by
  apply Finset.sum_le_sum
  intro v hv
  rw [Finset.mem_Ico] at hv
  by_cases hvs : v ≤ g.size
  · rw [h.credit_eq_top (by omega) hvs]
    exact Gains.worth_le_top v (b v)
  · rw [Gains.worth_eq_zero (by omega)]
    exact Nat.zero_le _

variable (hd : d.Reduced) (hg : g.Summed) (hfits : g.Fits)

include hd

theorem level_le {n : Nat} (he : d.Has e) (hn : d.Upto n e) : d.level n e ≤ n + 1 := by
  by_cases hne : e.node = Edge.terminal
  · rw [level_of_eq hne]
  · rw [level_of_ne hne]
    exact (Upto.varOf_le hd he hne hn).trans (Nat.le_succ n)

theorem taken_upto (he : d.Has e) (hne : e.node ≠ Edge.terminal) (hn : d.Upto g.size e) :
    d.Upto g.size (taken d g e) := by
  unfold taken
  split
  · exact Upto.high hd he hne hn
  · exact Upto.low hd he hne hn

include hg hfits

theorem earned_le_entry (he : d.Has e) {w : Weight} (hw : Best.of (Best.table d g) e = some w)
    (hb : d.eval b e = true) : g.earned b (d.level g.size e) (g.size + 1) ≤ w.toNat := by
  have hcounted := hfits.earned_le_counted (d := d) b e (level_pos hd he (n := g.size))
  have hscore := capped_score_le hd hg he hw hb
  unfold score at hscore
  omega

/-- A model earns at most what the branch is worth that it takes. -/
theorem earned_le_branch (he : d.Has e) (hne : e.node ≠ Edge.terminal) {x : Weight}
    (hx : Best.branch d g (Best.table d g) (d.varOf e) (b (d.varOf e)) (d.follow b e) = some x)
    (hb : d.eval b e = true) : g.earned b (d.varOf e) (g.size + 1) ≤ x.toNat := by
  obtain ⟨hhas, -, hpast, heval⟩ := follow_spec hd he hne b
  obtain ⟨below, hbelow, -⟩ := Option.map_eq_some_iff.mp hx
  have hv := hd.varOf_pos he hne
  have hrest := earned_le_entry hd hg hfits hhas hbelow (heval.trans hb)
  have hfree := hfits.earned_le_credit b (Nat.le_add_left 1 (d.varOf e))
    (d.level g.size (d.follow b e))
  have hsplit := Gains.earned_split (g := g) b hpast.succ_le_level
  have hlt := (hfits.earned_le_counted (d := d) b e hv).1.trans_lt
    (hfits.earned_le_counted b e hv).2
  rw [Gains.earned_head] at hlt ⊢
  rw [toNat_branch hg hbelow hx]
  omega

omit hfits in
theorem entry_le_most (he : d.Has e) {w : Weight} (hw : Best.of (Best.table d g) e = some w) :
    w.toNat ≤ g.most (d.level g.size e) (g.size + 1) := by
  obtain ⟨a, -, -, -, hscore⟩ := bestPath_spec hd hg e.node he hw (Nat.le_refl _)
    (Array.size_replicate (v := false))
  have hpos := level_pos hd he (n := g.size)
  have hle : d.score g a e ≤ g.most (d.level g.size e) (g.size + 1) :=
    Finset.sum_le_sum fun v hv => counted_le_top (hpos.trans (Finset.mem_Ico.mp hv).1)
  omega

/-- If the sums fit, what a branch is worth is not cut off. -/
theorem branch_lt (he : d.Has e) (hne : e.node ≠ Edge.terminal) {below : Weight}
    (hbelow : Best.of (Best.table d g) (d.follow b e) = some below) :
    g.worth (d.varOf e) (b (d.varOf e)) +
      ∑ v ∈ Finset.Ico (d.varOf e + 1) (d.level g.size (d.follow b e)), g.credit v + below.toNat <
        2 ^ 64 := by
  obtain ⟨hhas, -, hpast, -⟩ := follow_spec hd he hne b
  have hv := hd.varOf_pos he hne
  have hcredit : ∑ v ∈ Finset.Ico (d.varOf e + 1) (d.level g.size (d.follow b e)), g.credit v ≤
      g.most (d.varOf e + 1) (d.level g.size (d.follow b e)) :=
    Finset.sum_le_sum fun v hv => Gains.credit_le_top (by rw [Finset.mem_Ico] at hv; omega)
  calc g.worth (d.varOf e) (b (d.varOf e)) +
        ∑ v ∈ Finset.Ico (d.varOf e + 1) (d.level g.size (d.follow b e)), g.credit v + below.toNat
      ≤ g.top (d.varOf e) + g.most (d.varOf e + 1) (d.level g.size (d.follow b e)) +
        g.most (d.level g.size (d.follow b e)) (g.size + 1) :=
        Nat.add_le_add (Nat.add_le_add (Gains.worth_le_top _ _) hcredit)
          (entry_le_most hd hg hhas hbelow)
    _ = g.most (d.varOf e) (g.size + 1) := by
      rw [Gains.most_head (d.varOf e), ← Gains.most_split hpast.succ_le_level, add_assoc]
    _ ≤ g.most 1 (g.size + 1) := Finset.sum_le_sum_of_subset (Finset.Ico_subset_Ico_left hv)
    _ < 2 ^ 64 := hfits

/-- A model that earns the most and takes the branch of the path also earns the most between the
branch and the next variable that is tested, and from there on. -/
theorem earned_taken (he : d.Has e) (hne : e.node ≠ Edge.terminal) {w : Weight}
    (hw : Best.branch d g (Best.table d g) (d.varOf e) (takesHigh d g e) (taken d g e) = some w)
    (hb : d.eval b e = true) (hearned : g.earned b (d.varOf e) (g.size + 1) = w.toNat)
    (hbv : b (d.varOf e) = takesHigh d g e) :
    d.eval b (taken d g e) = true ∧ ∃ below, Best.of (Best.table d g) (taken d g e) = some below ∧
      g.earned b (d.level g.size (taken d g e)) (g.size + 1) = below.toNat ∧
      g.earned b (d.varOf e + 1) (d.level g.size (taken d g e)) =
        ∑ v ∈ Finset.Ico (d.varOf e + 1) (d.level g.size (taken d g e)), g.credit v := by
  obtain ⟨hhas, -, hpast, heval⟩ := follow_spec hd he hne b
  rw [← hbv, ← follow_of_takesHigh hbv] at hw
  rw [← follow_of_takesHigh hbv]
  obtain ⟨below, hbelow, -⟩ := Option.map_eq_some_iff.mp hw
  have hrest := earned_le_entry hd hg hfits hhas hbelow (heval.trans hb)
  have hcredit := hfits.earned_le_credit b (Nat.le_add_left 1 (d.varOf e))
    (d.level g.size (d.follow b e))
  have hsplit := Gains.earned_split (g := g) b hpast.succ_le_level
  have hbranch := toNat_branch hg hbelow hw
  have hroom := branch_lt hd hg hfits he hne hbelow
  rw [Gains.earned_head] at hearned
  exact ⟨heval.trans hb, below, hbelow, by omega, by omega⟩

/-- A model that earns the most takes another branch than the path only if both are worth the same.
Then the path takes the low one. -/
theorem takesHigh_eq_false (he : d.Has e) (hne : e.node ≠ Edge.terminal) {w : Weight}
    (hw : Best.branch d g (Best.table d g) (d.varOf e) (takesHigh d g e) (taken d g e) = some w)
    (hb : d.eval b e = true) (hearned : g.earned b (d.varOf e) (g.size + 1) = w.toNat)
    (hbv : b (d.varOf e) ≠ takesHigh d g e) : takesHigh d g e = false := by
  by_contra htakes
  rw [Bool.not_eq_false] at htakes
  rw [htakes, ne_eq, Bool.not_eq_true] at hbv
  have hfollow : d.follow b e = d.low e := by rw [follow, hbv]; rfl
  have hbf : d.eval b (d.low e) = true := by rw [← hfollow, (follow_spec hd he hne b).2.2.2, hb]
  obtain ⟨x, hx⟩ := Best.exists_branch hd (hd.has_low he hne) hbf (g := g) (d.varOf e) false
  rw [taken, htakes, if_pos rfl] at hw
  have hlt : x.toNat < w.toNat := by
    apply Best.lt_of_goesHigh
    rwa [← hw, ← hx]
  have hle := earned_le_branch hd hg hfits he hne (b := b) (by rwa [hbv, hfollow]) hb
  omega

/-- From its edge on, the path precedes every model that earns as much. -/
theorem bestPath_precedes (fuel : Nat) :
    ∀ {e : Edge} {assignment : Array Bool} {w : Weight}, d.Has e →
    d.Upto g.size e → Best.of (Best.table d g) e = some w → e.node ≤ fuel →
      assignment.size = g.size →
    d.eval b e = true → g.earned b (d.level g.size e) (g.size + 1) = w.toNat →
    Precedes (valuation (bestPath d g (Best.table d g) fuel e assignment)) b (d.level g.size e)
      (g.size + 1) := by
  induction fuel with
  | zero =>
    intro e assignment w he _ _ hf
    have := he.1
    omega
  | succ fuel ih =>
    intro e assignment w he hn hw hf hsize hb hearned
    by_cases hne : e.node = Edge.terminal
    · rw [level_of_eq hne]
      exact .inl fun v hv hvh => absurd hvh (by omega)
    rw [level_of_ne hne] at hearned ⊢
    obtain ⟨hhas, hlt, hpast⟩ := taken_spec (g := g) hd he hne
    obtain ⟨assignment', hsize', hpath, hchosen, hfree⟩ := bestPath_step (g := g) hd he hne hf hsize
    have hvn := Upto.varOf_le hd he hne hn
    have hself := hchosen hvn
    rw [of_eq_taken hd he hne] at hw
    by_cases hbv : b (d.varOf e) = takesHigh d g e
    · -- both take the same branch, and then precedence is put together from three stretches
      obtain ⟨hbf, below, hbelow, hbelow_eq, hfree_eq⟩ :=
        earned_taken hd hg hfits he hne hw hb hearned hbv
      have hnf := taken_upto hd he hne hn
      have hle := level_le hd hhas hnf
      have hlevel : d.varOf e + 1 ≤ d.level g.size (taken d g e) := by
        have := hpast.succ_le_level (n := g.size)
        omega
      have hhead : Precedes (valuation (bestPath d g (Best.table d g) (fuel + 1) e assignment)) b
          (d.varOf e) (d.varOf e + 1) := by
        left
        intro v hlo hhi
        obtain rfl : v = d.varOf e := by omega
        rw [hself, hbv]
      have hmiddle := precedes_of_choice hfits (Nat.le_add_left 1 (d.varOf e)) hle
        (fun v hlo hhi => hfree v hlo (by omega) hhi) hfree_eq
      have htail := ih hhas hnf hbelow (by omega) hsize' hbf hbelow_eq
      rw [← hpath] at htail
      exact (hhead.append hmiddle (Nat.le_succ _) hlevel).append htail (by omega) hle
    · have htakes := takesHigh_eq_false hd hg hfits he hne hw hb hearned hbv
      rw [htakes, Bool.not_eq_false] at hbv
      exact .inr ⟨d.varOf e, Nat.le_refl _, by omega, fun u hu huv => absurd huv (by omega),
        hself.trans htakes, hbv⟩

end Least

/-- The model `m` is the first of those that earn the most, and earns `w`. Variables without gains
may have any values. -/
structure FirstBest (d : Diagram) (e : Edge) (gains : Array Gain) (m : Array Bool) (w : Weight) :
    Prop where
  size : m.size = gains.size
  model : ∃ a, d.eval a e = true ∧ ∀ v, 1 ≤ v → v ≤ gains.size → a v = valuation m v
  earns : w.toNat = (Gains.ofArray gains).earned (valuation m) 1 (gains.size + 1)
  most : ∀ a, d.eval a e = true → (Gains.ofArray gains).earned a 1 (gains.size + 1) ≤ w.toNat
  first : d.Upto gains.size e → d.eval (valuation m) e = true ∧
    ∀ m' : Array Bool, m'.size = gains.size →
    d.eval (valuation m') e = true →
    (Gains.ofArray gains).earned (valuation m') 1 (gains.size + 1) = w.toNat → m ≤ m'

section BestModel

variable {d : Diagram} (hd : d.Reduced) {e : Edge} (he : d.Has e) {gains : Array Gain}

include hd he

theorem bestModel?_eq_none : d.bestModel? e gains = none ↔ ¬∃ a, d.eval a e = true := by
  rw [bestModel?, Option.map_eq_none_iff, Best.of_eq_none_iff hd he, hd.eq_zero_iff he]
  simp

/-- A model that earns as much as the best one is not before it. -/
theorem bestModel?_precedes (hn : d.Upto gains.size e) (hfits : (Gains.ofArray gains).Fits)
    {m : Array Bool} {w : Weight} (hm : d.bestModel? e gains = some (m, w)) {b : Nat → Bool}
    (hb : d.eval b e = true)
    (hearned : (Gains.ofArray gains).earned b 1 (gains.size + 1) = w.toNat) :
    Precedes (valuation m) b 1 (gains.size + 1) := by
  have hsummed : (Gains.ofArray gains).Summed := Gains.ofArray_summed
  have hsize : (Gains.ofArray gains).size = gains.size := rfl
  rw [bestModel?, Option.map_eq_some_iff] at hm
  obtain ⟨below, hbelow, hm⟩ := hm
  rw [Prod.mk.injEq] at hm
  obtain ⟨rfl, rfl⟩ := hm
  rw [← hsize] at hn hearned ⊢
  generalize Gains.ofArray gains = g at *
  have hz : e ≠ .zero := fun h => by simp [h, Best.of_zero] at hbelow
  have hpos := level_pos hd he (n := g.size)
  have hle := level_le hd he hn
  obtain ⟨hfsize, hfill⟩ :=
    fill_spec (g := g) (Array.replicate g.size false) (Nat.le_refl 1) (d.level g.size e)
  rw [Array.size_replicate] at hfsize hfill
  obtain ⟨-, hbefore⟩ := bestPath_before (g := g) hd (e.node + 1) he hz (Nat.le_succ _) hfsize
  have hrest := earned_le_entry hd hsummed hfits he hbelow hb
  have hcredit := hfits.earned_le_credit b (Nat.le_refl 1) (d.level g.size e)
  have hsplit := Gains.earned_split (g := g) b (.inl hpos)
  have hroom : ∑ v ∈ Finset.Ico 1 (d.level g.size e), g.credit v + below.toNat < 2 ^ 64 := by
    calc ∑ v ∈ Finset.Ico 1 (d.level g.size e), g.credit v + below.toNat
        ≤ g.most 1 (d.level g.size e) + g.most (d.level g.size e) (g.size + 1) :=
          Nat.add_le_add (Finset.sum_le_sum
            fun v hv => Gains.credit_le_top (Finset.mem_Ico.mp hv).1)
            (entry_le_most hd hsummed he hbelow)
      _ = g.most 1 (g.size + 1) := Gains.most_split (.inl hpos)
      _ < 2 ^ 64 := hfits
  rw [Weight.toNat_plus, hsummed _ _ (Nat.le_refl 1)] at hearned
  have hstart : Precedes (valuation (bestPath d g (Best.table d g) (e.node + 1) e
      (fill g (Array.replicate g.size false) 1 (d.level g.size e)))) b 1 (d.level g.size e) := by
    apply precedes_of_choice hfits (Nat.le_refl 1) hle
    · intro v hv hlt
      rw [hbefore v hv (by omega) hlt, hfill v hv (by omega), if_pos ⟨hv, hlt, by omega⟩]
    · omega
  have htail := bestPath_precedes hd hsummed hfits (e.node + 1) he hn hbelow (Nat.le_succ _) hfsize
    hb (by omega)
  exact hstart.append htail hpos hle

theorem bestModel?_firstBest (hfits : (Gains.ofArray gains).Fits) (hsat : ∃ a, d.eval a e = true) :
    ∃ m w, d.bestModel? e gains = some (m, w) ∧ d.FirstBest e gains m w := by
  have hz : e ≠ .zero := fun h => by simp [h] at hsat
  obtain ⟨m, w, a, hm, hsize, hvalues, heval, hearns, hmost⟩ := bestModel?_optimal hd he hz hfits
  refine ⟨m, w, hm, hsize, ⟨a, heval, hvalues⟩, hearns, hmost,
    fun hn => ⟨?_, fun m' hsize' hm' hearned => ?_⟩⟩
  · rw [← heval]
    exact Upto.eval_congr hd he hn fun v hv hvs => (hvalues v hv hvs).symm
  · have hprecedes := bestModel?_precedes hd he hn hfits hm hm' hearned
    rw [← hsize] at hprecedes
    exact le_of_precedes (hsize.trans hsize'.symm) hprecedes

/-- The gain of a best model, whatever the weights are. -/
theorem bestModel?_gain (hn : d.Upto gains.size e) {m : Array Bool} {w : Weight}
    (hm : d.bestModel? e gains = some (m, w)) :
    w.toNat = min (∑ v ∈ Finset.Ico 1 (gains.size + 1),
        d.counted (Gains.ofArray gains) (valuation m) e v) (2 ^ 64 - 1) ∧
    ∀ v, 1 ≤ v → v ≤ gains.size → v ∉ d.tested (valuation m) e →
      valuation m v = (Gains.ofArray gains).choice v := by
  have hz : e ≠ .zero := by
    rintro rfl
    rw [bestModel?, Best.of_zero] at hm
    cases hm
  obtain ⟨m', w', a, hm', -, hvalues, -, hskip, hgain, -⟩ := bestModel?_score hd he hz gains rfl
  rw [hm, Option.some.injEq, Prod.mk.injEq] at hm'
  obtain ⟨rfl, rfl⟩ := hm'
  -- all variables that are tested have gains, so that the model has their values
  have htested : ∀ u ∈ d.tested a e, valuation m u = a u := by
    intro u hu
    have hpos := level_le_of_mem_tested hd he (n := 0) u hu
    have hlevel := level_pos hd he (n := 0)
    exact (hvalues u (by omega) (Upto.tested_le hd he hn u hu)).symm
  have hway := tested_congr hd he htested
  constructor
  · rw [hgain]
    congr 1
    exact Finset.sum_congr rfl fun v _ => (counted_congr hway htested v).symm
  · intro v hv hvs hnot
    rw [← hvalues v hv hvs]
    exact hskip v hv hvs (hway ▸ hnot)

end BestModel

section Session

open Session

theorem run?_lit (sizing : Sizing) {l : Lit} {n : Nat} (hn : l.var.number ≤ n) :
    ∃ s e, (start sizing).run? [.ask (.lit l)] = some s ∧ s.held.head? = some e ∧
      s.diagram.Upto n e := by
  obtain ⟨x, hx, hy⟩ := ask_spec (start_valid sizing) (r := .lit l) (List.nil_subset _) rfl
  refine ⟨_, x.1, by rw [run?_cons, hx]; rfl, rfl, fun a b hab => ?_⟩
  rw [hy.eval, hy.eval]
  simp only [Request.meaning, l.eval_eq_xor, hab _ hn]

/-- In every state of a diagram, an edge at hand has a best model exactly if it has a model. As long
as the gains fit, it is the first of those that earn the most. -/
theorem run_bestModel (sizing : Sizing) (cs : List Command) (s : Session)
    (h : (start sizing).run? cs = some s) (e : Edge) (he : e ∈ s.held) (gains : Array Gain) :
    (s.diagram.bestModel? e gains = none ↔ ¬∃ a, s.diagram.eval a e = true) ∧
      ((Gains.ofArray gains).Fits → (∃ a, s.diagram.eval a e = true) →
        ∃ m w, s.diagram.bestModel? e gains = some (m, w) ∧ s.diagram.FirstBest e gains m w) := by
  have hs := run?_valid (start_valid sizing) h
  exact ⟨bestModel?_eq_none hs.sound.toReduced (hs.has e he),
    bestModel?_firstBest hs.sound.toReduced (hs.has e he)⟩

/-- The first and the last variable earn the same either way, and one of them has to be true. -/
theorem run_bestModel_tied :
    ∃ s, (start ⟨0, 0⟩).run? [.ask (.clause [⟨1, by decide⟩, ⟨3, by decide⟩])] = some s ∧
      s.diagram.FirstBest ⟨3, false⟩ #[⟨2, 2⟩, ⟨0, 7⟩, ⟨5, 5⟩] #[false, true, true] 14 := by
  have hrun : ((start ⟨0, 0⟩).run? [.ask (.clause [⟨1, by decide⟩, ⟨3, by decide⟩])]).map (fun s =>
      (decide (⟨3, false⟩ ∈ s.held), s.diagram.bestModel? ⟨3, false⟩ #[⟨2, 2⟩, ⟨0, 7⟩, ⟨5, 5⟩])) =
      some (true, some (#[false, true, true], 14)) := by cbv
  have hfits : (Gains.ofArray #[⟨2, 2⟩, ⟨0, 7⟩, ⟨5, 5⟩]).Fits := by
    unfold Gains.Fits Gains.most
    decide
  obtain ⟨s, hs, hvalue⟩ := Option.map_eq_some_iff.mp hrun
  rw [Prod.mk.injEq, decide_eq_true_eq] at hvalue
  obtain ⟨hnone, hbest⟩ := run_bestModel _ _ s hs ⟨3, false⟩ hvalue.1 #[⟨2, 2⟩, ⟨0, 7⟩, ⟨5, 5⟩]
  have hsat : ∃ a, s.diagram.eval a ⟨3, false⟩ = true := by
    by_contra hno
    rw [hnone.mpr hno] at hvalue
    cases hvalue.2
  obtain ⟨m, w, hm, hfirst⟩ := hbest hfits hsat
  rw [hvalue.2, Option.some.injEq, Prod.mk.injEq] at hm
  rw [← hm.1, ← hm.2] at hfirst
  exact ⟨s, hs, hfirst⟩

/-- The gain that comes with a best model is what its variables count, passed over or not. So it is
never more than the model earns, and the same if the sum of the better gains fits up to each
variable that is passed over. -/
theorem run_bestModel_gain (sizing : Sizing) (cs : List Command) (s : Session)
    (h : (start sizing).run? cs = some s) (e : Edge) (he : e ∈ s.held) (gains : Array Gain)
    (hn : s.diagram.Upto gains.size e) (m : Array Bool) (w : Weight)
    (hm : s.diagram.bestModel? e gains = some (m, w)) :
    let g := Gains.ofArray gains
    let earned := g.earned (valuation m) 1 (gains.size + 1)
    w.toNat = min (∑ v ∈ Finset.Ico 1 (gains.size + 1), s.diagram.counted g (valuation m) e v)
      (2 ^ 64 - 1) ∧
      w.toNat ≤ min earned (2 ^ 64 - 1) ∧
      ((∀ v, 1 ≤ v → v ≤ gains.size → v ∉ s.diagram.tested (valuation m) e →
        g.most 1 (v + 1) < 2 ^ 64) →
        w.toNat = min earned (2 ^ 64 - 1)) := by
  have hs := run?_valid (start_valid sizing) h
  obtain ⟨hgain, hpassed⟩ := bestModel?_gain hs.sound.toReduced (hs.has e he) hn hm
  refine ⟨hgain, ?_, fun hroom => ?_⟩
  · rw [hgain]
    apply min_le_min_right
    exact sum_counted_le hpassed
  · rw [hgain]
    congr 1
    exact sum_counted_eq hpassed hroom

/-- The sum of both gains does not fit, but the variable that is passed over comes first. -/
theorem run_bestModel_gain_capped :
    ∃ s, (start ⟨0, 0⟩).run? [.ask (.lit ⟨2, by decide⟩)] = some s ∧
      s.diagram.bestModel? ⟨2, false⟩ #[⟨3, 0⟩, ⟨0, 18446744073709551615⟩] =
        some (#[false, true], 18446744073709551615) ∧
      (18446744073709551615 : Weight).toNat =
        min ((Gains.ofArray #[⟨3, 0⟩, ⟨0, 18446744073709551615⟩]).earned
        (valuation #[false, true]) 1 3) (2 ^ 64 - 1) := by
  have hrun : ((start ⟨0, 0⟩).run? [.ask (.lit ⟨2, by decide⟩)]).map (fun s => (s.held.head?,
      s.diagram.bestModel? ⟨2, false⟩ #[⟨3, 0⟩, ⟨0, 18446744073709551615⟩],
      s.diagram.tested (valuation #[false, true]) ⟨2, false⟩)) =
      some (some ⟨2, false⟩, some (#[false, true], 18446744073709551615), [2]) := by cbv
  obtain ⟨s, e, hs, he, hn⟩ := run?_lit ⟨0, 0⟩ (l := ⟨2, by decide⟩) (n := 2) (by decide)
  rw [hs, Option.map_some, Option.some.injEq, Prod.mk.injEq, Prod.mk.injEq, he,
    Option.some.injEq] at hrun
  obtain ⟨rfl, hm, htested⟩ := hrun
  have hroom : ∀ v, 1 ≤ v → v ≤ 2 → v ∉ s.diagram.tested (valuation #[false, true]) ⟨2, false⟩ →
      (Gains.ofArray #[⟨3, 0⟩, ⟨0, 18446744073709551615⟩]).most 1 (v + 1) < 2 ^ 64 := by
    intro v hv hvs hnot
    rw [htested, List.mem_singleton] at hnot
    obtain rfl : v = 1 := by omega
    unfold Gains.most
    decide
  have hgain := run_bestModel_gain _ _ s hs _ (List.mem_of_mem_head? he)
    #[⟨3, 0⟩, ⟨0, 18446744073709551615⟩] hn _ _ hm
  exact ⟨s, hs, hm, hgain.2.2 hroom⟩

/-- The first variable is false, but its better gain fills the sum, and nothing is credited to the
second. -/
theorem gain_lost :
    ∃ s, (start ⟨0, 0⟩).run? [.ask (.lit ⟨-1, by decide⟩)] = some s ∧ ⟨2, true⟩ ∈ s.held ∧
      s.diagram.Upto 2 ⟨2, true⟩ ∧
      s.diagram.bestModel? ⟨2, true⟩ #[⟨0, 18446744073709551615⟩, ⟨0, 5⟩] =
        some (#[false, true], 0) ∧
      (Gains.ofArray #[⟨0, 18446744073709551615⟩, ⟨0, 5⟩]).earned (valuation #[false, true]) 1
        3 = 5 := by
  have hrun : ((start ⟨0, 0⟩).run? [.ask (.lit ⟨-1, by decide⟩)]).map (fun s => (s.held.head?,
      s.diagram.bestModel? ⟨2, true⟩ #[⟨0, 18446744073709551615⟩, ⟨0, 5⟩])) =
      some (some ⟨2, true⟩, some (#[false, true], 0)) := by cbv
  obtain ⟨s, e, hs, he, hn⟩ := run?_lit ⟨0, 0⟩ (l := ⟨-1, by decide⟩) (n := 2) (by decide)
  rw [hs, Option.map_some, Option.some.injEq, Prod.mk.injEq, he, Option.some.injEq] at hrun
  obtain ⟨rfl, hm⟩ := hrun
  refine ⟨s, hs, List.mem_of_mem_head? he, hn, hm, ?_⟩
  unfold Gains.earned
  decide

end Session

end Qualify.Diagram
