import Qualify.Diagram.Optimum
import Qualify.Proofs.Lists
import Qualify.Proofs.Weight

namespace Qualify.Diagram

/-- If nothing is added beyond `n`, a sum up to `n` may be cut anywhere. -/
theorem sum_split {f : Nat → Nat} {n : Nat} (hf : ∀ v, n < v → f v = 0) {lo mid : Nat}
    (h : lo ≤ mid ∨ n < mid) :
    ∑ v ∈ Finset.Ico lo mid, f v + ∑ v ∈ Finset.Ico mid (n + 1), f v =
      ∑ v ∈ Finset.Ico lo (n + 1), f v := by
  by_cases hmid : mid ≤ n
  · exact Finset.sum_Ico_consecutive f (by omega) (by omega)
  · rw [Finset.Ico_eq_empty_of_le (by omega : n + 1 ≤ mid), Finset.sum_empty, Nat.add_zero]
    symm
    apply Finset.sum_subset (Finset.Ico_subset_Ico_right (by omega))
    intro v hv hnot
    rw [Finset.mem_Ico] at hv hnot
    exact hf v (by omega)

namespace Gains

def worth (g : Gains) (v : Nat) (b : Bool) : Nat := (g.gain v b).toNat

def top (g : Gains) (v : Nat) : Nat := max (g.worth v false) (g.worth v true)

/-- What the variables from `lo` to just before `hi` earn together. -/
def earned (g : Gains) (a : Nat → Bool) (lo hi : Nat) : Nat :=
  ∑ v ∈ Finset.Ico lo hi, g.worth v (a v)

def most (g : Gains) (lo hi : Nat) : Nat := ∑ v ∈ Finset.Ico lo hi, g.top v

/-- No sum of gains reaches the limit of the words. -/
def Fits (g : Gains) : Prop := g.most 1 (g.size + 1) < 2 ^ 64

/-- What variable `v` adds to the best free gain of those before it, where sums stop at the largest
word. -/
def credit (g : Gains) (v : Nat) : Nat :=
  min (g.most 1 (v + 1)) (2 ^ 64 - 1) - min (g.most 1 v) (2 ^ 64 - 1)

def choice (g : Gains) (v : Nat) : Bool := (g.each.getD (v - 1) default).choice

def Summed (g : Gains) : Prop :=
  ∀ first stop, 1 ≤ first → (g.free first stop).toNat = ∑ v ∈ Finset.Ico first stop, g.credit v

variable {g : Gains} {v : Nat}

theorem worth_le_top (v : Nat) (b : Bool) : g.worth v b ≤ g.top v := by
  cases b
  · exact le_max_left _ _
  · exact le_max_right _ _

theorem worth_eq_zero (h : g.size < v) (b : Bool) : g.worth v b = 0 := by
  have hget : g.each[v - 1]? = none := by
    apply Array.getElem?_eq_none
    unfold size at h
    omega
  simp [worth, gain, hget]

theorem top_eq_zero (h : g.size < v) : g.top v = 0 := by
  rw [top, worth_eq_zero h, worth_eq_zero h, Nat.max_self]

theorem earned_split (a : Nat → Bool) {lo mid : Nat} (h : lo ≤ mid ∨ g.size < mid) :
    g.earned a lo mid + g.earned a mid (g.size + 1) = g.earned a lo (g.size + 1) :=
  sum_split (fun _ hv => worth_eq_zero hv _) h

theorem earned_head (a : Nat → Bool) (lo : Nat) :
    g.earned a lo (g.size + 1) = g.worth lo (a lo) + g.earned a (lo + 1) (g.size + 1) := by
  rw [← earned_split a (.inl (Nat.le_succ lo)), earned, Nat.Ico_succ_singleton,
    Finset.sum_singleton]

theorem most_split {lo mid : Nat} (h : lo ≤ mid ∨ g.size < mid) :
    g.most lo mid + g.most mid (g.size + 1) = g.most lo (g.size + 1) :=
  sum_split (fun _ hv => top_eq_zero hv) h

theorem most_head (lo : Nat) :
    g.most lo (g.size + 1) = g.top lo + g.most (lo + 1) (g.size + 1) := by
  rw [← most_split (.inl (Nat.le_succ lo)), most, Nat.Ico_succ_singleton, Finset.sum_singleton]

theorem earned_congr {a b : Nat → Bool} {lo hi : Nat} (h : ∀ v, lo ≤ v → v < hi → a v = b v) :
    g.earned a lo hi = g.earned b lo hi := by
  apply Finset.sum_congr rfl
  intro v hv
  rw [Finset.mem_Ico] at hv
  rw [h v hv.1 hv.2]

theorem most_succ (h : 1 ≤ v) : g.most 1 (v + 1) = g.most 1 v + g.top v :=
  Finset.sum_Ico_succ_top h _

theorem most_mono {lo hi : Nat} (h : lo ≤ hi) : g.most 1 lo ≤ g.most 1 hi :=
  Finset.sum_le_sum_of_subset (Finset.Ico_subset_Ico_right h)

section Credit

theorem credit_le_top (h : 1 ≤ v) : g.credit v ≤ g.top v := by
  rw [credit, most_succ h]
  omega

/-- Nothing is lost as long as the sum up to the variable fits. -/
theorem credit_eq_top (h : 1 ≤ v) (hv : g.most 1 (v + 1) < 2 ^ 64) : g.credit v = g.top v := by
  rw [most_succ h] at hv
  rw [credit, most_succ h]
  omega

theorem credit_eq_zero (h : g.size < v) : g.credit v = 0 := by
  have hle := credit_le_top (g := g) (v := v) (by omega)
  rw [top_eq_zero h] at hle
  omega

theorem Fits.credit_eq_top (h : g.Fits) (h1 : 1 ≤ v) (hv : v ≤ g.size) : g.credit v = g.top v :=
  Gains.credit_eq_top h1 ((most_mono (by omega)).trans_lt h)

theorem sum_credit {lo hi : Nat} (h : lo ≤ hi) :
    ∑ v ∈ Finset.Ico lo hi, g.credit v = min (g.most 1 hi) (2 ^ 64 - 1) - min (g.most 1 lo)
      (2 ^ 64 - 1) := by
  induction hi, h using Nat.le_induction with
  | base => simp
  | succ hi h ih =>
    have hlo := most_mono (g := g) h
    have hhi : g.most 1 hi ≤ g.most 1 (hi + 1) := most_mono (Nat.le_succ hi)
    rw [Finset.sum_Ico_succ_top h, ih, credit]
    omega

end Credit

section Choice

theorem worth_eq_of {x : Gain} (h1 : 1 ≤ v) (hx : g.each[v - 1]? = some x) (b : Bool) :
    g.worth v b = (x.of b).toNat := by
  simp [worth, gain, Nat.ne_of_gt h1, hx]

theorem choice_iff (h1 : 1 ≤ v) (hv : v ≤ g.size) :
    g.choice v = true ↔ g.worth v false < g.worth v true := by
  obtain ⟨x, hx⟩ : ∃ x, g.each[v - 1]? = some x :=
    ⟨_, Array.getElem?_eq_getElem (by unfold size at hv; omega)⟩
  rw [worth_eq_of h1 hx, worth_eq_of h1 hx, choice, Array.getD_eq_getD_getElem?, hx,
    Option.getD_some, Gain.choice, decide_eq_true_eq]
  exact UInt64.lt_iff_toNat_lt

theorem worth_choice (h1 : 1 ≤ v) (hv : v ≤ g.size) : g.worth v (g.choice v) = g.top v := by
  have hiff := choice_iff h1 hv
  unfold top
  cases hc : g.choice v with
  | true => rw [max_eq_right (hiff.mp hc).le]
  | false =>
    have hle : ¬g.worth v false < g.worth v true := fun hlt => by simp [hiff.mpr hlt] at hc
    rw [max_eq_left (Nat.le_of_not_lt hle)]

/-- A variable that is true although it might be false is the better for it. -/
theorem eq_true_of_choice (h1 : 1 ≤ v) (hv : v ≤ g.size) (hc : g.choice v = true) {b : Bool}
    (hb : g.worth v b = g.top v) : b = true := by
  have hlt := (choice_iff h1 hv).mp hc
  cases b with
  | true => rfl
  | false =>
    have hle := worth_le_top (g := g) v true
    omega

end Choice

section Words

variable {each : Array Gain}

theorem top_succ {i : Nat} {x : Gain} (hx : each[i]? = some x) :
    (ofArray each).top (i + 1) = x.best.toNat := by
  rw [Gain.best, Weight.toNat_max]
  simp [top, worth, gain, ofArray, hx, Gain.of]

/-- The sums that are kept stop at the largest word. -/
theorem upTo_spec {i : Nat} (hi : i ≤ each.size) :
    ((ofArray each).upTo.getD i 0).toNat = min ((ofArray each).most 1 (i + 1)) (2 ^ 64 - 1) := by
  obtain ⟨-, hold, hnew⟩ := List.foldl_push_spec
    (fun sums (x : Gain) => Weight.plus (sums.back?.getD 0) x.best) each.toList #[0]
  have hupTo : (ofArray each).upTo =
      each.toList.foldl (fun sums (x : Gain) => sums.push (Weight.plus (sums.back?.getD 0) x.best))
          #[0] := by
    rw [ofArray, Array.foldl_toList]
  rw [← hupTo, show (#[0] : Array Weight).size = 1 from rfl] at hold hnew
  induction i with
  | zero =>
    have h0 : (ofArray each).upTo[0]? = some 0 := hold 0 (Nat.zero_lt_one)
    rw [Array.getD_eq_getD_getElem?, h0]
    simp [most]
  | succ i ih =>
    obtain ⟨x, hx⟩ : ∃ x, each[i]? = some x := ⟨_, Array.getElem?_eq_getElem hi⟩
    obtain ⟨older, hsize, hprev, hentry⟩ := hnew i x (by rw [Array.getElem?_toList]; exact hx)
    have hback : older.back?.getD 0 = (ofArray each).upTo.getD i 0 := by
      rw [Array.back?, hsize, Array.getD_eq_getD_getElem?, ← hprev i (by omega)]
      congr 2
      omega
    have hentry : (ofArray each).upTo.getD (i + 1) 0 =
        Weight.plus ((ofArray each).upTo.getD i 0) x.best := by
      rw [Array.getD_eq_getD_getElem?, ← hback, Nat.add_comm i 1, hentry]
      rfl
    have hsum : (ofArray each).most 1 (i + 1 + 1) = (ofArray each).most 1 (i + 1) +
        x.best.toNat := by
      rw [most_succ (Nat.le_add_left 1 i), top_succ hx]
    rw [hentry, Weight.toNat_plus, ih (by omega), hsum]
    omega

theorem ofArray_summed : (ofArray each).Summed := by
  intro first stop h1
  have hsize : (ofArray each).size = each.size := rfl
  simp only [free, hsize]
  split_ifs with hle
  · -- all variables in between come after the last one with a gain
    symm
    apply Finset.sum_eq_zero
    intro v hv
    rw [Finset.mem_Ico] at hv
    exact credit_eq_zero (by omega)
  · have hlo : min (first - 1) each.size = first - 1 := by omega
    have hhi := upTo_spec (Nat.min_le_right (stop - 1) each.size)
    have hlow := upTo_spec (by omega : first - 1 ≤ each.size)
    have hmono := most_mono (g := ofArray each) (show first ≤ min (stop - 1) each.size + 1 by omega)
    have hsub : Finset.Ico first (min (stop - 1) each.size + 1) ⊆ Finset.Ico first stop :=
      Finset.Ico_subset_Ico_right (by omega)
    rw [Nat.sub_add_cancel h1] at hlow
    rw [hlo, ← Finset.sum_subset hsub, sum_credit (by omega), UInt64.toNat_sub_of_le, hhi, hlow]
    · rw [UInt64.le_iff_toNat_le, hhi, hlow]
      omega
    · intro v hv hnot
      rw [Finset.mem_Ico] at hv hnot
      exact credit_eq_zero (by omega)

end Words

end Gains

end Qualify.Diagram
