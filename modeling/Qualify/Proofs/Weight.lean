import Mathlib
import Qualify.Weight

namespace Qualify.Weight

/-- Sums stop at the largest word. -/
theorem toNat_plus (a b : Weight) : (plus a b).toNat = min (a.toNat + b.toNat) (2 ^ 64 - 1) := by
  have ha := a.toNat_lt
  have hb := b.toNat_lt
  have hsum : (a + b).toNat = (a.toNat + b.toNat) % 2 ^ 64 := UInt64.toNat_add a b
  unfold plus
  split_ifs with h
  · rw [UInt64.lt_iff_toNat_lt, hsum] at h
    rw [show cap.toNat = 2 ^ 64 - 1 from rfl]
    omega
  · rw [UInt64.lt_iff_toNat_lt, hsum] at h
    rw [hsum]
    omega

theorem toNat_plus_of_lt {a b : Weight} (h : a.toNat + b.toNat < 2 ^ 64) :
    (plus a b).toNat = a.toNat + b.toNat := by
  rw [toNat_plus]
  omega

theorem toNat_max (a b : Weight) : (max a b).toNat = max a.toNat b.toNat := by
  change (if a ≤ b then b else a).toNat = _
  split_ifs with h
  · exact (max_eq_right (UInt64.le_iff_toNat_le.mp h)).symm
  · exact (max_eq_left (Nat.le_of_not_le fun h' => h (UInt64.le_iff_toNat_le.mpr h'))).symm

def sum (ws : List Weight) : Nat := (ws.map (·.toNat)).sum

@[simp] theorem sum_nil : sum [] = 0 := rfl

@[simp] theorem sum_cons (w : Weight) (ws : List Weight) : sum (w :: ws) = w.toNat + sum ws := rfl

theorem toNat_foldl_plus (ws : List Weight) (a : Weight) :
    (ws.foldl plus a).toNat = min (a.toNat + sum ws) (2 ^ 64 - 1) := by
  induction ws generalizing a with
  | nil =>
    have := a.toNat_lt
    rw [List.foldl_nil, sum_nil]
    omega
  | cons w ws ih =>
    rw [List.foldl_cons, ih, toNat_plus, sum_cons]
    omega

theorem toNat_total (ws : List Weight) : (total ws).toNat = min (sum ws) (2 ^ 64 - 1) := by
  rw [total, toNat_foldl_plus, UInt64.toNat_zero, Nat.zero_add]

theorem toNat_total_of_lt {ws : List Weight} (h : sum ws < 2 ^ 64) : (total ws).toNat = sum ws := by
  rw [toNat_total]
  omega

theorem sum_filter_add_sum_filter_not {α : Type} (w : α → Weight) (p : α → Bool) (xs : List α) :
    sum ((xs.filter p).map w) + sum ((xs.filter fun x => !p x).map w) = sum (xs.map w) := by
  induction xs with
  | nil => rfl
  | cons x xs ih =>
    cases hp : p x <;> simp [hp] <;> omega

theorem sum_filterMap_le {α : Type} {f g : α → Option Weight} (hfg : ∀ x, f x = none ∨ f x = g x)
    (xs : List α) :
    sum (xs.filterMap f) ≤ sum (xs.filterMap g) := by
  induction xs with
  | nil => exact le_refl _
  | cons x xs ih =>
    rw [List.filterMap_cons, List.filterMap_cons]
    rcases hfg x with hx | hx
    · rw [hx]
      cases g x with
      | none => exact ih
      | some w =>
        rw [sum_cons]
        exact ih.trans (Nat.le_add_left _ _)
    · rw [hx]
      cases g x with
      | none => exact ih
      | some w =>
        rw [sum_cons, sum_cons]
        exact Nat.add_le_add_left ih _

theorem sum_le_of_sublist {ws ws' : List Weight} (h : ws.Sublist ws') : sum ws ≤ sum ws' :=
  (h.map _).sum_le_sum fun _ _ => Nat.zero_le _

end Qualify.Weight
