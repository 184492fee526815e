import Mathlib
import Qualify.Pairing

namespace Qualify

def exactSum? (a b : UInt64) : Option UInt64 :=
  if a.toNat + b.toNat < 2 ^ 64 then some (a + b) else none

def exactProduct? (a b : UInt64) : Option UInt64 :=
  if a.toNat * b.toNat < 2 ^ 64 then some (a * b) else none

/-- The pairing with sums and products that fail where they would wrap. -/
def exactPair? (a b : UInt64) : Option UInt64 :=
  if a < b then (exactProduct? b b).bind (exactSum? · a)
  else ((exactProduct? a a).bind (exactSum? · a)).bind (exactSum? · b)

variable {a b : UInt64}

theorem exactSum?_eq (h : a.toNat + b.toNat < 2 ^ 64) :
    exactSum? a b = some (a + b) ∧ (a + b).toNat = a.toNat + b.toNat := by
  rw [exactSum?, if_pos h, UInt64.toNat_add, Nat.mod_eq_of_lt h]
  exact ⟨rfl, rfl⟩

theorem exactProduct?_eq (h : a.toNat * b.toNat < 2 ^ 64) :
    exactProduct? a b = some (a * b) ∧ (a * b).toNat = a.toNat * b.toNat := by
  rw [exactProduct?, if_pos h, UInt64.toNat_mul, Nat.mod_eq_of_lt h]
  exact ⟨rfl, rfl⟩

/-- Each partial result is below the last one, so if that one is a word, none of them wraps. -/
theorem exactPair?_eq (h : Nat.pair a.toNat b.toNat < 2 ^ 64) :
    exactPair? a b = some (pair a b) ∧ (pair a b).toNat = Nat.pair a.toNat b.toNat := by
  by_cases hlt : a < b
  · have hpair : Nat.pair a.toNat b.toNat = b.toNat * b.toNat + a.toNat :=
      if_pos (UInt64.lt_iff_toNat_lt.mp hlt)
    have hsquare := exactProduct?_eq (a := b) (b := b) (by omega)
    have hsum := exactSum?_eq (a := b * b) (b := a) (by omega)
    rw [exactPair?, pair, if_pos hlt, if_pos hlt, hsquare.1, Option.bind_some, hsum.1, hsum.2,
      hsquare.2, hpair]
    exact ⟨rfl, rfl⟩
  · have hpair : Nat.pair a.toNat b.toNat = a.toNat * a.toNat + a.toNat + b.toNat :=
      if_neg fun hlt' => hlt (UInt64.lt_iff_toNat_lt.mpr hlt')
    have hsquare := exactProduct?_eq (a := a) (b := a) (by omega)
    have hsum := exactSum?_eq (a := a * a) (b := a) (by omega)
    have htotal := exactSum?_eq (a := a * a + a) (b := b) (by omega)
    rw [exactPair?, pair, if_neg hlt, if_neg hlt, hsquare.1, Option.bind_some, hsum.1,
      Option.bind_some, htotal.1, htotal.2, hsum.2, hsquare.2, hpair]
    exact ⟨rfl, rfl⟩

/-- The pairs with both entries below `k` take the numbers below the square of `k`. -/
theorem natPair_lt_iff {m n k : Nat} : Nat.pair m n < k ^ 2 ↔ m < k ∧ n < k := by
  constructor
  · intro h
    have hmax : max m n < k := by
      apply lt_of_pow_lt_pow_left₀ 2 (Nat.zero_le k)
      have := Nat.max_sq_add_min_le_pair m n
      omega
    exact max_lt_iff.mp hmax
  · intro h
    calc Nat.pair m n < (max m n + 1) ^ 2 := Nat.pair_lt_max_add_one_sq m n
      _ ≤ k ^ 2 := Nat.pow_le_pow_left (max_lt h.1 h.2) 2

theorem natPair_lt_word_iff {m n : Nat} : Nat.pair m n < 2 ^ 64 ↔ m < 2 ^ 32 ∧ n < 2 ^ 32 :=
  natPair_lt_iff (k := 2 ^ 32)

theorem toNat_pair (ha : a.toNat < 2 ^ 32) (hb : b.toNat < 2 ^ 32) :
    (pair a b).toNat = Nat.pair a.toNat b.toNat :=
  (exactPair?_eq (natPair_lt_word_iff.mpr ⟨ha, hb⟩)).2

theorem exists_toNat_pair_eq {n : Nat} (hn : n < 2 ^ 64) :
    ∃ a b : UInt64, a.toNat < 2 ^ 32 ∧ b.toNat < 2 ^ 32 ∧ (pair a b).toNat = n := by
  have hentries : n.unpair.1 < 2 ^ 32 ∧ n.unpair.2 < 2 ^ 32 := by
    rw [← natPair_lt_word_iff, Nat.pair_unpair]
    exact hn
  have hword {m : Nat} (hm : m < 2 ^ 32) : (UInt64.ofNat m).toNat = m :=
    UInt64.toNat_ofNat_of_lt' (hm.trans (by decide))
  have hleft := hword hentries.1
  have hright := hword hentries.2
  have ha := hleft.trans_lt hentries.1
  have hb := hright.trans_lt hentries.2
  refine ⟨.ofNat n.unpair.1, .ofNat n.unpair.2, ha, hb, ?_⟩
  rw [toNat_pair ha hb, hleft, hright, Nat.pair_unpair]

/-- No step of the pairing wraps on entries of 32 bits, and every word is the pairing of exactly one
such pair. -/
theorem pair_perfect :
    (∀ a b : UInt64, a.toNat < 2 ^ 32 → b.toNat < 2 ^ 32 → exactPair? a b = some (pair a b)) ∧
      Set.BijOn (fun p : UInt64 × UInt64 => (pair p.1 p.2).toNat)
        {p | p.1.toNat < 2 ^ 32 ∧ p.2.toNat < 2 ^ 32} (Set.Iio (2 ^ 64)) := by
  refine ⟨?_, ?_, ?_, ?_⟩
  · intro a b ha hb
    exact (exactPair?_eq (natPair_lt_word_iff.mpr ⟨ha, hb⟩)).1
  · intro p _
    exact UInt64.toNat_lt _
  · intro p hp q hq heq
    have hnat : Nat.pair p.1.toNat p.2.toNat = Nat.pair q.1.toNat q.2.toNat := by
      rw [← toNat_pair hp.1 hp.2, ← toNat_pair hq.1 hq.2]
      exact heq
    have hentries := Nat.pair_eq_pair.mp hnat
    exact Prod.ext (UInt64.toNat_inj.mp hentries.1) (UInt64.toNat_inj.mp hentries.2)
  · intro n hn
    obtain ⟨a, b, ha, hb, hpair⟩ := exists_toNat_pair_eq hn
    exact ⟨(a, b), ⟨ha, hb⟩, hpair⟩

/-- The largest entries give the largest word. -/
theorem pair_perfect_largest : exactPair? 0xffffffff 0xffffffff = some 0xffffffffffffffff :=
  pair_perfect.1 0xffffffff 0xffffffff (by decide) (by decide)

end Qualify
