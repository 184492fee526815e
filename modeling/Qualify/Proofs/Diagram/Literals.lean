import Qualify.Diagram.Literals
import Qualify.Proofs.Lists
import Qualify.Proofs.Formula
import Qualify.Proofs.Diagram.Growth

namespace Qualify

namespace Clause

section Order

theorem inOrder_iff {l l' : Lit} : inOrder l l' = true ↔
    l.var.number < l'.var.number ∨ l.var.number = l'.var.number ∧
      (l.isPositive = true ∨ l'.isPositive = false) := by
  simp [inOrder, Lit.isNegated_eq]

theorem inOrder_trans (l m n : Lit) (h : inOrder l m = true) (h' : inOrder m n = true) :
    inOrder l n = true := by
  rw [inOrder_iff] at *
  grind

theorem inOrder_total (l m : Lit) : (inOrder l m || inOrder m l) = true := by
  rw [Bool.or_eq_true, inOrder_iff, inOrder_iff]
  grind

theorem inOrder_antisymm {l m : Lit} (h : inOrder l m = true) (h' : inOrder m l = true) :
    l = m := by
  rw [inOrder_iff] at h h'
  rw [Lit.eq_iff, Var.mk.injEq]
  cases hl : l.isPositive <;> cases hm : m.isPositive <;> simp_all <;> omega

end Order

def arranged (c : Clause) : Clause := (c.mergeSort inOrder).eraseReps

@[simp] theorem mem_arranged {c : Clause} {l : Lit} : l ∈ c.arranged ↔ l ∈ c := by
  rw [arranged, List.mem_eraseReps, List.mem_mergeSort]

theorem arranged_pairwise (c : Clause) : c.arranged.Pairwise fun l l' => inOrder l l' = true :=
  (List.pairwise_mergeSort inOrder_trans inOrder_total c).sublist (List.eraseReps_sublist _)

theorem arranged_congr {c c' : Clause} (h : ∀ l, l ∈ c ↔ l ∈ c') : c.arranged = c'.arranged :=
  List.eraseReps_mergeSort_congr inOrder_trans inOrder_total inOrder_antisymm h

def clashes (c : Clause) : Bool := (c.zip c.tail).any fun p => p.1.var == p.2.var

/-- Equal neighbours are merged, so that neighbours of one variable are opposite. -/
theorem exists_opposite {c : Clause} (h : c.arranged.clashes = true) : ∃ l ∈ c, l.opposite ∈ c := by
  obtain ⟨⟨l, l'⟩, hp, hv⟩ := List.any_eq_true.mp h
  obtain ⟨i, hi⟩ := List.mem_iff_getElem?.mp hp
  rw [List.getElem?_zip_eq_some, List.getElem?_tail] at hi
  obtain ⟨hlt, rfl⟩ := List.getElem?_eq_some_iff.mp hi.1
  obtain ⟨hlt', rfl⟩ := List.getElem?_eq_some_iff.mp hi.2
  have hne := List.isChain_iff_getElem.mp (List.isChain_eraseReps (c.mergeSort inOrder)) i hlt'
  have ho := (Lit.eq_or_opposite (eq_of_beq hv)).resolve_left hne
  exact ⟨_, mem_arranged.mp (List.getElem_mem hlt'), ho ▸ mem_arranged.mp (List.getElem_mem hlt)⟩

theorem arranged_increasing {c : Clause} (h : c.arranged.clashes = false) :
    c.arranged.Pairwise fun l l' => l.var.number < l'.var.number := by
  have hp := c.arranged_pairwise
  generalize c.arranged = ls at *
  induction ls with
  | nil => exact .nil
  | cons l ls ih =>
    rw [List.pairwise_cons] at hp ⊢
    cases ls with
    | nil => simp
    | cons m ls =>
      simp only [clashes, List.tail_cons, List.zip_cons_cons, List.any_cons, Bool.or_eq_false_iff,
        beq_eq_false_iff_ne] at h
      have hms := ih h.2 hp.2
      have hlm : l.var.number < m.var.number := by
        have hne : l.var.number ≠ m.var.number := fun he => h.1 (by rw [Var.mk.injEq, he])
        exact (inOrder_iff.mp (hp.1 m List.mem_cons_self)).resolve_right fun he => hne he.1
      refine ⟨fun n hn => ?_, hms⟩
      rcases List.mem_cons.mp hn with rfl | hn
      · exact hlm
      · exact hlm.trans ((List.pairwise_cons.mp hms).1 n hn)

theorem normalize?_eq (c : Clause) :
    normalize? c = if c.arranged.clashes then none else some c.arranged := rfl

/-- A clause with opposite literals has no normal form, any other has all its literals by
variable. -/
theorem normalize?_cases (c : Clause) :
    (normalize? c = none ∧ ∃ l ∈ c, l.opposite ∈ c) ∨
      (normalize? c = some c.arranged ∧
        c.arranged.Pairwise fun l l' => l.var.number < l'.var.number) := by
  cases h : c.arranged.clashes with
  | true => exact .inl ⟨by rw [normalize?_eq, h]; rfl, exists_opposite h⟩
  | false => exact .inr ⟨by rw [normalize?_eq, h]; rfl, arranged_increasing h⟩

/-- The order and the number of the literals do not matter. -/
theorem normalize?_congr {c c' : Clause} (h : ∀ l, l ∈ c ↔ l ∈ c') :
    normalize? c = normalize? c' := by
  rw [normalize?_eq, normalize?_eq, arranged_congr h]

end Clause

namespace Diagram

variable {d : Diagram}

section Spine

variable {f : (Nat → Bool) → Bool} {r : Edge × Diagram} (h : d.Yields f r) (l : Lit)
  (hf : ∀ a b, (∀ u, l.var.number < u → a u = b u) → f a = f b) {e : Edge}
    (he : e.node = Edge.terminal)

include h hf he

/-- A test of a literal of an earlier variable, with a constant on one side. -/
theorem Yields.test :
    d.Yields (fun a => if l.eval a then r.2.eval a e else f a)
        (if l.isNegated then r.2.mkNode l.var.number e r.1 else r.2.mkNode l.var.number r.1 e) ∧
      d.Yields (fun a => if l.eval a then f a else r.2.eval a e)
        (if l.isNegated then r.2.mkNode l.var.number r.1 e else r.2.mkNode l.var.number e r.1) := by
  have hhe : r.2.Has e := ⟨he.ge, by rw [he]; exact h.sound.nodeCount_pos⟩
  have hhigh := (mkNode_yields h.sound l.var.positive h.has hhe (h.past hf) (.inl he)).after h.grows
  have hlow := (mkNode_yields h.sound l.var.positive hhe h.has (.inl he) (h.past hf)).after h.grows
  -- a negated literal has its true side where the variable is false
  constructor <;> split_ifs with hneg
  · refine hlow.congr fun a => ?_
    rw [h.eval, Lit.eval_eq_xor, hneg]
    cases a l.var.number <;> rfl
  · refine hhigh.congr fun a => ?_
    rw [h.eval, Lit.eval_eq_xor, Bool.eq_false_of_not_eq_true hneg]
    cases a l.var.number <;> rfl
  · refine hhigh.congr fun a => ?_
    rw [h.eval, Lit.eval_eq_xor, hneg]
    cases a l.var.number <;> rfl
  · refine hlow.congr fun a => ?_
    rw [h.eval, Lit.eval_eq_xor, Bool.eq_false_of_not_eq_true hneg]
    cases a l.var.number <;> rfl

end Spine

variable (hd : d.Sound)

include hd

theorem mkClause_yields (c : Clause) : d.Yields (fun a => c.eval a) (d.mkClause c) := by
  rcases c.normalize?_cases with ⟨hn, l, hl, ho⟩ | ⟨hn, hs⟩
  · rw [mkClause, hn]
    refine (Yields.self hd hd.has_one).congr fun a => ?_
    rw [eval_one, eq_comm, Clause.eval, List.any_eq_true]
    cases ha : l.eval a with
    | true => exact ⟨l, hl, ha⟩
    | false => exact ⟨l.opposite, ho, by rw [Lit.eval_opposite, ha]; rfl⟩
  · have hc : ∀ a, c.eval a = c.arranged.any (·.eval a) := fun a => by
      rw [Clause.eval, Bool.eq_iff_iff]
      simp
    simp only [mkClause, hn, hc]
    generalize c.arranged = ls at hs
    -- the tests are built from the last variable to the first
    induction ls with
    | nil => exact (Yields.self hd hd.has_zero).congr fun a => by simp
    | cons l ls ih =>
      obtain ⟨hl, hs⟩ := List.pairwise_cons.mp hs
      refine ((ih hs).test l ?_ (e := .one) rfl).1.congr fun a => ?_
      · exact fun a b hab => Clause.eval_congr fun l' hl' => hab _ (hl l' hl')
      rw [List.any_cons]
      cases l.eval a <;> simp

theorem mkCube_yields (c : Clause) : d.Yields (fun a => c.all (·.eval a)) (d.mkCube c) := by
  rcases c.normalize?_cases with ⟨hn, l, hl, ho⟩ | ⟨hn, hs⟩
  · rw [mkCube, hn]
    refine (Yields.self hd hd.has_zero).congr fun a => ?_
    rw [eval_zero, eq_comm, List.all_eq_false]
    cases ha : l.eval a with
    | false => exact ⟨l, hl, by simp [ha]⟩
    | true => exact ⟨l.opposite, ho, by simp [ha]⟩
  · have hc : ∀ a, c.all (·.eval a) = c.arranged.all (·.eval a) := fun a => by
      rw [Bool.eq_iff_iff]
      simp
    simp only [mkCube, hn, hc]
    generalize c.arranged = ls at hs
    induction ls with
    | nil => exact (Yields.self hd hd.has_one).congr fun a => by simp
    | cons l ls ih =>
      obtain ⟨hl, hs⟩ := List.pairwise_cons.mp hs
      refine ((ih hs).test l ?_ (e := .zero) rfl).2.congr fun a => ?_
      · exact fun a b hab => Clause.all_eval_congr fun l' hl' => hab _ (hl l' hl')
      rw [List.all_cons]
      cases l.eval a <;> simp

theorem mkClauses_spec (cs : List Clause) :
    (d.mkClauses cs).2.Sound ∧ d.Extends (d.mkClauses cs).2 ∧
      List.Forall₂ (fun e c => (d.mkClauses cs).2.Has e ∧
        ∀ a, (d.mkClauses cs).2.eval a e = Clause.eval a c)
        (d.mkClauses cs).1 cs := by
  induction cs generalizing d with
  | nil => exact ⟨hd, .refl d, .nil⟩
  | cons c cs ih =>
    have hc := mkClause_yields hd c
    obtain ⟨hs, hx, hcs⟩ := ih hc.sound
    refine ⟨hs, hc.grows.trans hx, .cons ⟨hx.has hc.has, fun a => ?_⟩ hcs⟩
    exact (hx.eval_eq hc.has hc.sound.toReduced a).trans (hc.eval a)

end Diagram

end Qualify
