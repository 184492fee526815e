import Qualify.Proofs.Lattice
import Qualify.Proofs.Lists

namespace Qualify

namespace LatticeDescription

open Qualify.Lattice (row)

variable {d : LatticeDescription} {n : Nat} {rows : Array IndexSet}

/-- Declared edges lead from one name to the other. -/
def Below (d : LatticeDescription) : String → String → Prop :=
  Relation.ReflTransGen fun a b => (a, b) ∈ d.edges

/-- The least member above both `a` and `b`, or the greatest one below both if the relation is
turned round. -/
def IsBound {α : Type} (r : α → α → Prop) (xs : List α) (a b c : α) : Prop :=
  r a c ∧ r b c ∧ ∀ e ∈ xs, r a e → r b e → r c e

theorem IsBound.symm {α : Type} {r : α → α → Prop} {xs : List α} {a b c : α}
    (h : IsBound r xs a b c) :
    IsBound r xs b a c := ⟨h.2.1, h.1, fun e he hb ha => h.2.2 e he ha hb⟩

theorem isBound_map {α β : Type} {f : β → α} {r : α → α → Prop} {xs : List β} {a b c : β} :
    IsBound r (xs.map f) (f a) (f b) (f c) ↔ IsBound (fun a b => r (f a) (f b)) xs a b c := by
  simp [IsBound]

/-- A bound of two related members is the second one. -/
theorem IsBound.eq_iff {α : Type} {r : α → α → Prop} {xs : List α} {a b c : α}
    (h : IsBound r xs a b c) (hb : b ∈ xs) (hrefl : r b b) (hanti : r c b → r b c → c = b) :
    r a b ↔ c = b := by
  constructor
  · intro hab
    exact hanti (h.2.2 b hb hab hrefl) h.2.1
  · rintro rfl
    exact h.1

/-- The declared hierarchy is a bounded lattice of at most so many qualifiers. -/
structure Valid (d : LatticeDescription) : Prop where
  size_pos : 1 ≤ d.qualifiers.length
  size_le : d.qualifiers.length ≤ 65535
  nodup : d.qualifiers.Nodup
  edges_declared : ∀ e ∈ d.edges, e.1 ∈ d.qualifiers ∧ e.2 ∈ d.qualifiers
  antisymm : ∀ a ∈ d.qualifiers, ∀ b ∈ d.qualifiers, d.Below a b → d.Below b a → a = b
  /-- The greatest one, which is the declared one if there is one. -/
  top : ∃ t ∈ d.qualifiers, (∀ name ∈ d.top, name = t) ∧ ∀ a ∈ d.qualifiers, d.Below a t
  bottom : ∃ t ∈ d.qualifiers, (∀ name ∈ d.bottom, name = t) ∧ ∀ a ∈ d.qualifiers, d.Below t a
  least_upper : ∀ a ∈ d.qualifiers, ∀ b ∈ d.qualifiers, ∃ c ∈ d.qualifiers,
    IsBound d.Below d.qualifiers a b c
  greatest_lower : ∀ a ∈ d.qualifiers, ∀ b ∈ d.qualifiers, ∃ c ∈ d.qualifiers,
    IsBound (flip d.Below) d.qualifiers a b c

theorem nameAt_eq {i : Nat} (hi : i < d.qualifiers.length) : d.nameAt i = d.qualifiers[i] :=
  (List.getElem_eq_getD "").symm

theorem qualifiers_eq (d : LatticeDescription) :
    d.qualifiers = (List.range d.size).map d.nameAt := by
  refine List.ext_getElem (by simp [size]) fun i hi _ => ?_
  rw [List.getElem_map, List.getElem_range, nameAt_eq hi]

theorem forall_mem_qualifiers {p : String → Prop} :
    (∀ a ∈ d.qualifiers, p a) ↔ ∀ i < d.size, p (d.nameAt i) := by
  rw [d.qualifiers_eq]
  simp

theorem exists_mem_qualifiers {p : String → Prop} :
    (∃ a ∈ d.qualifiers, p a) ↔ ∃ i < d.size, p (d.nameAt i) := by
  rw [d.qualifiers_eq]
  simp

/-- Bounds of names are bounds of their places. -/
theorem exists_bound_iff {r : String → String → Prop} :
    (∀ a ∈ d.qualifiers, ∀ b ∈ d.qualifiers, ∃ c ∈ d.qualifiers, IsBound r d.qualifiers a b c) ↔
      ∀ i < d.size, ∀ j < d.size, ∃ k < d.size,
        IsBound (fun i j => r (d.nameAt i) (d.nameAt j)) (List.range d.size) i j k := by
  simp only [forall_mem_qualifiers, exists_mem_qualifiers]
  rw [d.qualifiers_eq]
  simp only [isBound_map]

theorem nameAt_mem {i : Nat} (hi : i < d.size) : d.nameAt i ∈ d.qualifiers := by
  rw [nameAt_eq hi]
  exact List.getElem_mem hi

theorem exists_nameAt {name : String} (h : name ∈ d.qualifiers) :
    ∃ i < d.size, d.nameAt i = name := by
  obtain ⟨i, hi, rfl⟩ := List.mem_iff_getElem.mp h
  exact ⟨i, hi, nameAt_eq hi⟩

theorem nameAt_inj (hnodup : d.qualifiers.Nodup) {i j : Nat} (hi : i < d.size) (hj : j < d.size) :
    d.nameAt i = d.nameAt j ↔ i = j := by
  rw [nameAt_eq hi, nameAt_eq hj]
  exact hnodup.getElem_inj_iff

theorem resolve_eq_ok (hnodup : d.qualifiers.Nodup) {name : String} {i : Nat} :
    d.resolve name = .ok i ↔ i < d.size ∧ d.nameAt i = name := by
  have hidx : d.resolve name = .ok i ↔ d.qualifiers.idxOf? name = some i := by
    unfold resolve
    cases d.qualifiers.idxOf? name <;> simp
  rw [hidx, List.idxOf?_eq_some_iff]
  constructor
  · rintro ⟨hi, rfl, -⟩
    exact ⟨hi, nameAt_eq hi⟩
  · rintro ⟨hi, rfl⟩
    refine ⟨hi, (nameAt_eq hi).symm, fun j hj heq => ?_⟩
    rw [nameAt_eq hi] at heq
    exact absurd (hnodup.getElem_inj_iff.mp heq) (Nat.ne_of_lt hj)

theorem exists_resolve_iff {name : String} :
    (∃ i, d.resolve name = .ok i) ↔ name ∈ d.qualifiers := by
  unfold resolve
  cases h : d.qualifiers.idxOf? name with
  | none => simpa using List.idxOf?_eq_none_iff.mp h
  | some i =>
    obtain ⟨hi, rfl, -⟩ := List.idxOf?_eq_some_iff.mp h
    simp

structure Tells (n : Nat) (rows : Array IndexSet) (r : Nat → Nat → Prop) : Prop where
  size : rows.size = n
  contains_iff : ∀ i < n, ∀ j, (row rows i).contains j = true ↔ j < n ∧ r i j

def identityRows (n : Nat) : Array IndexSet :=
  ((List.range n).map fun i => IndexSet.ofList [i]).toArray

def addEdge (d : LatticeDescription) (rows : Array IndexSet) (edge : String × String) :
    Except LatticeError (Array IndexSet) := do
  let i ← d.resolve edge.1
  let j ← d.resolve edge.2
  return rows.modify i (·.insert j)

theorem edgeRows_eq : d.edgeRows = d.edges.foldlM d.addEdge (identityRows d.size) := rfl

theorem tells_identityRows (n : Nat) : Tells n (identityRows n) (· = ·) := by
  refine ⟨by simp [identityRows], fun i hi j => ?_⟩
  have hrow : row (identityRows n) i = .ofList [i] := by simp [row, identityRows, hi]
  rw [hrow, IndexSet.contains_ofList, decide_eq_true_iff, List.mem_singleton]
  constructor
  · rintro rfl
    exact ⟨hi, rfl⟩
  · rintro ⟨-, rfl⟩
    rfl

section Edges

variable (hnodup : d.qualifiers.Nodup)
include hnodup

/-- One more edge, if its names are declared. -/
theorem addEdge_eq_ok {edge : String × String} {rows' : Array IndexSet} {r : Nat → Nat → Prop}
    (h : Tells d.size rows r) (hok : d.addEdge rows edge = .ok rows') :
    Tells d.size rows' fun i j => r i j ∨ (d.nameAt i, d.nameAt j) = edge := by
  unfold addEdge at hok
  rcases hsub : d.resolve edge.1 with _ | a
  · simp [hsub, bind, Except.bind] at hok
  rcases hsup : d.resolve edge.2 with _ | b
  · simp [hsub, hsup, bind, Except.bind] at hok
  simp only [hsub, hsup, bind, Except.bind, pure, Except.pure, Except.ok.injEq] at hok
  subst hok
  obtain ⟨ha, hnamea⟩ := (resolve_eq_ok hnodup).mp hsub
  obtain ⟨hb, hnameb⟩ := (resolve_eq_ok hnodup).mp hsup
  refine ⟨by rw [Array.size_modify, h.size], fun i hi j => ?_⟩
  have hedge (hj : j < d.size) : (d.nameAt i, d.nameAt j) = edge ↔ a = i ∧ j = b := by
    rw [Prod.ext_iff, ← hnamea, ← hnameb, nameAt_inj hnodup hi ha, nameAt_inj hnodup hj hb, eq_comm]
  rw [row_modify_insert, h.size]
  split_ifs with hai
  · rw [IndexSet.contains_insert, Bool.or_eq_true, decide_eq_true_iff, h.contains_iff i hi]
    constructor
    · rintro (rfl | ⟨hj, hr⟩)
      · exact ⟨hb, .inr ((hedge hb).mpr ⟨hai.1, rfl⟩)⟩
      · exact ⟨hj, .inl hr⟩
    · rintro ⟨hj, hr | he⟩
      · exact .inr ⟨hj, hr⟩
      · exact .inl ((hedge hj).mp he).2
  · rw [h.contains_iff i hi]
    refine and_congr_right fun hj => (or_iff_left fun he => hai ?_).symm
    exact ⟨((hedge hj).mp he).1, hi⟩

theorem foldlM_addEdge_spec (edges : List (String × String)) {r : Nat → Nat → Prop}
    (h : Tells d.size rows r) {rows' : Array IndexSet}
    (hok : edges.foldlM d.addEdge rows = .ok rows') :
    Tells d.size rows' fun i j => r i j ∨ (d.nameAt i, d.nameAt j) ∈ edges := by
  induction edges generalizing rows r with
  | nil =>
    cases hok
    simpa using h
  | cons edge edges ih =>
    rw [List.foldlM_cons] at hok
    rcases hadd : d.addEdge rows edge with _ | rows₁
    · simp [hadd, bind, Except.bind] at hok
    · simp only [hadd, bind, Except.bind] at hok
      have htells := ih (addEdge_eq_ok hnodup h hadd) hok
      refine ⟨htells.size, fun i hi j => ?_⟩
      rw [htells.contains_iff i hi, List.mem_cons, or_assoc]

end Edges

theorem exists_addEdge_iff (rows : Array IndexSet) {edge : String × String} :
    (∃ rows', d.addEdge rows edge = .ok rows') ↔ edge.1 ∈ d.qualifiers ∧ edge.2 ∈ d.qualifiers := by
  rw [← exists_resolve_iff, ← exists_resolve_iff]
  unfold addEdge
  rcases d.resolve edge.1 with _ | i
  · simp [bind, Except.bind]
  · rcases d.resolve edge.2 with _ | j
    · simp [bind, Except.bind]
    · simp [bind, Except.bind, pure, Except.pure]

theorem exists_foldlM_addEdge_iff (edges : List (String × String)) :
    (∃ rows', edges.foldlM d.addEdge rows = .ok rows') ↔
      ∀ e ∈ edges, e.1 ∈ d.qualifiers ∧ e.2 ∈ d.qualifiers := by
  induction edges generalizing rows with
  | nil => simp [pure, Except.pure]
  | cons edge edges ih =>
    rw [List.foldlM_cons, List.forall_mem_cons, ← exists_addEdge_iff rows]
    rcases d.addEdge rows edge with _ | rows₁
    · simp [bind, Except.bind]
    · simp [bind, Except.bind, ih]

theorem edges_declared (hrows : d.edgeRows = .ok rows) :
    ∀ e ∈ d.edges, e.1 ∈ d.qualifiers ∧ e.2 ∈ d.qualifiers := by
  rw [edgeRows_eq] at hrows
  exact (exists_foldlM_addEdge_iff d.edges).mp ⟨rows, hrows⟩

/-- The closure adds what a transitive relation has already. -/
theorem closure_sound {r : Nat → Nat → Prop} (htrans : ∀ a b c, r a b → r b c → r a c)
    (ks : List Nat) (h : ∀ a b, (row rows a).contains b = true → r a b) {i j : Nat}
    (hij : (row (ks.foldl closeAt rows) i).contains j = true) : r i j := by
  induction ks generalizing rows with
  | nil => exact h i j hij
  | cons k ks ih =>
    refine ih (fun a b hab => ?_) hij
    rw [contains_closeAt, Bool.or_eq_true, Bool.and_eq_true] at hab
    rcases hab with hab | ⟨hak, hkb⟩
    · exact h a b hab
    · exact htrans a k b (h a k hak) (h k b hkb)

theorem contains_foldl_closeAt (ks : List Nat) {i j : Nat} (hij : (row rows i).contains j = true) :
    (row (ks.foldl closeAt rows) i).contains j = true := by
  induction ks generalizing rows with
  | nil => exact hij
  | cons k ks ih =>
    apply ih
    rw [contains_closeAt, hij, Bool.true_or]

def BelowAt (d : LatticeDescription) (i j : Nat) : Prop := d.Below (d.nameAt i) (d.nameAt j)

/-- The closed rows are the declared order on names. -/
theorem tells_closure (hnodup : d.qualifiers.Nodup) (hrows : d.edgeRows = .ok rows) :
    Tells d.size (closure rows) d.BelowAt := by
  have hrefl := reflexive_edgeRows hrows
  rw [edgeRows_eq] at hrows
  have htells := foldlM_addEdge_spec hnodup d.edges (tells_identityRows d.size) hrows
  refine ⟨hrefl.closure.size, fun i hi j => ⟨fun hij => ⟨hrefl.closure.bounded i j hij, ?_⟩, ?_⟩⟩
  · refine closure_sound (fun _ _ _ => Relation.ReflTransGen.trans) _ (fun a b hab => ?_) hij
    have ha : a < d.size := by
      by_contra hle
      simp [row, hrefl.size, Nat.not_lt.mp hle] at hab
    obtain ⟨-, rfl | hedge⟩ := (htells.contains_iff a ha b).mp hab
    · exact .refl
    · exact .single hedge
  · -- The names on the way are declared, so that each step is in the rows.
    rintro ⟨hj, hij⟩
    unfold BelowAt at hij
    generalize hname : d.nameAt j = name at hij
    induction hij generalizing j with
    | refl =>
      obtain rfl := (nameAt_inj hnodup hj hi).mp hname
      exact hrefl.closure.refl _ hi
    | tail _ hstep ih =>
      obtain ⟨k, hk, hnamek⟩ := exists_nameAt (edges_declared hrows _ hstep).1
      have hkj : (row rows k).contains j = true :=
        (htells.contains_iff k hk j).mpr ⟨hj, .inr (by rwa [hname, hnamek])⟩
      exact closure_trans hrefl (ih k hk hnamek) (contains_foldl_closeAt _ hkj)

theorem Tells.converse {r : Nat → Nat → Prop} (h : Tells n rows r) (hrefl : Reflexive n rows) :
    Tells n (converse rows) (flip r) := by
  refine ⟨by simp [LatticeDescription.converse, h.size], fun i hi j => ?_⟩
  rw [row_converse hrefl hi]
  refine and_congr_right fun hj => ?_
  rw [h.contains_iff j hj]
  exact and_iff_right hi

theorem cycle?_eq_none {r : Nat → Nat → Prop} (h : Tells n rows r) :
    cycle? rows = none ↔ ∀ a < n, ∀ b < n, r a b → r b a → a = b := by
  simp only [cycle?, List.findSome?_eq_none_iff, List.mem_range, h.size, Option.map_eq_none_iff,
    List.find?_eq_none, IndexSet.mem_toList, Bool.and_eq_true, bne_iff_ne, not_and]
  refine forall₂_congr fun a ha => ⟨fun hcycle b hb hab hba => ?_, fun hanti b hab hne hba => ?_⟩
  · by_contra hne
    exact hcycle b ((h.contains_iff a ha b).mpr ⟨hb, hab⟩) hne
      ((h.contains_iff b hb a).mpr ⟨ha, hba⟩)
  · obtain ⟨hb, hab⟩ := (h.contains_iff a ha b).mp hab
    exact hne (hanti b hb hab ((h.contains_iff b hb a).mp hba).2)

section Bounds

variable {r : Nat → Nat → Prop} (h : Tells n rows r) {a b c : Nat}
include h

theorem mem_common (ha : a < n) (hb : b < n) :
    ((row rows a).inter (row rows b)).contains c = true ↔ c < n ∧ r a c ∧ r b c := by
  rw [IndexSet.contains_inter, Bool.and_eq_true, h.contains_iff a ha,
    h.contains_iff b hb, ← and_and_left]

theorem common_isSubset_iff (ha : a < n) (hb : b < n) (hc : c < n) :
    ((row rows a).inter (row rows b)).isSubset (row rows c) = true ↔ ∀ e ∈ List.range n, r a e →
      r b e → r c e := by
  rw [IndexSet.isSubset_iff]
  refine forall_congr' fun e => ?_
  rw [mem_common h ha hb, h.contains_iff c hc, List.mem_range]
  exact ⟨fun he hlt hae hbe => (he ⟨hlt, hae, hbe⟩).2,
    fun he ⟨hlt, hae, hbe⟩ => ⟨hlt, he hlt hae hbe⟩⟩

theorem bound?_spec (ha : a < n) (hb : b < n) (hc : bound? rows a b = some c) :
    c < n ∧ IsBound r (List.range n) a b c := by
  unfold bound? at hc
  have hsubset := List.find?_some hc
  obtain ⟨hlt, hac, hbc⟩ :=
    (mem_common h ha hb).mp (IndexSet.mem_toList.mp (List.mem_of_find?_eq_some hc))
  exact ⟨hlt, hac, hbc, (common_isSubset_iff h ha hb hlt).mp hsubset⟩

theorem exists_bound? (ha : a < n) (hb : b < n) (hlt : c < n)
    (hbound : IsBound r (List.range n) a b c) :
    ∃ c', bound? rows a b = some c' := by
  obtain ⟨hac, hbc, hleast⟩ := hbound
  rw [← Option.isSome_iff_exists, bound?, List.find?_isSome]
  exact ⟨c, IndexSet.mem_toList.mpr ((mem_common h ha hb).mpr ⟨hlt, hac, hbc⟩),
    (common_isSubset_iff h ha hb hlt).mpr hleast⟩

end Bounds

theorem bounds_eq_ok {up down : Array IndexSet} {a b : Nat} {found : Qualifier × Qualifier} :
    d.bounds up down a b = .ok found ↔
      bound? up a b = some found.1.index ∧ bound? down a b = some found.2.index := by
  obtain ⟨⟨u⟩, ⟨l⟩⟩ := found
  unfold bounds
  rcases bound? up a b with _ | u' <;> rcases bound? down a b with _ | l' <;>
    simp [pure, Except.pure]

theorem pairs_eq (n : Nat) : pairs n = (List.range (n * n)).map fun k => (k / n, k % n) := by
  have hrows (m : Nat) : ((List.range m).flatMap fun a => (List.range n).map fun b => (a, b)) =
      (List.range (m * n)).map fun k => (k / n, k % n) := by
    induction m with
    | zero => simp
    | succ m ih =>
      rw [List.range_succ, List.flatMap_append, ih, Nat.add_mul, Nat.one_mul, List.range_add,
        List.map_append]
      congr 1
      simp only [List.flatMap_singleton, List.map_map]
      refine List.map_congr_left fun b hb => ?_
      have hb := List.mem_range.mp hb
      simp [Nat.mul_comm m n, Nat.mul_add_div (Nat.zero_lt_of_lt hb), Nat.div_eq_of_lt hb,
        Nat.mod_eq_of_lt hb]
  exact hrows n

theorem getElem?_pairs {n a b : Nat} (ha : a < n) (hb : b < n) :
    (pairs n)[a * n + b]? = some (a, b) := by
  have hpos : 0 < n := Nat.zero_lt_of_lt ha
  have hk : a * n + b < n * n :=
    calc a * n + b < a * n + n := Nat.add_lt_add_left hb _
      _ = (a + 1) * n := by ring
      _ ≤ n * n := Nat.mul_le_mul_right _ ha
  rw [pairs_eq, List.getElem?_map, List.getElem?_range hk, Option.map_some, Nat.mul_comm a n,
    Nat.mul_add_div hpos, Nat.div_eq_of_lt hb, Nat.mul_add_mod, Nat.mod_eq_of_lt hb, Nat.add_zero]

theorem mem_pairs {n a b : Nat} : (a, b) ∈ pairs n ↔ a < n ∧ b < n := by
  simp [pairs]

/-- If no pair fails, then each has its bounds, in its row and column of the list. -/
theorem getElem?_bounds {up down : Array IndexSet} {bounds : List (Qualifier × Qualifier)}
    (h : ((pairs d.size).mapM fun (a, b) => d.bounds up down a b) = .ok bounds) {a b : Nat}
    (ha : a < d.size) (hb : b < d.size) : ∃ u l : Qualifier, bounds[a * d.size + b]? = some (u, l) ∧
      bound? up a b = some u.index ∧ bound? down a b = some l.index := by
  have hall := List.mapM_eq_ok.mp h
  obtain ⟨hk, hpair⟩ := List.getElem?_eq_some_iff.mp (getElem?_pairs ha hb)
  have hk' : a * d.size + b < bounds.length := hall.length_eq ▸ hk
  have hfound := hall.get hk hk'
  rw [List.get_eq_getElem, hpair] at hfound
  exact ⟨_, _, List.getElem?_eq_getElem hk', bounds_eq_ok.mp hfound⟩

/-- The least qualifier is found in the same way as the greatest one, with the order turned
round. -/
theorem findBottom_eq_ok {up down : Array IndexSet} {t : Nat} :
    d.findBottom up down = .ok t ↔ { d with top := d.bottom }.findTop down up = .ok t := by
  simp only [findBottom, findTop, resolve, size]
  rcases d.bottom with _ | name
  · cases (List.range d.qualifiers.length).find?
      fun t => (row up t).size == d.qualifiers.length <;> simp
  · dsimp only
    rcases d.qualifiers.idxOf? name with _ | t'
    · simp [bind, Except.bind]
    · cases hfind : (List.range d.qualifiers.length).find? fun a => !(row down a).contains t' <;>
        simp [bind, Except.bind, hfind]

/-- A declared greatest qualifier is the one that is found. -/
theorem resolve_of_findTop {up down : Array IndexSet} {t : Nat} (ht : d.findTop up down = .ok t) :
    ∀ name ∈ d.top, d.resolve name = .ok t := by
  rintro name htop
  rw [Option.mem_def] at htop
  unfold findTop at ht
  rcases hres : d.resolve name with _ | t'
  · simp [htop, hres, bind, Except.bind] at ht
  · simp only [htop, hres, bind, Except.bind] at ht
    split at ht
    case h_1 => cases ht
    case h_2 => exact ht

theorem exists_findTop {up down : Array IndexSet} {r : Nat → Nat → Prop} (hup : Tells d.size up r)
    (hdown : Tells d.size down (flip r)) (hnodup : d.qualifiers.Nodup) {t : Nat} (hlt : t < d.size)
    (hname : ∀ name ∈ d.top, name = d.nameAt t) (hgreatest : ∀ a < d.size, r a t) :
    ∃ t', d.findTop up down = .ok t' := by
  unfold findTop
  rcases htop : d.top with _ | name
  · have hsize : (row down t).size = d.size := IndexSet.size_eq_of_contains fun a => by
      rw [hdown.contains_iff t hlt]
      exact and_iff_left_of_imp (hgreatest a)
    have hsome : ((List.range d.size).find? fun t => (row down t).size == d.size).isSome := by
      rw [List.find?_isSome]
      exact ⟨t, List.mem_range.mpr hlt, beq_iff_eq.mpr hsize⟩
    obtain ⟨t', ht'⟩ := Option.isSome_iff_exists.mp hsome
    exact ⟨t', by simp only [ht']⟩
  · have hres : d.resolve name = .ok t := (resolve_eq_ok hnodup).mpr ⟨hlt, (hname name htop).symm⟩
    have hnone : ((List.range d.size).find? fun a => !(row up a).contains t) = none := by
      rw [List.find?_eq_none]
      intro a ha
      have ha := List.mem_range.mp ha
      simp [(hup.contains_iff a ha t).mpr ⟨hlt, hgreatest a ha⟩]
    exact ⟨t, by simp only [hres, bind, Except.bind, hnone, pure, Except.pure]⟩

end LatticeDescription

end Qualify
