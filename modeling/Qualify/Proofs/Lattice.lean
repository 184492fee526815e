import Qualify.Lattice.Load
import Qualify.Proofs.IndexSet

namespace Qualify

namespace Lattice

@[simp] theorem mem_qualifiers {l : Lattice} {q : Qualifier} :
    q ∈ l.qualifiers ↔ q.index < l.size := by
  rw [qualifiers, List.mem_map]
  exact ⟨fun ⟨_, hi, hq⟩ => hq ▸ List.mem_range.mp hi,
    fun h => ⟨q.index, List.mem_range.mpr h, rfl⟩⟩

theorem nodup_qualifiers (l : Lattice) : l.qualifiers.Nodup :=
  List.nodup_range.map fun _ _ h => congrArg Qualifier.index h

/-- The qualifiers are below themselves and between the bottom and the top. -/
structure Bounded (l : Lattice) : Prop where
  refl : ∀ q ∈ l.qualifiers, l.isSubtype q q
  le_top : ∀ q ∈ l.qualifiers, l.isSubtype q l.top
  bottom_le : ∀ q ∈ l.qualifiers, l.isSubtype l.bottom q
  bottom_mem : l.bottom ∈ l.qualifiers

end Lattice

namespace LatticeDescription

open Qualify.Lattice (row)

/-- Rows of an order relation below `n`, one a member, that at least relates each one to itself. -/
structure Reflexive (n : Nat) (rows : Array IndexSet) : Prop where
  size : rows.size = n
  refl : ∀ i < n, (row rows i).contains i = true
  bounded : ∀ i j, (row rows i).contains j = true → j < n

variable {d : LatticeDescription} {n : Nat} {rows : Array IndexSet}

theorem resolve_lt {name : String} {i : Nat} (h : d.resolve name = .ok i) : i < d.size := by
  unfold resolve at h
  split at h
  case h_1 j hj =>
    cases h
    exact (List.idxOf?_eq_some_iff.mp hj).1
  case h_2 => cases h

theorem row_modify_insert (i j k : Nat) : row (rows.modify i (·.insert j)) k =
    if i = k ∧ k < rows.size then (row rows k).insert j else row rows k := by
  simp only [row, Array.getD_eq_getD_getElem?, Array.getElem?_modify]
  by_cases hk : k < rows.size
  · by_cases hik : i = k <;> simp [hik, hk]
  · simp [hk]

theorem Reflexive.insert (h : Reflexive n rows) (i : Nat) {j : Nat} (hj : j < n) :
    Reflexive n (rows.modify i (·.insert j)) := by
  refine ⟨by rw [Array.size_modify, h.size], fun k hk => ?_, fun k j' hj' => ?_⟩
  · rw [row_modify_insert]
    split
    · rw [IndexSet.contains_insert, h.refl k hk, Bool.or_true]
    · exact h.refl k hk
  · rw [row_modify_insert] at hj'
    split at hj'
    · rw [IndexSet.contains_insert, Bool.or_eq_true, decide_eq_true_iff] at hj'
      rcases hj' with rfl | hj'
      · exact hj
      · exact h.bounded k j' hj'
    · exact h.bounded k j' hj'

/-- One step of the closure, over the qualifier `k`. -/
theorem contains_closeAt (rows : Array IndexSet) (k i j : Nat) :
    (row (closeAt rows k) i).contains j =
    ((row rows i).contains j || ((row rows i).contains k && (row rows k).contains j)) := by
  by_cases hi : i < rows.size
  · have hrow : row (closeAt rows k) i =
        if (row rows i).contains k then (row rows i).union (row rows k) else row rows i := by
      simp [closeAt, row, hi]
    rw [hrow]
    split_ifs with hk
    · rw [IndexSet.contains_union, hk, Bool.true_and]
    · rw [eq_false_of_ne_true hk, Bool.false_and, Bool.or_false]
  · have hrow : row rows i = {} := by simp [row, hi]
    have hrow' : row (closeAt rows k) i = {} := by simp [row, closeAt, hi]
    rw [hrow, hrow', IndexSet.contains_empty, IndexSet.contains_empty, Bool.false_and,
      Bool.or_false]

theorem Reflexive.closeAt (h : Reflexive n rows) (k : Nat) : Reflexive n (closeAt rows k) := by
  refine ⟨by simp [LatticeDescription.closeAt, h.size], fun i hi => ?_, fun i j hj => ?_⟩
  · rw [contains_closeAt, h.refl i hi, Bool.true_or]
  · rw [contains_closeAt, Bool.or_eq_true, Bool.and_eq_true] at hj
    exact hj.elim (h.bounded i j) fun hj => h.bounded k j hj.2

theorem Reflexive.closure (h : Reflexive n rows) : Reflexive n (closure rows) := by
  unfold LatticeDescription.closure
  generalize List.range rows.size = ks
  induction ks generalizing rows with
  | nil => exact h
  | cons k ks ih => exact ih (h.closeAt k)

def ClosedAt (rows : Array IndexSet) (k : Nat) : Prop :=
  ∀ i j, (row rows i).contains k = true → (row rows k).contains j = true →
    (row rows i).contains j = true

/-- A step closes the rows at its own qualifier, and opens them at no other. -/
theorem ClosedAt.closeAt {p k : Nat} (h : p = k ∨ ClosedAt rows p) :
    ClosedAt (closeAt rows k) p := by
  intro i j hip hpj
  simp only [contains_closeAt, Bool.or_eq_true, Bool.and_eq_true] at hip hpj ⊢
  rcases h with rfl | h
  · exact .inr ⟨hip.elim id And.left, hpj.elim id And.right⟩
  · rcases hip with hip | ⟨hik, hkp⟩ <;> rcases hpj with hpj | ⟨hpk, hkj⟩
    · exact .inl (h i j hip hpj)
    · exact .inr ⟨h i k hip hpk, hkj⟩
    · exact .inr ⟨hik, h k j hkp hpj⟩
    · exact .inr ⟨hik, hkj⟩

theorem closedAt_foldl (ks : List Nat) {p : Nat} (h : p ∈ ks ∨ ClosedAt rows p) :
    ClosedAt (ks.foldl closeAt rows) p := by
  induction ks generalizing rows with
  | nil => simpa using h
  | cons k ks ih =>
    refine ih ?_
    rcases h with h | h
    · rcases List.mem_cons.mp h with rfl | h
      · exact .inr (.closeAt (.inl rfl))
      · exact .inl h
    · exact .inr (.closeAt (.inr h))

/-- The closure is transitive. -/
theorem closure_trans (h : Reflexive n rows) {i p j : Nat}
    (hip : (row (closure rows) i).contains p = true)
    (hpj : (row (closure rows) p).contains j = true) :
    (row (closure rows) i).contains j = true := by
  have hp : p < rows.size := h.size ▸ h.closure.bounded i p hip
  exact closedAt_foldl _ (.inl (List.mem_range.mpr hp)) i j hip hpj

theorem reflexive_edgeRows (h : d.edgeRows = .ok rows) : Reflexive d.size rows := by
  have hstart : Reflexive d.size
      ((List.range d.size).map fun i => IndexSet.ofList [i]).toArray := by
    have hrow : ∀ i < d.size,
        row ((List.range d.size).map fun i => IndexSet.ofList [i]).toArray i = .ofList [i] := by
      intro i hi
      simp [row, hi]
    refine ⟨by simp, fun i hi => by simp [hrow i hi], fun i j hj => ?_⟩
    by_cases hi : i < d.size
    · rw [hrow i hi, IndexSet.contains_ofList] at hj
      simp_all
    · simp [row, Nat.not_lt.mp hi] at hj
  unfold edgeRows at h
  generalize ((List.range d.size).map fun i => IndexSet.ofList [i]).toArray = start at h hstart
  generalize d.edges = edges at h
  induction edges generalizing start with
  | nil =>
    cases h
    exact hstart
  | cons edge edges ih =>
    rw [List.foldlM_cons] at h
    rcases hsub : d.resolve edge.1 with _ | i
    · simp [hsub, bind, Except.bind] at h
    · rcases hsup : d.resolve edge.2 with _ | j
      · simp [hsub, hsup, bind, Except.bind] at h
      · refine ih _ (hstart.insert i (resolve_lt hsup)) ?_
        simpa [hsub, hsup, bind, Except.bind, pure, Except.pure] using h

theorem row_converse (h : Reflexive n rows) {b : Nat} (hb : b < n) (a : Nat) :
    (row (converse rows) b).contains a = true ↔ a < n ∧ (row rows a).contains b = true := by
  have hrow : row (converse rows) b =
      .ofList ((List.range n).filter fun a => (row rows a).contains b) := by
    simp [row, converse, h.size, hb]
  rw [hrow, IndexSet.contains_ofList, decide_eq_true_iff, List.mem_filter, List.mem_range]

/-- The greatest member, whether it was declared or found. -/
theorem findTop_spec (h : Reflexive d.size rows) {t : Nat}
    (ht : d.findTop rows (converse rows) = .ok t) :
    t < d.size ∧ ∀ a < d.size, (row rows a).contains t = true := by
  unfold findTop at ht
  split at ht
  case h_1 name hname =>
    rcases hres : d.resolve name with _ | t'
    · simp [hres, bind, Except.bind] at ht
    · simp only [hres, bind, Except.bind] at ht
      split at ht
      case h_1 => cases ht
      case h_2 hfind =>
        cases ht
        refine ⟨resolve_lt hres, fun a ha => ?_⟩
        simpa using List.find?_eq_none.mp hfind a (List.mem_range.mpr ha)
  case h_2 =>
    split at ht
    case h_1 t' hfind =>
      cases ht
      have hlt := List.mem_range.mp (List.mem_of_find?_eq_some hfind)
      have hsize : (row (converse rows) t).size = d.size := by simpa using List.find?_some hfind
      refine ⟨hlt, fun a ha => ?_⟩
      have hall := IndexSet.contains_of_size hsize (fun i hi => ((row_converse h hlt i).mp hi).1) ha
      exact ((row_converse h hlt a).mp hall).2
    case h_2 => cases ht

theorem findBottom_spec (h : Reflexive d.size rows) {t : Nat}
    (ht : d.findBottom rows (converse rows) = .ok t) :
    t < d.size ∧ ∀ a < d.size, (row rows t).contains a = true := by
  unfold findBottom at ht
  split at ht
  case h_1 name hname =>
    rcases hres : d.resolve name with _ | t'
    · simp [hres, bind, Except.bind] at ht
    · simp only [hres, bind, Except.bind] at ht
      split at ht
      case h_1 => cases ht
      case h_2 hfind =>
        cases ht
        refine ⟨resolve_lt hres, fun a ha => ?_⟩
        have hdown : (row (converse rows) a).contains t = true := by
          simpa using List.find?_eq_none.mp hfind a (List.mem_range.mpr ha)
        exact ((row_converse h ha t).mp hdown).2
  case h_2 =>
    split at ht
    case h_1 t' hfind =>
      cases ht
      have hlt := List.mem_range.mp (List.mem_of_find?_eq_some hfind)
      have hsize : (row rows t).size = d.size := by simpa using List.find?_some hfind
      exact ⟨hlt, fun a ha => IndexSet.contains_of_size hsize (h.bounded t) ha⟩
    case h_2 => cases ht

end LatticeDescription

namespace Lattice

open LatticeDescription

def assemble (d : LatticeDescription) (up : Array IndexSet) (top bottom : Nat)
    (bounds : List (Qualifier × Qualifier)) :
    Lattice where
  name := d.name
  names := d.qualifiers.toArray
  up := up
  down := converse up
  top := ⟨top⟩
  bottom := ⟨bottom⟩
  lubs := (bounds.map (·.1)).toArray
  glbs := (bounds.map (·.2)).toArray

theorem load_eq_ok {d : LatticeDescription} {l : Lattice} : load d = .ok l ↔
    (d.size ≠ 0 ∧ d.size ≤ maxQualifiers ∧ repeated? [] d.qualifiers = none) ∧
      ∃ rows, d.edgeRows = .ok rows ∧ cycle? (closure rows) = none ∧
        ∃ top bottom bounds, d.findTop (closure rows) (converse (closure rows)) = .ok top ∧
          d.findBottom (closure rows) (converse (closure rows)) = .ok bottom ∧
          ((pairs d.size).mapM fun (a, b) => d.bounds (closure rows) (converse (closure rows)) a
            b) = .ok bounds ∧
          l = assemble d (closure rows) top bottom bounds := by
  constructor
  · intro h
    unfold load at h
    split at h
    · cases h
    next hpos =>
    split at h
    · cases h
    next hle =>
    split at h
    · cases h
    next hrepeated =>
    have hrepeated : repeated? [] d.qualifiers = none := by
      rw [Option.eq_none_iff_forall_ne_some]
      exact hrepeated
    rcases hrows : d.edgeRows with _ | rows
    · simp [hrows, bind, Except.bind] at h
    simp only [hrows, bind, Except.bind] at h
    split at h
    · cases h
    next hcycle =>
    split at h
    · cases h
    next top htop =>
    split at h
    · cases h
    next bottom hbottom =>
    split at h
    · cases h
    next bounds hbounds =>
    cases h
    have hcycle : cycle? (closure rows) = none := by
      rw [Option.eq_none_iff_forall_ne_some]
      exact fun p => hcycle p.1 p.2
    exact ⟨⟨hpos, Nat.not_lt.mp hle, hrepeated⟩, rows, rfl, hcycle, top, bottom, bounds, htop,
      hbottom, hbounds, rfl⟩
  · rintro ⟨⟨hpos, hle, hrepeated⟩, rows, hrows, hcycle, top, bottom, bounds, htop, hbottom,
      hbounds, rfl⟩
    unfold load
    rw [if_neg hpos, if_neg (Nat.not_lt.mpr hle)]
    simp only [hrepeated, hrows, bind, Except.bind, hcycle, htop, hbottom, hbounds]
    rfl

theorem assemble_size {d : LatticeDescription} {up : Array IndexSet} {top bottom : Nat}
    {bounds : List (Qualifier × Qualifier)} : (assemble d up top bottom bounds).size = d.size := by
  simp [assemble, size, LatticeDescription.size]

/-- A lattice that was loaded comes from closed rows, with a top and a bottom that were found
there. -/
theorem load_cases {d : LatticeDescription} {l : Lattice} (h : load d = .ok l) :
    ∃ rows, d.edgeRows = .ok rows ∧ l.up = closure rows ∧ l.size = d.size ∧
      d.findTop l.up (converse l.up) = .ok l.top.index ∧
        d.findBottom l.up (converse l.up) = .ok l.bottom.index := by
  obtain ⟨-, rows, hrows, -, top, bottom, bounds, htop, hbottom, -, rfl⟩ := load_eq_ok.mp h
  exact ⟨rows, hrows, rfl, assemble_size, htop, hbottom⟩

theorem load_bounded {d : LatticeDescription} {l : Lattice} (h : load d = .ok l) : l.Bounded := by
  obtain ⟨rows, hrows, hup, hsize, htop, hbottom⟩ := load_cases h
  have hrefl : Reflexive d.size l.up := hup ▸ (reflexive_edgeRows hrows).closure
  have hmem : ∀ {q}, q ∈ l.qualifiers ↔ q.index < d.size := by
    intro q
    rw [mem_qualifiers, hsize]
  obtain ⟨hlt, hleast⟩ := findBottom_spec hrefl hbottom
  exact ⟨fun q hq => hrefl.refl _ (hmem.mp hq),
    fun q hq => (findTop_spec hrefl htop).2 _ (hmem.mp hq), fun q hq => hleast _ (hmem.mp hq),
    hmem.mpr hlt⟩

theorem load_trans {d : LatticeDescription} {l : Lattice} (h : load d = .ok l) {p q r : Qualifier}
    (hpq : l.isSubtype p q = true) (hqr : l.isSubtype q r = true) : l.isSubtype p r = true := by
  obtain ⟨rows, hrows, hup, -⟩ := load_cases h
  unfold isSubtype at hpq hqr ⊢
  rw [hup] at hpq hqr ⊢
  exact closure_trans (reflexive_edgeRows hrows) hpq hqr

def diamond : Lattice where
  name := "diamond"
  names := #["bottom", "left", "right", "top"]
  up := #[.ofList [0, 1, 2, 3], .ofList [1, 3], .ofList [2, 3], .ofList [3]]
  down := #[.ofList [0], .ofList [0, 1], .ofList [0, 2], .ofList [0, 1, 2, 3]]
  top := ⟨3⟩
  bottom := ⟨0⟩
  lubs := #[⟨0⟩, ⟨1⟩, ⟨2⟩, ⟨3⟩, ⟨1⟩, ⟨1⟩, ⟨3⟩, ⟨3⟩, ⟨2⟩, ⟨3⟩, ⟨2⟩, ⟨3⟩, ⟨3⟩, ⟨3⟩, ⟨3⟩, ⟨3⟩]
  glbs := #[⟨0⟩, ⟨0⟩, ⟨0⟩, ⟨0⟩, ⟨0⟩, ⟨1⟩, ⟨0⟩, ⟨1⟩, ⟨0⟩, ⟨0⟩, ⟨2⟩, ⟨2⟩, ⟨0⟩, ⟨1⟩, ⟨2⟩, ⟨3⟩]

theorem load_diamond : load ⟨"diamond", ["bottom", "left", "right", "top"],
    [("bottom", "left"), ("bottom", "right"), ("left", "top"), ("right", "top")], none, none⟩ =
      .ok diamond := by
  cbv

end Lattice

end Qualify
