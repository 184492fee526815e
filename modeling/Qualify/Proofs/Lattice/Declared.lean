import Qualify.Proofs.Lattice.Order

namespace Qualify

namespace Lattice

open LatticeDescription

def Lists (l : Lattice) (qs : List Qualifier) (p : Qualifier → Prop) : Prop :=
  qs.Pairwise (·.index < ·.index) ∧ ∀ q, q ∈ qs ↔ q ∈ l.qualifiers ∧ p q

theorem Lists.congr {l : Lattice} {qs : List Qualifier} {p p' : Qualifier → Prop} (h : Lists l qs p)
    (hp : ∀ q ∈ l.qualifiers, p q ↔ p' q) : Lists l qs p' :=
  ⟨h.1, fun q => (h.2 q).trans (and_congr_right (hp q))⟩

/-- The lattice has the qualifiers that were declared, in the order that the edges make. -/
structure Represents (l : Lattice) (d : LatticeDescription) : Prop where
  name : l.name = d.name
  names : l.names.toList = d.qualifiers
  isSubtype_iff : ∀ a ∈ l.qualifiers, ∀ b ∈ l.qualifiers,
    l.isSubtype a b = true ↔ d.Below (l.nameOf a) (l.nameOf b)
  top_mem : l.top ∈ l.qualifiers
  top_declared : ∀ name ∈ d.top, name = l.nameOf l.top
  le_top : ∀ a ∈ l.qualifiers, l.isSubtype a l.top = true
  bottom_mem : l.bottom ∈ l.qualifiers
  bottom_declared : ∀ name ∈ d.bottom, name = l.nameOf l.bottom
  bottom_le : ∀ a ∈ l.qualifiers, l.isSubtype l.bottom a = true
  lub_mem : ∀ a ∈ l.qualifiers, ∀ b ∈ l.qualifiers, l.lub a b ∈ l.qualifiers
  isBound_lub : ∀ a ∈ l.qualifiers, ∀ b ∈ l.qualifiers, IsBound (l.isSubtype · ·) l.qualifiers a b
    (l.lub a b)
  glb_mem : ∀ a ∈ l.qualifiers, ∀ b ∈ l.qualifiers, l.glb a b ∈ l.qualifiers
  isBound_glb : ∀ a ∈ l.qualifiers, ∀ b ∈ l.qualifiers,
    IsBound (fun a b => l.isSubtype b a) l.qualifiers a b (l.glb a b)
  isSubtype_iff_lub : ∀ a ∈ l.qualifiers, ∀ b ∈ l.qualifiers, l.isSubtype a b = true ↔ l.lub a b = b
  isSubtype_iff_glb : ∀ a ∈ l.qualifiers, ∀ b ∈ l.qualifiers, l.isSubtype a b = true ↔ l.glb a b = a
  supertypes : ∀ a ∈ l.qualifiers, Lists l (l.supertypes a) fun b => l.isSubtype a b
  subtypes : ∀ a ∈ l.qualifiers, Lists l (l.subtypes a) fun b => l.isSubtype b a
  incomparable : ∀ a ∈ l.qualifiers, Lists l (l.incomparable a) fun b => ¬l.isSubtype a b ∧
    ¬l.isSubtype b a

theorem lists_row {l : Lattice} {rows : Array IndexSet} {r : Nat → Nat → Prop}
    (h : Tells l.size rows r) {i : Nat} (hi : i < l.size) :
    Lists l ((row rows i).toList.map Qualifier.mk) fun q => r i q.index := by
  constructor
  · rw [List.pairwise_map]
    exact IndexSet.pairwise_toList _
  · intro q
    rw [List.mem_map, mem_qualifiers, ← h.contains_iff i hi, ← IndexSet.mem_toList]
    exact ⟨fun ⟨_, hj, hq⟩ => hq ▸ hj, fun hq => ⟨q.index, hq, rfl⟩⟩

theorem lists_incomparable (l : Lattice) (q : Qualifier) :
    Lists l (l.incomparable q) fun p => ¬l.isSubtype q p ∧ ¬l.isSubtype p q := by
  constructor
  · refine List.Pairwise.filter _ ?_
    rw [qualifiers, List.pairwise_map]
    exact List.pairwise_lt_range
  · intro p
    simp [incomparable, isComparable]

/-- The rows of a lattice are the declared order, and its bounds are found in the rows. -/
structure Ordered (l : Lattice) (d : LatticeDescription) : Prop where
  names : l.names.toList = d.qualifiers
  up : Tells l.size l.up d.BelowAt
  down : Tells l.size l.down (flip d.BelowAt)
  antisymm : ∀ a < l.size, ∀ b < l.size, d.BelowAt a b → d.BelowAt b a → a = b
  lub : ∀ a ∈ l.qualifiers, ∀ b ∈ l.qualifiers, bound? l.up a.index b.index = some (l.lub a b).index
  glb : ∀ a ∈ l.qualifiers, ∀ b ∈ l.qualifiers,
    bound? l.down a.index b.index = some (l.glb a b).index

namespace Ordered

variable {l : Lattice} {d : LatticeDescription} (h : l.Ordered d) {a b : Qualifier}
include h

theorem size_eq : l.size = d.size := by
  rw [LatticeDescription.size, ← h.names]
  rfl

theorem nameOf_eq (q : Qualifier) : l.nameOf q = d.nameAt q.index := by
  rw [nameAt, ← h.names]
  simp [nameOf]

section Members

variable (ha : a ∈ l.qualifiers) (hb : b ∈ l.qualifiers)
include ha hb

theorem isSubtype_iff : l.isSubtype a b = true ↔ d.BelowAt a.index b.index :=
  (h.up.contains_iff _ (mem_qualifiers.mp ha) _).trans (and_iff_right (mem_qualifiers.mp hb))

theorem isSubtype_antisymm (hab : l.isSubtype a b = true) (hba : l.isSubtype b a = true) :
    a = b := by
  have hindex := h.antisymm _ (mem_qualifiers.mp ha) _ (mem_qualifiers.mp hb)
    ((h.isSubtype_iff ha hb).mp hab) ((h.isSubtype_iff hb ha).mp hba)
  exact congrArg Qualifier.mk hindex

theorem isBound_lub :
    l.lub a b ∈ l.qualifiers ∧ IsBound (l.isSubtype · ·) l.qualifiers a b (l.lub a b) := by
  obtain ⟨hlt, hac, hbc, hleast⟩ :=
    bound?_spec h.up (mem_qualifiers.mp ha) (mem_qualifiers.mp hb) (h.lub a ha b hb)
  have hc := mem_qualifiers.mpr hlt
  refine ⟨hc, (h.isSubtype_iff ha hc).mpr hac, (h.isSubtype_iff hb hc).mpr hbc,
    fun e he hae hbe => ?_⟩
  have hlt := List.mem_range.mpr (mem_qualifiers.mp he)
  exact (h.isSubtype_iff hc he).mpr
    (hleast _ hlt ((h.isSubtype_iff ha he).mp hae) ((h.isSubtype_iff hb he).mp hbe))

theorem isBound_glb :
    l.glb a b ∈ l.qualifiers ∧
      IsBound (fun a b => l.isSubtype b a) l.qualifiers a b (l.glb a b) := by
  obtain ⟨hlt, hac, hbc, hleast⟩ :=
    bound?_spec h.down (mem_qualifiers.mp ha) (mem_qualifiers.mp hb) (h.glb a ha b hb)
  have hc := mem_qualifiers.mpr hlt
  refine ⟨hc, (h.isSubtype_iff hc ha).mpr hac, (h.isSubtype_iff hc hb).mpr hbc,
    fun e he hae hbe => ?_⟩
  have hlt := List.mem_range.mpr (mem_qualifiers.mp he)
  exact (h.isSubtype_iff he hc).mpr
    (hleast _ hlt ((h.isSubtype_iff he ha).mp hae) ((h.isSubtype_iff he hb).mp hbe))

end Members

theorem isSubtype_self (ha : a ∈ l.qualifiers) : l.isSubtype a a = true :=
  (h.isSubtype_iff ha ha).mpr .refl

theorem isSubtype_iff_lub (ha : a ∈ l.qualifiers) (hb : b ∈ l.qualifiers) :
    l.isSubtype a b = true ↔ l.lub a b = b := by
  obtain ⟨hc, hbound⟩ := h.isBound_lub ha hb
  exact hbound.eq_iff hb (h.isSubtype_self hb) (h.isSubtype_antisymm hc hb)

theorem isSubtype_iff_glb (ha : a ∈ l.qualifiers) (hb : b ∈ l.qualifiers) :
    l.isSubtype a b = true ↔ l.glb a b = a := by
  obtain ⟨hc, hbound⟩ := h.isBound_glb ha hb
  exact hbound.symm.eq_iff ha (h.isSubtype_self ha)
    fun hac hca => h.isSubtype_antisymm hc ha hca hac

theorem lists_supertypes (ha : a ∈ l.qualifiers) :
    Lists l (l.supertypes a) fun b => l.isSubtype a b :=
  (lists_row h.up (mem_qualifiers.mp ha)).congr fun _ hb => (h.isSubtype_iff ha hb).symm

theorem lists_subtypes (ha : a ∈ l.qualifiers) : Lists l (l.subtypes a) fun b => l.isSubtype b a :=
  (lists_row h.down (mem_qualifiers.mp ha)).congr fun _ hb => (h.isSubtype_iff hb ha).symm

end Ordered

/-- The bounds of a pair stand in its row and column. -/
theorem assemble_bounds {d : LatticeDescription} {up down : Array IndexSet} {top bottom : Nat}
    {bounds : List (Qualifier × Qualifier)}
    (hbounds : ((pairs d.size).mapM fun (a, b) => d.bounds up down a b) = .ok bounds)
    {a b : Qualifier} (ha : a.index < d.size) (hb : b.index < d.size) :
    bound? up a.index b.index = some ((assemble d up top bottom bounds).lub a b).index ∧
      bound? down a.index b.index = some ((assemble d up top bottom bounds).glb a b).index := by
  obtain ⟨u, v, hget, hlub, hglb⟩ := getElem?_bounds hbounds ha hb
  have hu : (assemble d up top bottom bounds).lub a b = u := by
    rw [lub, assemble_size]
    simp [assemble, hget]
  have hv : (assemble d up top bottom bounds).glb a b = v := by
    rw [glb, assemble_size]
    simp [assemble, hget]
  rw [hu, hv]
  exact ⟨hlub, hglb⟩

theorem load_ordered {d : LatticeDescription} {l : Lattice} (h : load d = .ok l) : l.Ordered d := by
  obtain ⟨⟨-, -, hrepeated⟩, rows, hrows, hcycle, top, bottom, bounds, -, -, hbounds, rfl⟩ :=
    load_eq_ok.mp h
  have hnodup := (repeated?_eq_none.mp hrepeated).1
  have hup := tells_closure hnodup hrows
  refine {
    names := rfl
    up := by rwa [assemble_size]
    down := by
      rw [assemble_size]
      exact hup.converse (reflexive_edgeRows hrows).closure
    antisymm := by
      rw [assemble_size]
      exact (cycle?_eq_none hup).mp hcycle
    lub := fun a ha b hb => ?_
    glb := fun a ha b hb => ?_ }
  · rw [mem_qualifiers, assemble_size] at ha hb
    exact (assemble_bounds hbounds ha hb).1
  · rw [mem_qualifiers, assemble_size] at ha hb
    exact (assemble_bounds hbounds ha hb).2

/-- The greatest qualifier of a lattice that was loaded, and the least one. -/
theorem load_extremes {d : LatticeDescription} {l : Lattice} (h : load d = .ok l) :
    (l.top.index < d.size ∧ (∀ name ∈ d.top, name = d.nameAt l.top.index) ∧
      ∀ a < d.size, d.BelowAt a l.top.index) ∧
      l.bottom.index < d.size ∧ (∀ name ∈ d.bottom, name = d.nameAt l.bottom.index) ∧
        ∀ a < d.size, d.BelowAt l.bottom.index a := by
  obtain ⟨⟨-, -, hrepeated⟩, rows, hrows, -, top, bottom, bounds, htop, hbottom, -, rfl⟩ :=
    load_eq_ok.mp h
  have hnodup := (repeated?_eq_none.mp hrepeated).1
  have hrefl := (reflexive_edgeRows hrows).closure
  have hup := tells_closure hnodup hrows
  obtain ⟨htopLt, hgreatest⟩ := findTop_spec hrefl htop
  obtain ⟨hbottomLt, hleast⟩ := findBottom_spec hrefl hbottom
  refine ⟨⟨htopLt, fun name hname => ?_,
    fun a ha => ((hup.contains_iff a ha _).mp (hgreatest a ha)).2⟩, hbottomLt, fun name hname => ?_,
      fun a ha => ((hup.contains_iff _ hbottomLt a).mp (hleast a ha)).2⟩
  · exact ((resolve_eq_ok hnodup).mp (resolve_of_findTop htop name hname)).2.symm
  · have hres := resolve_of_findTop (findBottom_eq_ok.mp hbottom) name hname
    exact ((resolve_eq_ok hnodup).mp hres).2.symm

theorem load_represents {d : LatticeDescription} {l : Lattice} (h : load d = .ok l) :
    l.Represents d := by
  have hl := load_ordered h
  obtain ⟨⟨htop, htopName, hgreatest⟩, hbottom, hbottomName, hleast⟩ := load_extremes h
  rw [← hl.size_eq] at htop hbottom hgreatest hleast
  have htop := mem_qualifiers.mpr htop
  have hbottom := mem_qualifiers.mpr hbottom
  exact {
    name := (load_eq_ok.mp h).2.elim fun _ ⟨_, _, _, _, _, _, _, _, hl⟩ => hl ▸ rfl
    names := hl.names
    isSubtype_iff := fun a ha b hb => by
      rw [hl.isSubtype_iff ha hb, hl.nameOf_eq, hl.nameOf_eq, BelowAt]
    top_mem := htop
    top_declared := fun name hname => (htopName name hname).trans (hl.nameOf_eq _).symm
    le_top := fun a ha => (hl.isSubtype_iff ha htop).mpr (hgreatest _ (mem_qualifiers.mp ha))
    bottom_mem := hbottom
    bottom_declared := fun name hname => (hbottomName name hname).trans (hl.nameOf_eq _).symm
    bottom_le := fun a ha => (hl.isSubtype_iff hbottom ha).mpr (hleast _ (mem_qualifiers.mp ha))
    lub_mem := fun a ha b hb => (hl.isBound_lub ha hb).1
    isBound_lub := fun a ha b hb => (hl.isBound_lub ha hb).2
    glb_mem := fun a ha b hb => (hl.isBound_glb ha hb).1
    isBound_glb := fun a ha b hb => (hl.isBound_glb ha hb).2
    isSubtype_iff_lub := fun a ha b hb => hl.isSubtype_iff_lub ha hb
    isSubtype_iff_glb := fun a ha b hb => hl.isSubtype_iff_glb ha hb
    supertypes := fun a ha => hl.lists_supertypes ha
    subtypes := fun a ha => hl.lists_subtypes ha
    incomparable := fun a _ => l.lists_incomparable a }

theorem load_valid {d : LatticeDescription} {l : Lattice} (h : load d = .ok l) : d.Valid := by
  obtain ⟨⟨hpos, hle, hrepeated⟩, rows, hrows, hcycle, -, -, bounds, -, -, hbounds, -⟩ :=
    load_eq_ok.mp h
  obtain ⟨⟨htop, htopName, hgreatest⟩, hbottom, hbottomName, hleast⟩ := load_extremes h
  have hnodup := (repeated?_eq_none.mp hrepeated).1
  have hup := tells_closure hnodup hrows
  have hdown := hup.converse (reflexive_edgeRows hrows).closure
  exact {
    size_pos := Nat.pos_of_ne_zero hpos
    size_le := hle
    nodup := hnodup
    edges_declared := edges_declared hrows
    antisymm := by
      simp only [forall_mem_qualifiers]
      exact fun i hi j hj hij hji => congrArg d.nameAt
        ((cycle?_eq_none hup).mp hcycle i hi j hj hij hji)
    top := ⟨_, nameAt_mem htop, htopName, forall_mem_qualifiers.mpr hgreatest⟩
    bottom := ⟨_, nameAt_mem hbottom, hbottomName, forall_mem_qualifiers.mpr hleast⟩
    least_upper := exists_bound_iff.mpr fun i hi j hj => by
      obtain ⟨u, -, -, hbound, -⟩ := getElem?_bounds hbounds hi hj
      exact ⟨u.index, bound?_spec hup hi hj hbound⟩
    greatest_lower := exists_bound_iff.mpr fun i hi j hj => by
      obtain ⟨-, v, -, -, hbound⟩ := getElem?_bounds hbounds hi hj
      exact ⟨v.index, bound?_spec hdown hi hj hbound⟩ }

/-- A valid description passes every check. -/
theorem exists_load {d : LatticeDescription} (h : d.Valid) : ∃ l, load d = .ok l := by
  have hrepeated := repeated?_eq_none.mpr ⟨h.nodup, fun _ _ => List.not_mem_nil⟩
  obtain ⟨rows, hrows⟩ : ∃ rows, d.edgeRows = .ok rows := by
    rw [edgeRows_eq]
    exact (exists_foldlM_addEdge_iff d.edges).mpr h.edges_declared
  have hup := tells_closure h.nodup hrows
  have hdown := hup.converse (reflexive_edgeRows hrows).closure
  have hcycle := (cycle?_eq_none hup).mpr fun i hi j hj hij hji =>
    (nameAt_inj h.nodup hi hj).mp (h.antisymm _ (nameAt_mem hi) _ (nameAt_mem hj) hij hji)
  obtain ⟨t, ht, htopName, hgreatest⟩ := exists_mem_qualifiers.mp h.top
  obtain ⟨top, htop⟩ := exists_findTop hup hdown h.nodup ht htopName
    (forall_mem_qualifiers.mp hgreatest)
  obtain ⟨b, hb, hbottomName, hleast⟩ := exists_mem_qualifiers.mp h.bottom
  obtain ⟨bottom, hbottom⟩ :=
    @exists_findTop { d with top := d.bottom } _ _ _ hdown hup h.nodup _ hb hbottomName
    (forall_mem_qualifiers.mp hleast)
  obtain ⟨bounds, hbounds⟩ : ∃ bounds, ((pairs d.size).mapM fun (a, b) =>
      d.bounds (closure rows) (converse (closure rows)) a b) = .ok bounds := by
    refine List.exists_mapM_eq_ok fun (i, j) hij => ?_
    obtain ⟨hi, hj⟩ := mem_pairs.mp hij
    obtain ⟨u, hu, hlub⟩ := exists_bound_iff.mp h.least_upper i hi j hj
    obtain ⟨v, hv, hglb⟩ := exists_bound_iff.mp h.greatest_lower i hi j hj
    obtain ⟨u', hu'⟩ := exists_bound? hup hi hj hu hlub
    obtain ⟨v', hv'⟩ := exists_bound? hdown hi hj hv hglb
    exact ⟨(⟨u'⟩, ⟨v'⟩), bounds_eq_ok.mpr ⟨hu', hv'⟩⟩
  exact ⟨_, load_eq_ok.mpr ⟨⟨Nat.ne_of_gt h.size_pos, h.size_le, hrepeated⟩, rows, hrows, hcycle,
    top, bottom, bounds, htop, findBottom_eq_ok.mpr hbottom, hbounds, rfl⟩⟩

/-- Exactly the descriptions of bounded lattices are loaded, and each as it was declared. -/
theorem load_declared (d : LatticeDescription) :
    ((∃ l, load d = .ok l) ↔ d.Valid) ∧ ∀ l, load d = .ok l → l.Represents d :=
  ⟨⟨fun ⟨_, h⟩ => load_valid h, exists_load⟩, fun _ => load_represents⟩

theorem load_declared_diamond :
    let d : LatticeDescription := ⟨"diamond", ["bottom", "left", "right", "top"],
      [("bottom", "left"), ("bottom", "right"), ("left", "top"), ("right", "top")], none, none⟩
    load d = .ok diamond ∧ d.Valid ∧ diamond.Represents d :=
  ⟨load_diamond, (load_declared _).1.mp ⟨diamond, load_diamond⟩,
    (load_declared _).2 diamond load_diamond⟩

end Lattice

end Qualify
