import Qualify.Inference.Generated
import Qualify.Proofs.Generation.Locality
import Qualify.Proofs.Generation.Origins
import Qualify.Proofs.Lattice
import Qualify.Proofs.Store.Union

namespace Qualify

namespace Program

variable {p p' : Program} {u : CodeUnit} {name : String}

theorem duplicateUnit?_eq_none : p.duplicateUnit? = none ↔ (p.units.map (·.name)).Nodup := by
  simp [duplicateUnit?, repeated?_eq_none]

/-- Among units of distinct names each one is found. -/
theorem unit?_eq_some (h : (p.units.map (·.name)).Nodup) :
    p.unit? name = some u ↔ u ∈ p.units ∧ u.name = name := by
  constructor
  · intro hu
    exact ⟨List.mem_of_find?_eq_some hu, by simpa using List.find?_some hu⟩
  · rintro ⟨hu, rfl⟩
    have hsome : (p.unit? u.name).isSome = true := List.find?_isSome.mpr ⟨u, hu, beq_self_eq_true _⟩
    obtain ⟨v, hv⟩ := Option.isSome_iff_exists.mp hsome
    have hname : v.name = u.name := by simpa using List.find?_some hv
    obtain rfl : v = u := List.inj_on_of_nodup_map h (List.mem_of_find?_eq_some hv) hu hname
    exact hv

theorem unit?_perm (h : (p.units.map (·.name)).Nodup) (hperm : p.units.Perm p'.units)
    (name : String) :
    p'.unit? name = p.unit? name := by
  have h' : (p'.units.map (·.name)).Nodup := (hperm.map _).nodup_iff.mp h
  apply Option.ext
  intro u
  rw [unit?_eq_some h, unit?_eq_some h', hperm.mem_iff]

end Program

section

variable {types : TypeSystem} {p : Program} (hnames : (p.units.map (·.name)).Nodup)
  (hunits : ∀ u ∈ p.units, ∃ c, generate types p u = .ok c)
include hnames hunits

/-- A slot is a slot of the unit where it is. -/
theorem generate_home {u : CodeUnit} (hu : u ∈ p.units) {c : UnitConstraints}
    (hc : generate types p u = .ok c) {x : Slot} (hx : x ∈ c.slots.slots) :
    ∃ v d, p.unit? x.location.unit = some v ∧ generate types p v = .ok d ∧ x ∈ d.slots.slots := by
  obtain hown | ⟨v, hv, hrequests⟩ := generate_origin hc hx
  · exact ⟨u, c, (Program.unit?_eq_some hnames).mpr ⟨hu, hown.symm⟩, hc, hx⟩
  · obtain ⟨d, hd⟩ := hunits v ((Program.unit?_eq_some hnames).mp hv).1
    exact ⟨v, d, hv, hd, hrequests d hd⟩

/-- The units agree on the slots that they share. -/
theorem generate_agree {u v : CodeUnit} (hu : u ∈ p.units) (hv : v ∈ p.units)
    {c d : UnitConstraints} (hc : generate types p u = .ok c) (hd : generate types p v = .ok d)
    {x y : Slot} (hx : x ∈ c.slots.slots) (hy : y ∈ d.slots.slots)
    (hlocation : y.location = x.location) : y = x := by
  obtain ⟨w, e, hw, he, hx⟩ := generate_home hnames hunits hu hc hx
  obtain ⟨w', e', hw', he', hy⟩ := generate_home hnames hunits hv hd hy
  rw [hlocation, hw] at hw'
  cases hw'
  cases he.symm.trans he'
  exact (generate_distinct he).admits hx y hy hlocation

namespace Generated

omit hnames hunits in
theorem readUnits_eq (failFast : Bool) {us : List CodeUnit}
    (h : ∀ u ∈ us, ∃ c, generate types p u = .ok c) :
    readUnits failFast types p us = us.map fun u => (u.name, some (generate types p u)) := by
  induction us with
  | nil => rfl
  | cons u us ih =>
    obtain ⟨⟨c, hc⟩, hus⟩ := List.forall_mem_cons.mp h
    rw [readUnits, hc, List.map_cons, hc, ih hus]

/-- Units that can be read are taken over one after the other. -/
theorem addAll_collects (failFast : Bool) {us : List CodeUnit} (hus : us ⊆ p.units) :
    ∀ {g : Generated} {units : UnitConstraints → Prop}, g.store.Collects units →
      (∀ c, units c → ∃ u ∈ p.units, generate types p u = .ok c) →
      ∃ g', addAll failFast g (us.map fun u => (u.name, some (generate types p u))) = .ok g' ∧
        g'.store.Collects (fun c => units c ∨ ∃ u ∈ us, generate types p u = .ok c) ∧
        g'.skipped = g.skipped ∧ g'.diagnostics = g.diagnostics := by
  induction us with
  | nil => exact fun {g _} hg _ => ⟨g, rfl, by simpa using hg, rfl, rfl⟩
  | cons u us ih =>
    intro g units hg hread
    obtain ⟨hu, hus⟩ := List.cons_subset.mp hus
    obtain ⟨c, hc⟩ := hunits u hu
    have hadmits : ∀ x ∈ c.slots.slots, g.store.slots.Admits x := by
      intro x hx y hy hlocation
      obtain ⟨d, hd, hy⟩ := (hg.slots y).mp hy
      obtain ⟨v, hv, hd⟩ := hread d hd
      exact generate_agree hnames hunits hu hv hc hd hx hy hlocation
    obtain ⟨names, s, habsorb, hs⟩ := hg.absorb (generate_distinct hc) hadmits (generate_knows hc)
    have hadd : g.add failFast u.name (some (generate types p u)) = .ok { g with store := s } := by
      simp only [add, absorbed, hc, habsorb]
    have hread' : ∀ d, units d ∨ d = c → ∃ u ∈ p.units, generate types p u = .ok d := by
      rintro d (hd | rfl)
      · exact hread d hd
      · exact ⟨u, hu, hc⟩
    obtain ⟨g', haddAll, hg', hskipped, hdiagnostics⟩ :=
      ih hus (g := { g with store := s }) hs hread'
    refine ⟨g', ?_, ?_, hskipped, hdiagnostics⟩
    · rw [List.map_cons, addAll, hadd]
      exact haddAll
    · convert hg' using 2 with d
      simp only [List.exists_mem_cons_iff, hc, Except.ok.injEq, or_assoc, eq_comm (a := c)]

theorem ofProgram_collects (failFast : Bool) : ∃ g, ofProgram failFast types p = .ok g ∧
    g.store.Collects (fun c => ∃ u ∈ p.units, generate types p u = .ok c) ∧ g.skipped = [] ∧
      g.diagnostics = [] := by
  have hstart : ({ units := p.units.length } : Generated).store.Collects fun _ => False :=
    ConstraintStore.collects_empty
  obtain ⟨g, hg, hcollects, hskipped, hdiagnostics⟩ :=
    addAll_collects hnames hunits failFast (List.Subset.refl _) hstart fun _ => False.elim
  refine ⟨g, ?_, by simpa using hcollects, hskipped, hdiagnostics⟩
  rw [ofProgram, Program.duplicateUnit?_eq_none.mpr hnames, readUnits_eq failFast hunits]
  exact hg

end Generated

end

namespace Generated

/-- A program whose units have distinct names and can be read gives its constraints in whatever
order the units come. They are the slots and constraints of its units: no unit is left out or in
conflict with another one, and only the numbers of the slots change with the order. -/
theorem ofProgram_renumbers {types : TypeSystem} {p p' : Program}
    (hnames : (p.units.map (·.name)).Nodup)
    (hunits : ∀ u ∈ p.units, ∃ c, generate types p u = .ok c) (hperm : p.units.Perm p'.units)
    (failFast failFast' : Bool) :
    ∃ g g', ofProgram failFast types p = .ok g ∧ ofProgram failFast' types p' = .ok g' ∧
      (g.skipped = [] ∧ g.diagnostics = []) ∧ (g'.skipped = [] ∧ g'.diagnostics = []) ∧
      g.store.Collects (fun c => ∃ u ∈ p.units, generate types p u = .ok c) ∧
      g'.store.Collects (fun c => ∃ u ∈ p.units, generate types p u = .ok c) ∧
      g.store.Renumbers g'.store := by
  have hsame : ∀ u, generate types p' u = generate types p u :=
    generate_congr (Program.unit?_perm hnames hperm) types
  have hnames' : (p'.units.map (·.name)).Nodup := (hperm.map _).nodup_iff.mp hnames
  have hunits' : ∀ u ∈ p'.units, ∃ c, generate types p' u = .ok c := by
    intro u hu
    rw [hsame]
    exact hunits u (hperm.mem_iff.mpr hu)
  obtain ⟨g, hg, hcollects, hclean⟩ := ofProgram_collects hnames hunits failFast
  obtain ⟨g', hg', hcollects', hclean'⟩ := ofProgram_collects hnames' hunits' failFast'
  simp only [hsame, ← hperm.mem_iff] at hcollects'
  exact ⟨g, g', hg, hg', hclean, hclean', hcollects, hcollects', hcollects.renumbers hcollects'⟩

def copyingUnit (name other : String) : CodeUnit where
  name := name
  fields := [⟨"items", .mk none [.plain]⟩]
  methods := [{
    name := "copy", receiver := none, params := [], returns := none, typeParams := [], locals := []
    body := some ⟨0, #[⟨[.readField 0 ⟨some other, "items"⟩, .assign (.field ⟨none, "items"⟩) 0],
      .ret none⟩]⟩ }]

def copyingTypes : TypeSystem := { lattice := .diamond, literals := [] }

def copyingUnits : List CodeUnit := [copyingUnit "A" "B", copyingUnit "B" "A"]

def copyingStore (first second : String) : ConstraintStore where
  slots := ⟨#[⟨⟨first, "items", .field⟩, .inferred none⟩,
    ⟨⟨first, "items<0>", .typeArgument⟩, .inferred none⟩,
    ⟨⟨second, "items", .field⟩, .inferred none⟩,
    ⟨⟨second, "items<0>", .typeArgument⟩, .inferred none⟩]⟩
  entries := #[⟨.subtype ⟨2⟩ ⟨0⟩, [⟨first, "copy@0:1", .fieldWrite⟩], .active⟩,
    ⟨.equality ⟨1⟩ ⟨3⟩,
      [⟨first, "copy@0:1", .typeArgument⟩, ⟨second, "copy@0:1", .typeArgument⟩], .active⟩,
    ⟨.subtype ⟨0⟩ ⟨2⟩, [⟨second, "copy@0:1", .fieldWrite⟩], .active⟩]

theorem isOk_generate_copying :
    ∀ u ∈ copyingUnits, (generate copyingTypes ⟨copyingUnits⟩ u).isOk = true := by
  simp only [copyingUnits, List.forall_mem_cons, List.not_mem_nil, IsEmpty.forall_iff,
    implies_true, and_true]
  exact ⟨by cbv, by cbv⟩

theorem ofProgram_copying :
    ofProgram true copyingTypes ⟨copyingUnits⟩ = .ok { store := copyingStore "A" "B", units := 2 } ∧
    ofProgram false copyingTypes ⟨copyingUnits.reverse⟩ =
      .ok { store := copyingStore "B" "A", units := 2 } := by
  constructor <;> cbv

/-- Two units that copy from each other. Both require their type arguments to be equal, with
operands in the order of the units, and give one constraint. -/
theorem ofProgram_renumbers_copying :
    (copyingUnits.map (·.name)).Nodup ∧
    (∀ u ∈ copyingUnits, ∃ c, generate copyingTypes ⟨copyingUnits⟩ u = .ok c) ∧
    ofProgram true copyingTypes ⟨copyingUnits⟩ = .ok { store := copyingStore "A" "B", units := 2 } ∧
    ofProgram false copyingTypes ⟨copyingUnits.reverse⟩ =
      .ok { store := copyingStore "B" "A", units := 2 } ∧
    (copyingStore "A" "B").Collects
      (fun c => ∃ u ∈ copyingUnits, generate copyingTypes ⟨copyingUnits⟩ u = .ok c) ∧
    (copyingStore "B" "A").Collects
      (fun c => ∃ u ∈ copyingUnits, generate copyingTypes ⟨copyingUnits⟩ u = .ok c) ∧
    (copyingStore "A" "B").Renumbers (copyingStore "B" "A") := by
  have hnames : (copyingUnits.map (·.name)).Nodup := by decide
  have hunits : ∀ u ∈ copyingUnits, ∃ c, generate copyingTypes ⟨copyingUnits⟩ u = .ok c := by
    intro u hu
    have hok := isOk_generate_copying u hu
    cases hc : generate copyingTypes ⟨copyingUnits⟩ u with
    | error e =>
      rw [hc] at hok
      cases hok
    | ok c => exact ⟨c, rfl⟩
  have hperm : copyingUnits.Perm copyingUnits.reverse := (List.reverse_perm copyingUnits).symm
  obtain ⟨g, g', hg, hg', -, -, hcollects, hcollects', hrenumbers⟩ :=
    ofProgram_renumbers (p := ⟨copyingUnits⟩) hnames hunits hperm true false
  obtain rfl := Except.ok.inj (hg.symm.trans ofProgram_copying.1)
  obtain rfl := Except.ok.inj (hg'.symm.trans ofProgram_copying.2)
  exact ⟨hnames, hunits, hg, hg', hcollects, hcollects', hrenumbers⟩

end Generated

end Qualify
