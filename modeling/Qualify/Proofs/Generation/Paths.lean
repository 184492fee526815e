import Qualify.Proofs.Generation.Worklist
import Qualify.Proofs.Lattice

namespace Qualify

def Body.successors (body : Body) (b : BlockId) : List BlockId :=
  match body.blocks[b]? with
  | some block => block.terminator.successors
  | none => []

/-- Blocks that follow one another from the entry on, which stands before the given ones. -/
def Body.IsPath (body : Body) (path : List BlockId) : Prop :=
  List.IsChain (fun b next => next ∈ body.successors b) (body.entry :: path)

theorem StoreRel.exists_shapes {R : Shape Location → Shape Location → Prop}
    {declared s t : FlowStore Location} (h : StoreRel declared R s t) {name : String}
    (hname : (declared.get? name).isSome = true) :
    ∃ shape shape', s.get? name = some shape ∧ t.get? name = some shape' ∧ R shape shape' := by
  have hnames := (h.names name).trans hname
  have hshapes := h.shapes name
  generalize s.get? name = o, t.get? name = o' at hnames hshapes ⊢
  cases hshapes with
  | none => cases hnames
  | some hR => exact ⟨_, _, rfl, rfl, hR⟩

namespace MethodContext

variable (c : MethodContext)

/-- Reads blocks one after the other, each with the store that the one before it was left with, to
which `enter` is applied. Gives the stores with which they are entered. -/
def readPathWith (enter : BlockId → FlowStore Location → FlowStore Location)
    (store : FlowStore Location) (b : BlockId) :
    List BlockId → Gen (List (BlockId × FlowStore Location))
  | [] => do
    discard (c.transfer b (enter b store))
    return [(b, enter b store)]
  | next :: path => do
    let outs ← c.transfer b (enter b store)
    let store' ← Gen.ofOption (.unknownBlock c.qualified next) (outs.lookup next)
    let stores ← readPathWith enter store' next path
    return (b, enter b store) :: stores

def readPath (store : FlowStore Location) (b : BlockId) (path : List BlockId) :
    Gen (List (BlockId × FlowStore Location)) :=
  c.readPathWith (fun _ store => store) store b path

variable {c} {P P' : Event → Prop} {R : Shape Location → Shape Location → Prop}

/-- Instructions are read one after the other. -/
theorem reads_instructions_append {b : BlockId} {n : Nat} {p q : Point} {is js : List Instruction} :
    (c.instructions b n p (is ++ js)).Reads P q ↔ ∃ r, (c.instructions b n p is).Reads P r ∧
      (c.instructions b (n + is.length) r js).Reads P q := by
  induction is generalizing n p with
  | nil => simp [instructions]
  | cons i is ih =>
    simp only [List.cons_append, instructions, Gen.reads_bind, ih, List.length_cons,
      Nat.add_right_comm n 1, ← Nat.add_assoc]
    constructor
    · rintro ⟨r, hi, r', his, hjs⟩
      exact ⟨r', ⟨r, hi, his⟩, hjs⟩
    · rintro ⟨r', ⟨r, hi, his⟩, hjs⟩
      exact ⟨r, hi, r', his, hjs⟩

/-- All that flows through a body is covered: the blocks were read with what enters them, and what
was merged flows into the merged shapes. -/
structure Covered (c : MethodContext) (P : Event → Prop) (s : FlowState) : Prop where
  merges : ∀ m ∈ s.merges, c.IsMerge P m
  recorded : ∀ b, c.Recorded P s b
  entered : ∀ b, ∀ store ∈ c.incoming s c.body.predecessors b,
    ∃ input, s.inputs.getD b none = some input ∧ s.merges.Enters b store input
  merged : ∀ b name shape', ((b, name), shape') ∈ s.merges →
    ∀ store ∈ c.incoming s c.body.predecessors b, ∀ shape ∈ store.get? name, shape = shape' ∨
      ∃ p, P (.require (.subtype shape.root shape'.root) p)

theorem readBody_covered (hread : c.readBody.Reads P ()) :
    ∃ s, c.fixpoint.result = .ok s ∧ c.Covered P s := by
  simp only [readBody, Gen.reads_bind, Gen.reads_requestsOnly, Gen.reads_forM, mergeFlows] at hread
  obtain ⟨s, hfixpoint, _, hblocks, hmerged⟩ := hread
  obtain ⟨hmerges, hrecorded, hentered⟩ := fixpoint_spec hfixpoint
  refine ⟨s, hfixpoint.1, fun m hm => ?_, fun b input hinput => ?_, hentered,
    fun b name shape' hmem store hstore shape hshape => ?_⟩
  · obtain ⟨hname, init, hrequest⟩ := hmerges m hm
    exact ⟨hname, init, hrequest rfl⟩
  · obtain ⟨hnames, outs, htransfer, hedges⟩ := hrecorded b input hinput
    obtain ⟨block, hblock, -⟩ := transfer_targets htransfer
    have hread := hblocks b (List.mem_range.mpr (Array.getElem?_eq_some_iff.mp hblock).1)
    simp only [readBlock, hinput, Gen.reads_discard] at hread
    obtain ⟨outs', hread⟩ := hread
    -- The fixpoint kept only the requests of this reading; here its constraints are kept, too.
    obtain rfl : outs = outs' := Except.ok.inj (htransfer.1.symm.trans hread.1)
    exact ⟨hnames, outs, hread, hedges⟩
  · have hflow := hmerged _ hmem store hstore
    simp only [mergeFlow, Option.mem_def.mp hshape] at hflow
    split_ifs at hflow with heq
    · exact .inl heq
    · exact .inr ⟨_, Gen.reads_emit.mp hflow _ List.mem_cons_self⟩

/-- What enters a block flows into the merged shapes, the type arguments included. -/
theorem readBody_mergeFlow (hread : c.readBody.Reads P ()) {s : FlowState}
    (hs : c.fixpoint.result = .ok s) :
    ∀ m ∈ s.merges, ∀ store ∈ c.incoming s c.body.predecessors m.1.1,
      (c.mergeFlow m.1.1 m.1.2 m.2 store).Reads P () := by
  simp only [readBody, Gen.reads_bind, Gen.reads_requestsOnly, Gen.reads_forM, mergeFlows] at hread
  obtain ⟨s', hfixpoint, _, -, hmerged⟩ := hread
  obtain rfl : s = s' := Except.ok.inj (hs.symm.trans hfixpoint.1)
  exact hmerged

section

variable {s : FlowState} (hs : c.Covered P s)
include hs

section

variable (h : Substitution P P' R)
  (hreceiver : ∀ shape ∈ c.receiver, ∃ init, P (.request shape.root init))
include h hreceiver

/-- One step of a path: whatever follows the block is left to with a store that stands for the one
of the edge. -/
theorem Covered.step {b : BlockId} {store input : FlowStore Location}
    (hinput : s.inputs.getD b none = some input) (hstore : StoreRel c.declared R store input) :
    ∃ outs, (c.transfer b store).Reads P' outs ∧ ∀ next ∈ c.body.successors b, ∃ store' entering,
      outs.lookup next = some store' ∧ entering ∈ c.incoming s c.body.predecessors next ∧
        StoreRel c.declared R store' entering := by
  obtain ⟨-, outs', htransfer', hedges⟩ := hs.recorded b input hinput
  obtain ⟨outs, htransfer, houts⟩ := follows_transfer h hreceiver hstore b outs' htransfer'
  obtain ⟨block, hblock, -, htargets, hsize⟩ := transfer_targets htransfer'
  refine ⟨outs, htransfer, fun next hnext => ?_⟩
  rw [Body.successors, hblock] at hnext
  have hsome : (outs'.lookup next).isSome = true := by
    obtain ⟨out, hout, heq⟩ := List.mem_map.mp ((htargets next).mpr hnext)
    exact List.lookup_isSome_iff.mpr ⟨out, hout, beq_iff_eq.mpr heq.symm⟩
  obtain ⟨entering, hentering⟩ := Option.isSome_iff_exists.mp hsome
  have hedge : s.edges.lookup (b, next) = some entering := by
    obtain ⟨_, _, rfl, -⟩ := List.lookup_eq_some_iff.mp hentering
    exact hedges (next, entering) (List.mem_append_right _ List.mem_cons_self)
  have hrel := houts.lookup next
  rw [hentering] at hrel
  cases hlookup : outs.lookup next with
  | none => rw [hlookup] at hrel; cases hrel
  | some store' =>
    rw [hlookup] at hrel
    refine ⟨store', entering, rfl, mem_incoming.mpr (.inl ⟨b, ?_, hedge⟩),
      Option.rel_some_some.mp hrel⟩
    exact Body.mem_predecessors hblock hnext (hsize next hnext)

/-- A path from a block on. The induction is on the path, and what carries it is that the store
stands for the input of the block at which the path goes on. -/
theorem Covered.readPathWith (enter : BlockId → FlowStore Location → FlowStore Location)
    (henter : ∀ {b store entering}, StoreRel c.declared R store entering →
      entering ∈ c.incoming s c.body.predecessors b → ∃ input, s.inputs.getD b none = some input ∧
      StoreRel c.declared R (enter b store) input)
    {b : BlockId} {path : List BlockId}
    (hpath : List.IsChain (fun b next => next ∈ c.body.successors b) (b :: path))
    {store input : FlowStore Location} (hinput : s.inputs.getD b none = some input)
    (hstore : StoreRel c.declared R (enter b store) input) :
    ∃ stores, (c.readPathWith enter store b path).Reads P' stores ∧ stores.map (·.1) = b :: path ∧
      ∀ x ∈ stores, ∃ input, s.inputs.getD x.1 none = some input ∧
        StoreRel c.declared R x.2 input := by
  induction path generalizing b store input with
  | nil =>
    obtain ⟨outs, htransfer, -⟩ := hs.step h hreceiver hinput hstore
    refine ⟨[(b, enter b store)], ?_, rfl, List.forall_mem_singleton.mpr ⟨input, hinput, hstore⟩⟩
    simp only [MethodContext.readPathWith, Gen.reads_bind, Gen.reads_discard, Gen.reads_pure,
      and_true]
    exact ⟨(), outs, htransfer⟩
  | cons next path ih =>
    obtain ⟨hnext, hpath⟩ := List.isChain_cons_cons.mp hpath
    obtain ⟨outs, htransfer, hnexts⟩ := hs.step h hreceiver hinput hstore
    obtain ⟨store', entering, hlookup, hentering, hrel⟩ := hnexts next hnext
    obtain ⟨input', hinput', hstore'⟩ := henter hrel hentering
    obtain ⟨stores, hread, hblocks, hstores⟩ := ih hpath hinput' hstore'
    refine ⟨(b, enter b store) :: stores, ?_, by rw [List.map_cons, hblocks],
      List.forall_mem_cons.mpr ⟨⟨input, hinput, hstore⟩, hstores⟩⟩
    simp only [MethodContext.readPathWith, Gen.reads_bind, Gen.reads_ofOption, Gen.reads_pure]
    exact ⟨outs, htransfer, store', hlookup, stores, hread, rfl⟩

end

variable (h : Simulation P P' R)
include h

/-- What stands for a store also stands for the one with which the block is read that the store
enters. -/
theorem Covered.storeRel_input {b : BlockId} {store entering : FlowStore Location}
    (hstore : StoreRel c.declared R store entering)
    (hentering : entering ∈ c.incoming s c.body.predecessors b) :
    ∃ input, s.inputs.getD b none = some input ∧ StoreRel c.declared R store input := by
  obtain ⟨input, hinput, henters⟩ := hs.entered b entering hentering
  refine ⟨input, hinput, (hs.recorded b input hinput).1, fun name => ?_⟩
  -- A shape is the same in the input, or it flows into a merged one.
  refine (hstore.shapes name).comp (henters name) fun shape shape₀ hshape₀ shape' hR hshape' => ?_
  obtain rfl | hmem := hshape'
  · exact hR
  · obtain rfl | ⟨p, hp⟩ := hs.merged b name shape' hmem entering hentering shape₀ hshape₀
    · exact hR
    · obtain ⟨-, init, hrequest⟩ := hs.merges _ hmem
      exact h.merge hR hp hrequest

variable (hreceiver : ∀ shape ∈ c.receiver, ∃ init, P (.request shape.root init))
include hreceiver

/-- A path from the entry on, where the declarations are what is known. -/
theorem Covered.readPath_entry
    (hdeclared : ∀ name, ∀ shape ∈ c.declared.get? name, ∃ init, P (.request shape.root init))
    {path : List BlockId} (hpath : c.body.IsPath path) :
    ∃ stores, (c.readPath c.declared c.body.entry path).Reads P' stores ∧
      stores.map (·.1) = c.body.entry :: path ∧
      ∀ x ∈ stores, ∃ input, s.inputs.getD x.1 none = some input ∧
        StoreRel c.declared R x.2 input := by
  have hstart : StoreRel c.declared R c.declared c.declared := by
    refine ⟨fun _ => rfl, fun name => Option.rel_of_isSome_eq rfl
      fun shape hshape shape' hshape' => ?_⟩
    obtain rfl := Option.some.inj (hshape.symm.trans hshape')
    obtain ⟨init, hrequest⟩ := hdeclared name shape hshape
    exact h.fresh hrequest
  obtain ⟨input, hinput, hstore⟩ := hs.storeRel_input h hstart (mem_incoming.mpr (.inr ⟨rfl, rfl⟩))
  exact hs.readPathWith h.substitution hreceiver (fun _ store => store) (hs.storeRel_input h) hpath
    hinput hstore

end

end MethodContext

namespace Surroundings

variable {g : Surroundings} {P : Event → Prop}

theorem readMethod_eq {m : Method} {body : Body} (hbody : m.body = some body) :
    g.readMethod m = g.declare m body >>= MethodContext.readBody := by
  rw [readMethod, hbody]

theorem readUnit_method {u : CodeUnit} (hread : (g.readUnit u).Reads P ()) :
    ∀ m ∈ u.methods, (g.readMethod m).Reads P () := by
  unfold readUnit at hread
  split at hread
  · exact absurd hread Gen.not_reads_fail
  · obtain ⟨_, -, hmethods⟩ := Gen.reads_bind.mp hread
    exact Gen.reads_forM.mp hmethods

theorem declareEach_requested {declare : Variable → Gen (Shape Location)}
    (hdeclare : ∀ {v shape}, (declare v).Reads P shape → ∃ init, P (.request shape.root init))
    {vs : List Variable} {store store' : FlowStore Location}
    (hread : (declareEach declare store vs).Reads P store')
    (hstore : ∀ name, ∀ shape ∈ store.get? name, ∃ init, P (.request shape.root init)) :
    ∀ name, ∀ shape ∈ store'.get? name, ∃ init, P (.request shape.root init) := by
  induction vs generalizing store with
  | nil =>
    obtain rfl := Gen.reads_pure.mp hread
    exact hstore
  | cons v vs ih =>
    obtain ⟨shape, hshape, hread⟩ := Gen.reads_bind.mp hread
    refine ih hread fun name shape' hshape' => ?_
    rw [FlowStore.get?_set, Option.mem_def] at hshape'
    split_ifs at hshape'
    · cases hshape'
      exact hdeclare hshape
    · exact hstore name shape' hshape'

/-- The slots of the receiver and of all local variables are requested. -/
theorem declare_spec {m : Method} {body : Body} {c : MethodContext}
    (hread : (g.declare m body).Reads P c) :
    c.body = body ∧ (∀ shape ∈ c.receiver, ∃ init, P (.request shape.root init)) ∧
      ∀ name, ∀ shape ∈ c.declared.get? name, ∃ init, P (.request shape.root init) := by
  simp only [declare, Gen.reads_bind, Gen.reads_pure] at hread
  obtain ⟨receiver, hreceiver, params, hparams, _, -, _, -, declared, hdeclared, rfl⟩ := hread
  refine ⟨rfl, fun shape hshape => ?_, ?_⟩
  · obtain rfl : receiver = some shape := hshape
    cases hr : m.receiver with
    | none =>
      rw [hr] at hreceiver
      cases Gen.reads_pure.mp hreceiver
    | some t =>
      rw [hr] at hreceiver
      obtain ⟨_, htype, hsome⟩ := Gen.reads_bind.mp hreceiver
      obtain rfl := Option.some.inj (Gen.reads_pure.mp hsome)
      exact g.typeUse_root htype
  · refine declareEach_requested (g.typeUse_root ·) hdeclared
      (declareEach_requested (g.typeUse_root ·) hparams ?_)
    rintro _ _ ⟨⟩

end Surroundings

theorem Constraint.holds_subtype_trans {d : LatticeDescription} {l : Lattice}
    (hl : Lattice.load d = .ok l) {value : SlotId → Option Qualifier} {i j k : SlotId}
    (hij : (subtype i j).holds l value = some true)
    (hjk : (subtype j k).holds l value = some true) : (subtype i k).holds l value = some true := by
  obtain ⟨p, q, hp, hq, hpq⟩ := holds_subtype.mp hij
  obtain ⟨q', r, hq', hr, hqr⟩ := holds_subtype.mp hjk
  obtain rfl := Option.some.inj (hq.symm.trans hq')
  exact holds_subtype.mpr ⟨p, r, hp, hr, Lattice.load_trans hl hpq hqr⟩

namespace UnitConstraints

/-- The slots have qualifiers of the lattice under which the constraints hold that have to. -/
structure Models (u : UnitConstraints) (l : Lattice) (value : SlotId → Option Qualifier) :
    Prop where
  assigned : ∀ i, i.index < u.slots.size → ∃ q ∈ l.qualifiers, value i = some q
  holds : ∀ x ∈ u.constraints, x.1.isSoft = false → x.1.holds l value = some true

def Below (u : UnitConstraints) (l : Lattice) (value : SlotId → Option Qualifier) (a b : Location) :
    Prop :=
  ∃ i j, u.slots.lookup a = some i ∧ u.slots.lookup b = some j ∧
    (Constraint.subtype i j).holds l value = some true

/-- A reading may request slots that the unit has, and what flows in it has to hold. -/
def Accepts (u : UnitConstraints) (l : Lattice) (value : SlotId → Option Qualifier) : Event → Prop
  | .request a init => u.slots.Has a init
  | .require c p =>
    p.rule.isFlow = true → (c.map fun a => (u.slots.lookup a).getD ⟨0⟩).holds l value = some true

/-- What the reading of a unit requires holds, and so do preferences, which hold under all
values. -/
theorem Models.holds_of_mem {l : Lattice} {u : UnitConstraints} {value : SlotId → Option Qualifier}
    (hu : u.Models l value) {es : List Event}
    (hconstraints : u.constraints = Event.constraints u.slots es) {c : Constraint Location}
    {p : Provenance} (hmem : .require c p ∈ es) :
    (c.map fun a => (u.slots.lookup a).getD ⟨0⟩).holds l value = some true := by
  cases hsoft : c.isSoft with
  | true =>
    obtain ⟨_, _, _, rfl⟩ := Constraint.isSoft_iff.mp hsoft
    rfl
  | false =>
    refine hu.holds (_, p) (hconstraints ▸ Event.mem_constraints.mpr ⟨c, p, hmem, rfl⟩) ?_
    rw [Constraint.isSoft_map, hsoft]

section

variable {d : LatticeDescription} {l : Lattice} (hl : Lattice.load d = .ok l) {u : UnitConstraints}
  {value : SlotId → Option Qualifier} (hu : u.Models l value)
include hl hu

theorem Models.below_self {a : Location} {init : SlotInit} (ha : u.slots.Has a init) :
    u.Below l value a a := by
  obtain ⟨i, hi, hsize⟩ := ha.lookup
  obtain ⟨q, hq, hvalue⟩ := hu.assigned i hsize
  exact ⟨i, i, hi, hi, Constraint.holds_subtype.mpr
    ⟨q, q, hvalue, hvalue, (Lattice.load_bounded hl).refl q hq⟩⟩

/-- Under the values a shape below another one may stand for it. -/
theorem Models.simulation {es : List Event} (hslots : Event.slotTable {} es = .ok u.slots)
    (hconstraints : u.constraints = Event.constraints u.slots es) :
    Simulation (· ∈ es) (u.Accepts l value) fun shape shape' =>
      u.Below l value shape.root shape'.root := by
  have hhas := (Event.slotTable_spec hslots).2
  have hholds {a b : Location} {j : SlotId} {p : Provenance} (ha : u.slots.lookup a = some j)
      (hmem : .require (.subtype a b) p ∈ es) :
      (Constraint.subtype j ((u.slots.lookup b).getD ⟨0⟩)).holds l value = some true := by
    have hx := hu.holds_of_mem hconstraints hmem
    rwa [Constraint.map, ha] at hx
  constructor
  case keep =>
    rintro (⟨a, init⟩ | ⟨c, p⟩) he
    · exact hhas a init he
    · exact fun _ => hu.holds_of_mem hconstraints he
  case fresh => exact fun hrequest => hu.below_self hl (hhas _ _ hrequest)
  case flow =>
    rintro shape shape' target p ⟨i, j, hi, hj, hij⟩ hmem -
    rw [Constraint.map, hi]
    exact Constraint.holds_subtype_trans hl hij (hholds hj hmem)
  case withRoot => exact fun _ hrequest => hu.below_self hl (hhas _ _ hrequest)
  case merge =>
    rintro shape shape₀ shape' init p ⟨i, j, hi, hj, hij⟩ hmem hrequest
    obtain ⟨k, hk, -⟩ := (hhas _ _ hrequest).lookup
    have hjk := hholds hj hmem
    rw [hk] at hjk
    exact ⟨i, k, hi, hk, Constraint.holds_subtype_trans hl hij hjk⟩
  case free => exact fun c p hrule hflow => absurd hflow (by rw [hrule]; nofun)

end

end UnitConstraints

theorem generate_cases {types : TypeSystem} {program : Program} {u : CodeUnit}
    {generated : UnitConstraints} (h : generate types program u = .ok generated) :
    ∃ es, (Surroundings.readUnit ⟨types, program, u.name⟩ u).Reads (· ∈ es) () ∧
      Event.slotTable {} es = .ok generated.slots ∧
        generated.constraints = Event.constraints generated.slots es :=
  ⟨_, generate_eq_ok h⟩

/-- Every path through a body can be read on its own, without slots that the unit does not have.
Under all values that the unit allows, what flows on the way holds, and each local variable is below
what it is in the fixpoint. -/
theorem generate_paths_sound {d : LatticeDescription} {types : TypeSystem} {program : Program}
    {u : CodeUnit} {generated : UnitConstraints} {value : SlotId → Option Qualifier} {m : Method}
    {body : Body} (hlattice : Lattice.load d = .ok types.lattice)
    (hgenerate : generate types program u = .ok generated)
    (hvalue : generated.Models types.lattice value) (hm : m ∈ u.methods)
    (hbody : m.body = some body) :
    ∃ c s, (Surroundings.declare ⟨types, program, u.name⟩ m body).result = .ok c ∧
      c.fixpoint.result = .ok s ∧
      ∀ path, body.IsPath path → ∃ stores,
        let run := c.readPath c.declared body.entry path
        run.result = .ok stores ∧ stores.map (·.1) = body.entry :: path ∧
        Event.slotTable generated.slots run.events = .ok generated.slots ∧
        (∀ x ∈ Event.constraints generated.slots run.events, x.2.rule.isFlow = true →
          x.1.holds types.lattice value = some true) ∧
        ∀ x ∈ stores, ∃ input, s.inputs.getD x.1 none = some input ∧
          ∀ name ∈ c.declared.names, ∃ shape shape', x.2.get? name = some shape ∧
            input.get? name = some shape' ∧
            generated.Below types.lattice value shape.root shape'.root := by
  obtain ⟨es, hunit, hslots, hconstraints⟩ := generate_cases hgenerate
  have hmethod := Surroundings.readUnit_method hunit m hm
  rw [Surroundings.readMethod_eq hbody, Gen.reads_bind] at hmethod
  obtain ⟨c, hdeclare, hread⟩ := hmethod
  obtain ⟨rfl, hreceiver, hdeclared⟩ := Surroundings.declare_spec hdeclare
  obtain ⟨s, hfixpoint, hs⟩ := MethodContext.readBody_covered hread
  have hsim := hvalue.simulation hlattice hslots hconstraints
  refine ⟨c, s, hdeclare.1, hfixpoint, fun path hpath => ?_⟩
  obtain ⟨stores, hrun, hblocks, hstores⟩ := hs.readPath_entry hsim hreceiver hdeclared hpath
  refine ⟨stores, hrun.1, hblocks, Event.slotTable_eq_self fun _ _ hmem => hrun.2 _ hmem,
    fun x hx hflow => ?_, fun x hx => ?_⟩
  · obtain ⟨c', p, hmem, rfl⟩ := Event.mem_constraints.mp hx
    exact hrun.2 _ hmem hflow
  · obtain ⟨input, hinput, hstore⟩ := hstores x hx
    exact ⟨input, hinput, fun name hname => hstore.exists_shapes (FlowStore.mem_names.mp hname)⟩

/-- A loop that gives a local variable a literal, after it was given a parameter. -/
def loopBody : Body where
  entry := 0
  blocks := #[
    ⟨[.readLocal 0 "x", .assign (.localVariable "y") 0], .goto 1⟩,
    ⟨[.readLocal 0 "y", .readLocal 1 "x", .compare 2 .lt 0 1], .branch 2 2 3⟩,
    ⟨[.literal 0 .integer, .assign (.localVariable "y") 0], .goto 1⟩,
    ⟨[.readLocal 0 "y"], .ret (some 0)⟩]

def loopMethod : Method where
  name := "m"
  receiver := none
  params := [⟨"x", .plain⟩]
  returns := some .plain
  typeParams := []
  locals := [⟨"y", .plain⟩]
  body := some loopBody

def loopUnit : CodeUnit := ⟨"U", [], [loopMethod]⟩

def loopTypes : TypeSystem := { lattice := .diamond, literals := [(.integer, ⟨2⟩)] }

def loopConstraints : UnitConstraints where
  unit := "U"
  slots :=
    ⟨#[⟨⟨"U", "m#x", .parameter⟩, .inferred none⟩, ⟨⟨"U", "m#return", .result⟩, .inferred none⟩,
    ⟨⟨"U", "m#y", .localVariable⟩, .inferred none⟩, ⟨⟨"U", "m@1:2", .expression⟩, .inferred none⟩,
    ⟨⟨"U", "m@2:0", .literal⟩, .fixed ⟨2⟩⟩, ⟨⟨"U", "m@1#y", .merge⟩, .inferred none⟩]⟩
  constraints := [(.subtype ⟨0⟩ ⟨2⟩, ⟨"U", "m@0:1", .assignment⟩),
    (.comparable ⟨5⟩ ⟨0⟩, ⟨"U", "m@1:2", .comparison⟩),
    (.subtype ⟨4⟩ ⟨2⟩, ⟨"U", "m@2:1", .assignment⟩), (.subtype ⟨5⟩ ⟨1⟩, ⟨"U", "m@3:1", .returned⟩),
    (.subtype ⟨0⟩ ⟨5⟩, ⟨"U", "m@1#y", .merge⟩), (.subtype ⟨4⟩ ⟨5⟩, ⟨"U", "m@1#y", .merge⟩)]

def loopValue (i : SlotId) : Option Qualifier := [1, 3, 3, 0, 2, 3][i.index]?.map Qualifier.mk

/-- Once around the loop, the literal is what is returned. -/
theorem generate_paths_sound_loop : generate loopTypes ⟨[loopUnit]⟩ loopUnit = .ok loopConstraints ∧
    loopConstraints.Models .diamond loopValue ∧ loopBody.IsPath [1, 2, 1, 3] ∧ ∃ c s stores,
      (Surroundings.declare ⟨loopTypes, ⟨[loopUnit]⟩, "U"⟩ loopMethod loopBody).result = .ok c ∧
      let run := c.readPath c.declared 0 [1, 2, 1, 3]
      c.fixpoint.result = .ok s ∧ run.result = .ok stores ∧ stores.map (·.1) = [0, 1, 2, 1, 3] ∧
      (∀ x ∈ Event.constraints loopConstraints.slots run.events, x.2.rule.isFlow = true →
        x.1.holds .diamond loopValue = some true) ∧
      ∀ x ∈ stores, ∃ input, s.inputs.getD x.1 none = some input ∧
        ∀ name ∈ c.declared.names, ∃ shape shape', x.2.get? name = some shape ∧
          input.get? name = some shape' ∧
          loopConstraints.Below .diamond loopValue shape.root shape'.root := by
  have hgenerate : generate loopTypes ⟨[loopUnit]⟩ loopUnit = .ok loopConstraints := by cbv
  have hmodels : loopConstraints.Models .diamond loopValue := by
    have hassigned : ∀ i < 6, ∃ q ∈ Lattice.diamond.qualifiers, loopValue ⟨i⟩ = some q := by decide
    exact ⟨fun i hi => hassigned i.index hi, by decide⟩
  have hpath : loopBody.IsPath [1, 2, 1, 3] := by
    simp [Body.IsPath, Body.successors, loopBody, Terminator.successors]
  obtain ⟨c, s, hdeclare, hfixpoint, hpaths⟩ :=
    generate_paths_sound Lattice.load_diamond hgenerate hmodels List.mem_cons_self rfl
  obtain ⟨stores, hrun, hblocks, -, hflows, hstores⟩ := hpaths _ hpath
  exact ⟨hgenerate, hmodels, hpath, c, s, stores, hdeclare, hfixpoint, hrun, hblocks, hflows,
    hstores⟩

end Qualify
