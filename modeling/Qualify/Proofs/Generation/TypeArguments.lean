import Qualify.Proofs.Generation.Flows

namespace Qualify

namespace Shape

variable {σ : Type}

/-- The slot at a place, which is given by the numbers of type arguments, one inside of the
other. -/
def slotAt? : List Nat → Shape σ → Option σ
  | [], s => some s.root
  | i :: place, s => s.args[i]?.bind (slotAt? place)

mutual

/-- The shape without the type arguments that have no place in the other one. -/
def cut : Shape σ → Shape σ → Shape σ
  | mk r as, mk _ as' => mk r (cutEach as as')

def cutEach : List (Shape σ) → List (Shape σ) → List (Shape σ)
  | s :: ss, s' :: ss' => cut s s' :: cutEach ss ss'
  | _, _ => []

end

@[simp] theorem root_cut (s s' : Shape σ) : (s.cut s').root = s.root := by
  cases s
  cases s'
  rfl

theorem args_cut (s s' : Shape σ) : (s.cut s').args = cutEach s.args s'.args := by
  cases s
  cases s'
  rfl

theorem getElem?_cutEach (ss ss' : List (Shape σ)) (i : Nat) :
    (cutEach ss ss')[i]? = ss[i]?.bind fun s => ss'[i]?.map s.cut := by
  induction ss generalizing ss' i with
  | nil => cases ss' <;> simp [cutEach]
  | cons s ss ih =>
    cases ss' with
    | nil => cases h : (s :: ss)[i]? <;> simp [cutEach]
    | cons s' ss' =>
      cases i with
      | zero => simp [cutEach]
      | succ i => simpa [cutEach] using ih ss' i

/-- The places of a shape that was cut are those that both have. -/
theorem slotAt?_cut {place : List Nat} {s s' : Shape σ} {a : σ}
    (h : (s.cut s').slotAt? place = some a) :
    s.slotAt? place = some a ∧ ∃ b, s'.slotAt? place = some b := by
  induction place generalizing s s' with
  | nil => exact ⟨by simpa [slotAt?] using h, s'.root, rfl⟩
  | cons i place ih =>
    rw [slotAt?, args_cut, getElem?_cutEach] at h
    cases hs : s.args[i]? with
    | none => simp [hs] at h
    | some t =>
      cases hs' : s'.args[i]? with
      | none => simp [hs, hs'] at h
      | some t' =>
        rw [slotAt?, slotAt?, hs, hs']
        exact ih (by simpa [hs, hs'] using h)

end Shape

namespace Surroundings

mutual

theorem mem_equalities {c : Constraint Location} : (s s' : Shape Location) → (c ∈ equalities s s' ↔
    ∃ place a b, s.slotAt? place = some a ∧ s'.slotAt? place = some b ∧ c = .equality a b)
  | .mk r as, .mk r' as' => by
    rw [equalities, List.mem_cons, mem_argumentEqualities as as']
    constructor
    · rintro (rfl | ⟨i, place, a, b, ha, hb, rfl⟩)
      · exact ⟨[], r, r', rfl, rfl, rfl⟩
      · exact ⟨i :: place, a, b, ha, hb, rfl⟩
    · rintro ⟨_ | ⟨i, place⟩, a, b, ha, hb, rfl⟩
      · cases ha
        cases hb
        exact .inl rfl
      · exact .inr ⟨i, place, a, b, ha, hb, rfl⟩

/-- There is an equality for each place that both have. -/
theorem mem_argumentEqualities {c : Constraint Location} : (ss ss' : List (Shape Location)) →
    (c ∈ argumentEqualities ss ss' ↔ ∃ (i : Nat) (place : List Nat) (a b : Location),
      ss[i]?.bind (Shape.slotAt? place) = some a ∧ ss'[i]?.bind (Shape.slotAt? place) = some b ∧
        c = .equality a b)
  | [], ss' => by cases ss' <;> simp [argumentEqualities]
  | s :: ss, [] => by simp [argumentEqualities]
  | s :: ss, s' :: ss' => by
    rw [argumentEqualities, List.mem_append, mem_equalities s s', mem_argumentEqualities ss ss']
    constructor
    · rintro (⟨place, a, b, ha, hb, rfl⟩ | ⟨i, place, a, b, ha, hb, rfl⟩)
      · exact ⟨0, place, a, b, ha, hb, rfl⟩
      · exact ⟨i + 1, place, a, b, ha, hb, rfl⟩
    · rintro ⟨_ | i, place, a, b, ha, hb, rfl⟩
      · exact .inl ⟨place, a, b, ha, hb, rfl⟩
      · exact .inr ⟨i, place, a, b, ha, hb, rfl⟩

end

end Surroundings

namespace FlowStore

variable {σ : Type}

def cut (s t : FlowStore σ) : FlowStore σ :=
  ⟨s.locals.map fun x => (x.1, ((t.get? x.1).map x.2.cut).getD x.2)⟩

theorem get?_cut (s t : FlowStore σ) (name : String) :
    (s.cut t).get? name = (s.get? name).map
      fun shape => ((t.get? name).map shape.cut).getD shape := by
  obtain ⟨locals⟩ := s
  induction locals with
  | nil => rfl
  | cons x rest ih =>
    obtain ⟨n, shape⟩ := x
    simp only [cut, get?, List.map_cons, List.lookup_cons_eq_ite] at ih ⊢
    split_ifs with hname
    · rw [hname, Option.map_some]
    · exact ih

end FlowStore

/-- Where a block is entered, local variables keep the type arguments that they have in the
fixpoint. -/
def FlowState.cut (s : FlowState) (b : BlockId) (store : FlowStore Location) : FlowStore Location :=
  match s.inputs.getD b none with
  | some input => store.cut input
  | none => store

namespace UnitConstraints

variable (u : UnitConstraints) (l : Lattice) (value : SlotId → Option Qualifier)

def valueAt (a : Location) : Option Qualifier := value ((u.slots.lookup a).getD ⟨0⟩)

/-- The type arguments of the first shape are in the second one, too, and have the same qualifiers
there. -/
def SameArguments (s s' : Shape Location) : Prop :=
  ∀ i place a, s.slotAt? (i :: place) = some a →
    ∃ b, s'.slotAt? (i :: place) = some b ∧ u.valueAt value a = u.valueAt value b

def AcceptsArguments : Event → Prop
  | .request .. => True
  | .require c p =>
    p.rule = .typeArgument → (c.map fun a => (u.slots.lookup a).getD ⟨0⟩).holds l value = some true

/-- Type arguments at the same place of two shapes have the same qualifier. -/
def EqualArguments (source target : Shape Location) : Prop :=
  ∀ i place a b, source.slotAt? (i :: place) = some a → target.slotAt? (i :: place) = some b →
    ∃ q, u.valueAt value a = some q ∧ u.valueAt value b = some q

variable {u l value}

theorem SameArguments.refl (s : Shape Location) : u.SameArguments value s s :=
  fun _ _ a ha => ⟨a, ha, rfl⟩

/-- What flows has the same type arguments as its target, as far as both have them. -/
theorem equalArguments_of_reads {g : Surroundings} {source target : Shape Location}
    {position : String} {rule : Rule}
    (hread : (g.flowInto source target position rule).Reads (u.AcceptsArguments l value) ()) :
    u.EqualArguments value source target := by
  intro i place a b ha hb
  have hequality := (Surroundings.mem_argumentEqualities source.args target.args).mpr
    ⟨i, place, a, b, ha, hb, rfl⟩
  have haccepts := Gen.reads_emit.mp hread _
    (List.mem_cons_of_mem _ (List.mem_map_of_mem hequality))
  have hholds := haccepts rfl
  obtain ⟨q, hq⟩ := Constraint.holds_equality.mp hholds
  exact ⟨q, hq⟩

section

variable (hu : u.Models l value) {es : List Event}
  (hconstraints : u.constraints = Event.constraints u.slots es)
include hu hconstraints

theorem Models.acceptsArguments {e : Event} (he : e ∈ es) : u.AcceptsArguments l value e := by
  cases e with
  | request => trivial
  | require c p => exact fun _ => hu.holds_of_mem hconstraints he

/-- Under the values, a shape may stand for one that has the same type arguments. -/
theorem Models.argumentSubstitution :
    Substitution (· ∈ es) (u.AcceptsArguments l value) (u.SameArguments value) where
  keep _ he := hu.acceptsArguments hconstraints he
  fresh _ := .refl _
  flow := by
    intro g shape shape' target position rule hrule hshape hread
    have hequal := equalArguments_of_reads (hread.mono fun _ => hu.acceptsArguments hconstraints)
    refine Gen.reads_emit.mpr fun e he => ?_
    obtain rfl | he := List.mem_cons.mp he
    · rintro rfl
      cases hrule
    · obtain ⟨c, hc, rfl⟩ := List.mem_map.mp he
      intro _
      obtain ⟨i, place, a, b, ha, hb, rfl⟩ := (Surroundings.mem_argumentEqualities _ _).mp hc
      obtain ⟨a', ha', hsame⟩ := hshape i place a ha
      obtain ⟨q, hq, hq'⟩ := hequal i place a' b ha' hb
      exact Constraint.holds_equality.mpr ⟨q, hsame.trans hq, hq'⟩
  withRoot hshape _ := hshape
  free c p _ hargument hrule := absurd hrule hargument

/-- Where a block is entered, what is left of the type arguments is the same in the fixpoint. -/
theorem Models.storeRel_cut {c : MethodContext} {s : FlowState} (hs : c.Covered (· ∈ es) s)
    (hflows : ∀ m ∈ s.merges, ∀ store ∈ c.incoming s c.body.predecessors m.1.1,
      (c.mergeFlow m.1.1 m.1.2 m.2 store).Reads (· ∈ es) ())
    {b : BlockId} {store entering : FlowStore Location}
    (hstore : StoreRel c.declared (u.SameArguments value) store entering)
    (hentering : entering ∈ c.incoming s c.body.predecessors b) :
    ∃ input, s.inputs.getD b none = some input ∧
      StoreRel c.declared (u.SameArguments value) (s.cut b store) input := by
  obtain ⟨input, hinput, henters⟩ := hs.entered b entering hentering
  refine ⟨input, hinput, (hs.recorded b input hinput).1, fun name => ?_⟩
  -- What enters flows into the input, as far as this is a merged shape.
  have hflow : ∀ shape₀ ∈ entering.get? name, ∀ shape', shape' = shape₀ ∨
      ((b, name), shape') ∈ s.merges →
      ∀ {i place a a'}, shape₀.slotAt? (i :: place) = some a →
      shape'.slotAt? (i :: place) = some a' →
        u.valueAt value a = u.valueAt value a' := by
    rintro shape₀ hshape₀ shape' (rfl | hmem) i place a a' ha ha'
    · rw [Option.some.inj (ha.symm.trans ha')]
    · have hread := hflows _ hmem entering hentering
      rw [MethodContext.mergeFlow, Option.mem_def.mp hshape₀] at hread
      dsimp only at hread
      split_ifs at hread with heq
      · rw [heq, ha'] at ha
        rw [Option.some.inj ha]
      · have hequal :=
          equalArguments_of_reads (hread.mono fun _ => hu.acceptsArguments hconstraints)
        obtain ⟨q, hq, hq'⟩ := hequal i place a a' ha ha'
        rw [hq, hq']
  have hshapes := hstore.shapes name
  have hentered := henters name
  rw [FlowState.cut, hinput]
  dsimp only
  rw [FlowStore.get?_cut]
  generalize store.get? name = o, entering.get? name = o₀,
    input.get? name = o' at hshapes hentered hflow ⊢
  cases hentered with
  | none =>
    cases hshapes
    exact .none
  | some hentered =>
    cases hshapes with
    | some hsame =>
      refine .some fun i place a ha => ?_
      obtain ⟨ha, a', ha'⟩ := Shape.slotAt?_cut ha
      obtain ⟨a₀, ha₀, heq⟩ := hsame i place a ha
      exact ⟨a', ha', heq.trans (hflow _ rfl _ hentered ha₀ ha')⟩

end

end UnitConstraints

/-- If no store is changed, the stores with which the blocks are entered are the same. -/
theorem MethodContext.readPathWith_of_enter_eq {c : MethodContext}
    {enter : BlockId → FlowStore Location → FlowStore Location} {store : FlowStore Location}
    {b : BlockId} {path : List BlockId} {stores : List (BlockId × FlowStore Location)}
    {P : Event → Prop} (hrun : (c.readPath store b path).Reads P stores)
    (henter : ∀ x ∈ stores, enter x.1 x.2 = x.2) :
    (c.readPathWith enter store b path).Reads P stores := by
  unfold readPath at hrun
  induction path generalizing store b stores with
  | nil =>
    simp only [readPathWith, Gen.reads_bind, Gen.reads_pure] at hrun ⊢
    obtain ⟨_, htransfer, rfl⟩ := hrun
    rw [henter (b, store) List.mem_cons_self]
    exact ⟨(), htransfer, rfl⟩
  | cons next path ih =>
    simp only [readPathWith, Gen.reads_bind, Gen.reads_pure] at hrun ⊢
    obtain ⟨outs, houts, store', hstore', rest, hrest, rfl⟩ := hrun
    obtain ⟨hhead, henter⟩ := List.forall_mem_cons.mp henter
    rw [hhead]
    exact ⟨outs, houts, store', hstore', rest, ih hrest henter, rfl⟩

/-- Every path through a body can be read on its own. Under all values that the unit allows, type
arguments do not vary as far as they are not lost on the way: wherever a value becomes one of a
declared type, the type arguments at the same place of both have the same qualifier. So nothing
varies along a path on which nothing gets lost. -/
theorem generate_arguments_invariant {d : LatticeDescription} {types : TypeSystem}
    {program : Program} {u : CodeUnit} {generated : UnitConstraints}
    {value : SlotId → Option Qualifier} {m : Method} {body : Body}
    (hlattice : Lattice.load d = .ok types.lattice)
    (hgenerate : generate types program u = .ok generated)
    (hvalue : generated.Models types.lattice value) (hm : m ∈ u.methods)
    (hbody : m.body = some body) :
    ∃ c s, (Surroundings.declare ⟨types, program, u.name⟩ m body).result = .ok c ∧
      c.fixpoint.result = .ok s ∧ ∀ path, body.IsPath path → ∃ stores kept,
        (c.readPath c.declared body.entry path).result = .ok stores ∧
        stores.map (·.1) = body.entry :: path ∧
        (c.readPathWith s.cut c.declared body.entry path).result = .ok kept ∧
        kept.map (·.1) = body.entry :: path ∧
        (∀ x ∈ kept, ∀ source target rule, c.Flows x.1 x.2 source target rule →
          generated.EqualArguments value source target) ∧
        ((∀ x ∈ stores, s.cut x.1 x.2 = x.2) → ∀ x ∈ stores, ∀ source target rule,
          c.Flows x.1 x.2 source target rule → generated.EqualArguments value source target) := by
  obtain ⟨es, hunit, hslots, hconstraints⟩ := generate_cases hgenerate
  have hmethod := Surroundings.readUnit_method hunit m hm
  rw [Surroundings.readMethod_eq hbody, Gen.reads_bind] at hmethod
  obtain ⟨c, hdeclare, hread⟩ := hmethod
  obtain ⟨rfl, hreceiver, hdeclared⟩ := Surroundings.declare_spec hdeclare
  obtain ⟨s, hfixpoint, hs⟩ := MethodContext.readBody_covered hread
  have hflows := MethodContext.readBody_mergeFlow hread hfixpoint
  have hsub := hvalue.argumentSubstitution hconstraints
  have hstart : StoreRel c.declared (generated.SameArguments value) c.declared c.declared := by
    refine ⟨fun _ => rfl, fun name =>
      Option.rel_of_isSome_eq rfl fun shape hshape shape' hshape' => ?_⟩
    obtain rfl := Option.some.inj (hshape.symm.trans hshape')
    exact .refl shape
  obtain ⟨input, hinput, hstore⟩ := hvalue.storeRel_cut hconstraints hs hflows hstart
    (MethodContext.mem_incoming.mpr (.inr ⟨rfl, rfl⟩))
  refine ⟨c, s, hdeclare.1, hfixpoint, fun path hpath => ?_⟩
  obtain ⟨stores, hrun, hblocks, -⟩ := hs.readPath_entry
    (hvalue.simulation hlattice hslots hconstraints) hreceiver hdeclared hpath
  obtain ⟨kept, hkeeping, hkept, -⟩ := hs.readPathWith hsub hreceiver s.cut
    (hvalue.storeRel_cut hconstraints hs hflows) hpath hinput hstore
  have hequal : ∀ x ∈ kept, ∀ source target rule, c.Flows x.1 x.2 source target rule →
      generated.EqualArguments value source target := by
    intro x hx source target rule hflow
    obtain ⟨outs, htransfer⟩ := MethodContext.reads_transfer_of_readPathWith hkeeping x hx
    obtain ⟨position, hread⟩ := MethodContext.reads_flowInto_of_transfer htransfer hflow
    exact UnitConstraints.equalArguments_of_reads hread
  refine ⟨stores, kept, hrun.1, hblocks, hkeeping.1, hkept, hequal, fun hsame => ?_⟩
  -- Nothing is dropped, so that both ways of reading enter the blocks alike.
  have hall := MethodContext.readPathWith_of_enter_eq hrun hsame
  obtain rfl := Except.ok.inj (hall.1.symm.trans hkeeping.1)
  exact hequal

/-- A local variable that is given a value in one of two ways and then copied. -/
def joinBody (first second : List Instruction) : Body where
  entry := 0
  blocks := #[⟨[.readLocal 0 "c"], .branch 0 1 2⟩, ⟨first, .goto 3⟩, ⟨second, .goto 3⟩,
    ⟨[.readLocal 0 "x", .assign (.localVariable "y") 0], .ret none⟩]

def joinMethod (first second : List Instruction) (x y : TypeUse) : Method where
  name := "m"
  receiver := none
  params := [⟨"c", .plain⟩]
  returns := none
  typeParams := []
  locals := [⟨"x", x⟩, ⟨"y", y⟩]
  body := some (joinBody first second)

def joinTypes : TypeSystem := { lattice := .diamond }

def joinContext (first second : List Instruction) (x y : TypeUse) (declared : FlowStore Location) :
    MethodContext where
  surroundings := ⟨joinTypes, ⟨[⟨"U", [], [joinMethod first second x y]⟩]⟩, "U"⟩
  method := joinMethod first second x y
  body := joinBody first second
  receiver := none
  returns := none
  declared := declared

theorem isPath_join {first second : List Instruction} {b : BlockId} (hb : b = 1 ∨ b = 2) :
    (joinBody first second).IsPath [b, 3] := by
  rcases hb with rfl | rfl <;>
    simp [Body.IsPath, Body.successors, joinBody, Terminator.successors]

/-- In the last block the first variable flows into the second one. -/
theorem flows_copy {first second : List Instruction} {x y : TypeUse}
    {declared store : FlowStore Location} {source target : Shape Location}
    (hsource : store.get? "x" = some source) (htarget : declared.get? "y" = some target) :
    (joinContext first second x y declared).Flows 3 store source target .assignment := by
  have hread : ((joinContext first second x y declared).instructions 3 0 ⟨store, []⟩
      [.readLocal 0 "x"]).result = .ok ⟨store, [(0, { shape := source, source := some "x" })]⟩ := by
    simp only [MethodContext.instructions, MethodContext.instruction, MethodContext.current,
      hsource]
    rfl
  exact .instruction rfl (show _ = [.readLocal 0 "x"] ++ _ :: [] from rfl) hread
    (@MethodContext.InstructionFlow.assignment _ _ _ "y" 0 ⟨source, some "x", none⟩ _ rfl htarget)

def allocates (type : TypeUse) : List Instruction :=
  [.new 0 type none [], .assign (.localVariable "x") 0]

def forgets : List Instruction := [.literal 0 .null, .assign (.localVariable "x") 0]

def pairType (left right : Option String) : TypeUse :=
  .mk none [.mk left [], .mk none [.mk right []]]

def pairShape (position : String) (kind : SlotKind) : Shape Location :=
  .mk ⟨"U", position, kind⟩ [.leaf ⟨"U", position ++ "<0>", .typeArgument⟩,
    .mk ⟨"U", position ++ "<1>", .typeArgument⟩
      [.leaf ⟨"U", position ++ "<1><0>", .typeArgument⟩]]

/-- The shape with type arguments comes first. -/
def keptJoin : MethodContext :=
  joinContext (allocates (pairType (some "left") (some "right"))) forgets (pairType none none)
    (pairType none none) ⟨[("c", .leaf ⟨"U", "m#c", .parameter⟩),
      ("x", pairShape "m#x" .localVariable), ("y", pairShape "m#y" .localVariable)]⟩

def keptConstraints : UnitConstraints where
  unit := "U"
  slots := ⟨#[⟨⟨"U", "m#c", .parameter⟩, .inferred none⟩,
    ⟨⟨"U", "m#x", .localVariable⟩, .inferred none⟩,
    ⟨⟨"U", "m#x<0>", .typeArgument⟩, .inferred none⟩,
    ⟨⟨"U", "m#x<1>", .typeArgument⟩, .inferred none⟩,
    ⟨⟨"U", "m#x<1><0>", .typeArgument⟩, .inferred none⟩,
    ⟨⟨"U", "m#y", .localVariable⟩, .inferred none⟩,
    ⟨⟨"U", "m#y<0>", .typeArgument⟩, .inferred none⟩,
    ⟨⟨"U", "m#y<1>", .typeArgument⟩, .inferred none⟩,
    ⟨⟨"U", "m#y<1><0>", .typeArgument⟩, .inferred none⟩,
    ⟨⟨"U", "m@1:0", .allocation⟩, .inferred none⟩,
    ⟨⟨"U", "m@1:0<0>", .typeArgument⟩, .fixed ⟨1⟩⟩,
    ⟨⟨"U", "m@1:0<1>", .typeArgument⟩, .inferred none⟩,
    ⟨⟨"U", "m@1:0<1><0>", .typeArgument⟩, .fixed ⟨2⟩⟩,
    ⟨⟨"U", "m@2:0", .literal⟩, .fixed ⟨0⟩⟩,
    ⟨⟨"U", "m@3#x", .merge⟩, .inferred none⟩,
    ⟨⟨"U", "m@3#x<0>", .merge⟩, .inferred none⟩,
    ⟨⟨"U", "m@3#x<1>", .merge⟩, .inferred none⟩,
    ⟨⟨"U", "m@3#x<1><0>", .merge⟩, .inferred none⟩]⟩
  constraints := [(.subtype ⟨9⟩ ⟨1⟩, ⟨"U", "m@1:1", .assignment⟩),
    (.equality ⟨10⟩ ⟨2⟩, ⟨"U", "m@1:1", .typeArgument⟩),
    (.equality ⟨11⟩ ⟨3⟩, ⟨"U", "m@1:1", .typeArgument⟩),
    (.equality ⟨12⟩ ⟨4⟩, ⟨"U", "m@1:1", .typeArgument⟩),
    (.subtype ⟨13⟩ ⟨1⟩, ⟨"U", "m@2:1", .assignment⟩),
    (.subtype ⟨14⟩ ⟨5⟩, ⟨"U", "m@3:1", .assignment⟩),
    (.equality ⟨15⟩ ⟨6⟩, ⟨"U", "m@3:1", .typeArgument⟩),
    (.equality ⟨16⟩ ⟨7⟩, ⟨"U", "m@3:1", .typeArgument⟩),
    (.equality ⟨17⟩ ⟨8⟩, ⟨"U", "m@3:1", .typeArgument⟩),
    (.subtype ⟨9⟩ ⟨14⟩, ⟨"U", "m@3#x", .merge⟩),
    (.equality ⟨10⟩ ⟨15⟩, ⟨"U", "m@3#x", .typeArgument⟩),
    (.equality ⟨11⟩ ⟨16⟩, ⟨"U", "m@3#x", .typeArgument⟩),
    (.equality ⟨12⟩ ⟨17⟩, ⟨"U", "m@3#x", .typeArgument⟩),
    (.subtype ⟨13⟩ ⟨14⟩, ⟨"U", "m@3#x", .merge⟩)]

def keptValue (i : SlotId) : Option Qualifier :=
  [0, 3, 1, 3, 2, 3, 1, 3, 2, 3, 1, 3, 2, 0, 3, 1, 3, 2][i.index]?.map Qualifier.mk

def keptStores : List (BlockId × FlowStore Location) :=
  [(0, keptJoin.declared), (1, keptJoin.declared),
    (3, keptJoin.declared.set "x" (pairShape "m@1:0" .allocation))]

theorem generate_kept : generate joinTypes keptJoin.surroundings.program
    ⟨"U", [], [keptJoin.method]⟩ = .ok keptConstraints := by
  unfold generate
  conv in Surroundings.readUnit _ _ => cbv
  decide +kernel

theorem readPath_kept :
    (keptJoin.readPath keptJoin.declared 0 [1, 3]).result = .ok keptStores := by cbv

theorem cut_kept : (do
    let s ← keptJoin.fixpoint.result
    return keptStores.all fun x => s.cut x.1 x.2 = x.2) = .ok true := by cbv

theorem models_kept : keptConstraints.Models .diamond keptValue := by
  have hassigned : ∀ i < 18, ∃ q ∈ Lattice.diamond.qualifiers, keptValue ⟨i⟩ = some q := by decide
  exact ⟨fun i hi => hassigned i.index hi, by decide⟩

/-- Nothing is lost. The type arguments of the allocated value, the one inside of the second
included, are those of the variable that it is assigned to in the end. -/
theorem generate_arguments_invariant_kept :
    generate joinTypes keptJoin.surroundings.program ⟨"U", [], [keptJoin.method]⟩ =
        .ok keptConstraints ∧
      keptConstraints.Models .diamond keptValue ∧ keptJoin.body.IsPath [1, 3] ∧
      (keptJoin.surroundings.declare keptJoin.method keptJoin.body).result = .ok keptJoin ∧
      (keptJoin.readPath keptJoin.declared 0 [1, 3]).result = .ok keptStores ∧
      keptJoin.Flows 3 (keptJoin.declared.set "x" (pairShape "m@1:0" .allocation))
        (pairShape "m@1:0" .allocation) (pairShape "m#y" .localVariable) .assignment ∧
      (∃ q, keptConstraints.valueAt keptValue ⟨"U", "m@1:0<0>", .typeArgument⟩ = some q ∧
        keptConstraints.valueAt keptValue ⟨"U", "m#y<0>", .typeArgument⟩ = some q) ∧
      ∃ q, keptConstraints.valueAt keptValue ⟨"U", "m@1:0<1><0>", .typeArgument⟩ = some q ∧
        keptConstraints.valueAt keptValue ⟨"U", "m#y<1><0>", .typeArgument⟩ = some q := by
  have hpath : keptJoin.body.IsPath [1, 3] := isPath_join (.inl rfl)
  have hkept : (keptJoin.surroundings.declare keptJoin.method keptJoin.body).result =
      .ok keptJoin := by cbv
  obtain ⟨c, s, hdeclare, hfixpoint, hpaths⟩ :=
    generate_arguments_invariant Lattice.load_diamond generate_kept models_kept List.mem_cons_self
      rfl
  obtain rfl := Except.ok.inj (hkept.symm.trans hdeclare)
  obtain ⟨stores, _, hrun, -, -, -, -, hequal⟩ := hpaths _ hpath
  obtain rfl := Except.ok.inj (readPath_kept.symm.trans hrun)
  have hsame : ∀ x ∈ keptStores, s.cut x.1 x.2 = x.2 := by
    have hcheck := cut_kept
    rw [hfixpoint] at hcheck
    simpa [bind, Except.bind, pure, Except.pure] using hcheck
  have hflow : keptJoin.Flows 3 (keptJoin.declared.set "x" (pairShape "m@1:0" .allocation))
      (pairShape "m@1:0" .allocation) (pairShape "m#y" .localVariable) .assignment :=
    flows_copy rfl rfl
  have hlast : (3, keptJoin.declared.set "x" (pairShape "m@1:0" .allocation)) ∈ keptStores := by
    simp [keptStores]
  have harguments := hequal hsame _ hlast _ _ _ hflow
  exact ⟨generate_kept, models_kept, hpath, hkept, readPath_kept, hflow,
    harguments 0 [] _ _ rfl rfl, harguments 1 [0] _ _ rfl rfl⟩

def listShape (position : String) (kind : SlotKind) : Shape Location :=
  .mk ⟨"U", position, kind⟩ [.leaf ⟨"U", position ++ "<0>", .typeArgument⟩]

/-- The shape without a type argument comes first. -/
def lostJoin : MethodContext :=
  joinContext forgets (allocates (.mk none [.mk (some "left") []])) (.mk none [.plain])
    (.mk none [.mk (some "right") []]) ⟨[("c", .leaf ⟨"U", "m#c", .parameter⟩),
      ("x", listShape "m#x" .localVariable), ("y", listShape "m#y" .localVariable)]⟩

def lostConstraints : UnitConstraints where
  unit := "U"
  slots := ⟨#[⟨⟨"U", "m#c", .parameter⟩, .inferred none⟩,
    ⟨⟨"U", "m#x", .localVariable⟩, .inferred none⟩,
    ⟨⟨"U", "m#x<0>", .typeArgument⟩, .inferred none⟩,
    ⟨⟨"U", "m#y", .localVariable⟩, .inferred none⟩,
    ⟨⟨"U", "m#y<0>", .typeArgument⟩, .fixed ⟨2⟩⟩,
    ⟨⟨"U", "m@1:0", .literal⟩, .fixed ⟨0⟩⟩,
    ⟨⟨"U", "m@2:0", .allocation⟩, .inferred none⟩,
    ⟨⟨"U", "m@2:0<0>", .typeArgument⟩, .fixed ⟨1⟩⟩,
    ⟨⟨"U", "m@3#x", .merge⟩, .inferred none⟩]⟩
  constraints := [(.subtype ⟨5⟩ ⟨1⟩, ⟨"U", "m@1:1", .assignment⟩),
    (.subtype ⟨6⟩ ⟨1⟩, ⟨"U", "m@2:1", .assignment⟩),
    (.equality ⟨7⟩ ⟨2⟩, ⟨"U", "m@2:1", .typeArgument⟩),
    (.subtype ⟨8⟩ ⟨3⟩, ⟨"U", "m@3:1", .assignment⟩),
    (.subtype ⟨5⟩ ⟨8⟩, ⟨"U", "m@3#x", .merge⟩), (.subtype ⟨6⟩ ⟨8⟩, ⟨"U", "m@3#x", .merge⟩)]

def lostValue (i : SlotId) : Option Qualifier :=
  [0, 3, 1, 3, 2, 0, 3, 1, 3][i.index]?.map Qualifier.mk

theorem generate_lost : generate joinTypes lostJoin.surroundings.program
    ⟨"U", [], [lostJoin.method]⟩ = .ok lostConstraints := by
  unfold generate
  conv in Surroundings.readUnit _ _ => cbv
  decide +kernel

/-- The type argument gets lost where the shapes meet. Along its own path a value with one type
argument is assigned to a variable with another one, and the unit allows it. -/
theorem arguments_lost_at_join :
    generate joinTypes lostJoin.surroundings.program ⟨"U", [], [lostJoin.method]⟩ =
        .ok lostConstraints ∧
      lostConstraints.Models .diamond lostValue ∧ lostJoin.body.IsPath [2, 3] ∧
      (lostJoin.surroundings.declare lostJoin.method lostJoin.body).result = .ok lostJoin ∧
      (lostJoin.readPath lostJoin.declared 0 [2, 3]).result =
        .ok [(0, lostJoin.declared), (2, lostJoin.declared),
          (3, lostJoin.declared.set "x" (listShape "m@2:0" .allocation))] ∧
      lostJoin.Flows 3 (lostJoin.declared.set "x" (listShape "m@2:0" .allocation))
        (listShape "m@2:0" .allocation) (listShape "m#y" .localVariable) .assignment ∧
      lostConstraints.valueAt lostValue ⟨"U", "m@2:0<0>", .typeArgument⟩ = some ⟨1⟩ ∧
      lostConstraints.valueAt lostValue ⟨"U", "m#y<0>", .typeArgument⟩ = some ⟨2⟩ ∧
      ¬lostConstraints.EqualArguments lostValue (listShape "m@2:0" .allocation)
        (listShape "m#y" .localVariable) := by
  have hmodels : lostConstraints.Models .diamond lostValue := by
    have hassigned : ∀ i < 9, ∃ q ∈ Lattice.diamond.qualifiers, lostValue ⟨i⟩ = some q := by decide
    exact ⟨fun i hi => hassigned i.index hi, by decide⟩
  have hsource : lostConstraints.valueAt lostValue ⟨"U", "m@2:0<0>", .typeArgument⟩ = some ⟨1⟩ := by
    cbv
  have htarget : lostConstraints.valueAt lostValue ⟨"U", "m#y<0>", .typeArgument⟩ = some ⟨2⟩ := by
    cbv
  refine ⟨generate_lost, hmodels, isPath_join (.inr rfl), by cbv, by cbv, flows_copy rfl rfl,
    hsource, htarget, fun hequal => ?_⟩
  obtain ⟨q, hq, hq'⟩ := hequal 0 [] _ _ rfl rfl
  cases hsource.symm.trans hq
  cases htarget.symm.trans hq'

end Qualify
