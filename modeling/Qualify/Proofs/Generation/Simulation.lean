import Qualify.Proofs.Generation.Reading
import Qualify.Proofs.Lists

namespace Option

variable {α β : Type} {R R' : α → β → Prop}

theorem Rel.imp {o : Option α} {o' : Option β} (h : Rel R o o') (hR : ∀ a b, R a b → R' a b) :
    Rel R' o o' := by
  cases h with
  | some h => exact .some (hR _ _ h)
  | none => exact .none

theorem Rel.comp {γ : Type} {S : β → γ → Prop} {T : α → γ → Prop} {o : Option α} {o' : Option β}
    {o'' : Option γ} (h : Rel R o o') (h' : Rel S o' o'')
    (hT : ∀ a, ∀ b ∈ o', ∀ c, R a b → S b c → T a c) : Rel T o o'' := by
  cases h with
  | none =>
    cases h'
    exact .none
  | some h =>
    cases h' with
    | some h' => exact .some (hT _ _ rfl _ h h')

theorem rel_of_isSome_eq {o : Option α} {o' : Option β} (h : o.isSome = o'.isSome)
    (hR : ∀ a ∈ o, ∀ b ∈ o', R a b) : Rel R o o' := by
  cases o with
  | none =>
    cases o' with
    | none => exact .none
    | some b => cases h
  | some a =>
    cases o' with
    | none => cases h
    | some b => exact .some (hR a rfl b rfl)

end Option

namespace Qualify

theorem FlowStore.get?_set {σ : Type} (s : FlowStore σ) (name : String) (shape : Shape σ)
    (other : String) :
    (s.set name shape).get? other = if other = name then some shape else s.get? other := by
  obtain ⟨locals⟩ := s
  unfold set get?
  induction locals with
  | nil => exact List.lookup_cons_eq_ite _ _ _ _
  | cons x rest ih =>
    obtain ⟨n, sh⟩ := x
    dsimp only at ih
    simp only [enter]
    split_ifs with hn hlt <;> simp only [List.lookup_cons_eq_ite, ih] <;> grind

def FlowStore.SameNames {σ : Type} (s t : FlowStore σ) : Prop :=
  ∀ name, (s.get? name).isSome = (t.get? name).isSome

/-- The rules under which a value becomes one of a declared type. -/
def Rule.isFlow : Rule → Bool
  | .assignment | .fieldWrite | .argument | .receiver | .returned => true
  | _ => false

/-- Shapes that may stand for one another: where a reading has events in `P`, one with shapes on the
left for those on the right has events in `P'`. -/
structure Simulation (P P' : Event → Prop) (R : Shape Location → Shape Location → Prop) : Prop where
  keep : ∀ e, P e → P' e
  /-- A shape stands for itself once its slot was requested. -/
  fresh : ∀ {shape init}, P (.request shape.root init) → R shape shape
  flow : ∀ {shape shape' target p}, R shape shape' → P (.require (.subtype shape'.root target) p) →
    P' (.require (.subtype shape.root target) p)
  withRoot : ∀ {shape shape' l init}, R shape shape' → P (.request l init) →
    R (shape.withRoot l) (shape'.withRoot l)
  /-- What flows into a merged shape may be replaced by it. -/
  merge : ∀ {shape shape₀ shape' init p}, R shape shape₀ →
    P (.require (.subtype shape₀.root shape'.root) p) →
    P (.request shape'.root init) → R shape shape'
  /-- Nothing is asked of the other rules. -/
  free : ∀ c p, p.rule.isFlow = false → P' (.require c p)

/-- The part of this that readings inside of one block need. What flows is replaced as a whole, the
type arguments included. -/
structure Substitution (P P' : Event → Prop) (R : Shape Location → Shape Location → Prop) :
    Prop where
  keep : ∀ e, P e → P' e
  fresh : ∀ {shape init}, P (.request shape.root init) → R shape shape
  flow : ∀ {g : Surroundings} {shape shape' target position rule}, rule.isFlow = true →
    R shape shape' →
    (g.flowInto shape' target position rule).Reads P () →
    (g.flowInto shape target position rule).Reads P' ()
  withRoot : ∀ {shape shape' l init}, R shape shape' → P (.request l init) →
    R (shape.withRoot l) (shape'.withRoot l)
  free : ∀ c p, p.rule.isFlow = false → p.rule ≠ .typeArgument → P' (.require c p)

section

variable {P P' : Event → Prop} {R : Shape Location → Shape Location → Prop}

theorem Simulation.substitution (h : Simulation P P' R) : Substitution P P' R where
  keep := h.keep
  fresh := h.fresh
  flow _ hshape hread := by
    refine Gen.reads_emit.mpr fun e he => ?_
    obtain rfl | he := List.mem_cons.mp he
    · exact h.flow hshape (Gen.reads_emit.mp hread _ List.mem_cons_self)
    · obtain ⟨c, -, rfl⟩ := List.mem_map.mp he
      exact h.free _ _ rfl
  withRoot := h.withRoot
  free c p hrule _ := h.free c p hrule

namespace Surroundings

variable (g : Surroundings)

theorem reads_inferred {l l' : Location} :
    (g.inferred l).Reads P l' ↔ P (.request l (.inferred (g.types.defaultFor l.kind))) ∧
      l = l' := by
  simp only [inferred, Gen.reads_bind, Gen.reads_emit, Gen.reads_pure, List.forall_mem_singleton,
    exists_const]

theorem typeUse_root {own : Bool} {l : Location} {t : TypeUse} {shape : Shape Location}
    (hread : (g.typeUse own l t).Reads P shape) : ∃ init, P (.request shape.root init) := by
  rcases t with ⟨_ | name, args⟩
  · simp only [typeUse, Gen.reads_bind, reads_inferred] at hread
    obtain ⟨_, ⟨hrequest, rfl⟩, hread⟩ := hread
    split at hread <;> simp only [Gen.reads_bind, Gen.reads_pure] at hread
    · obtain ⟨_, -, _, -, rfl⟩ := hread
      exact ⟨_, hrequest⟩
    · obtain ⟨_, -, rfl⟩ := hread
      exact ⟨_, hrequest⟩
  · simp only [typeUse, Gen.reads_bind, Gen.reads_emit, Gen.reads_pure,
      List.forall_mem_singleton] at hread
    obtain ⟨_, -, _, hrequest, _, -, rfl⟩ := hread
    exact ⟨_, hrequest⟩

variable (h : Substitution P P' R)
include h

theorem follows_typeUse (own : Bool) (l : Location) (t : TypeUse) :
    Gen.Follows P P' R (g.typeUse own l t) (g.typeUse own l t) :=
  (Gen.Follows.refl h.keep _).mono fun a b ⟨hab, hread⟩ => by
    obtain ⟨_, hrequest⟩ := g.typeUse_root hread
    rw [hab]
    exact h.fresh hrequest

theorem follows_flowInto {shape shape' : Shape Location} (hshape : R shape shape')
    (target : Shape Location) (position : String) {rule : Rule} (hrule : rule.isFlow = true) :
    Gen.Follows P P' (fun _ _ => True) (g.flowInto shape target position rule)
      (g.flowInto shape' target position rule) :=
  fun _ hread => ⟨(), h.flow hrule hshape hread, trivial⟩

theorem follows_require {rule : Rule} (hrule : rule.isFlow = false)
    (hargument : rule ≠ .typeArgument) (c c' : Constraint Location) (position : String) :
    Gen.Follows P P' (fun _ _ => True) (g.require c position rule)
      (g.require c' position rule) := by
  refine Gen.Follows.emit fun _ e he => ?_
  rw [List.mem_singleton.mp he]
  exact h.free _ _ hrule hargument

/-- A new slot is requested on both sides. -/
theorem follows_inferred (l : Location) :
    Gen.Follows P P' (fun a b => a = l ∧ b = l ∧ ∃ init, P (.request l init)) (g.inferred l)
      (g.inferred l) :=
  (Gen.Follows.refl h.keep _).mono fun a b ⟨hab, hread⟩ => by
    obtain ⟨hrequest, rfl⟩ := g.reads_inferred.mp hread
    exact ⟨hab, rfl, _, hrequest⟩

theorem follows_field (m : MemberRef) : Gen.Follows P P' R (g.field m) (g.field m) := by
  refine Gen.Follows.bind_same h.keep fun u _ => ?_
  refine Gen.Follows.bind_same h.keep fun f _ => ?_
  exact g.follows_typeUse h false _ _

end Surroundings

/-- Values that stand for one another come from the same local variable or comparison. -/
structure ValueRel (R : Shape Location → Shape Location → Prop) (v w : Value) : Prop where
  shape : R v.shape w.shape
  source : v.source = w.source
  comparison : v.comparison = w.comparison

/-- Stores of the declared names with shapes that stand for one another. -/
structure StoreRel (declared : FlowStore Location) (R : Shape Location → Shape Location → Prop)
    (s t : FlowStore Location) : Prop where
  names : t.SameNames declared
  shapes : ∀ name, Option.Rel R (s.get? name) (t.get? name)

structure PointRel (declared : FlowStore Location) (R : Shape Location → Shape Location → Prop)
    (p q : Point) :
    Prop where
  store : StoreRel declared R p.store q.store
  values : ∀ t, Option.Rel (ValueRel R) (p.values.lookup t) (q.values.lookup t)

theorem StoreRel.set {declared s t : FlowStore Location} (h : StoreRel declared R s t)
    {name : String} (hname : (declared.get? name).isSome = true) {shape shape' : Shape Location}
    (hshape : R shape shape') :
    StoreRel declared R (s.set name shape) (t.set name shape') := by
  constructor
  · intro other
    rw [FlowStore.get?_set]
    split_ifs with heq
    · rw [heq, hname, Option.isSome_some]
    · exact h.names other
  · intro other
    rw [FlowStore.get?_set, FlowStore.get?_set]
    split_ifs
    · exact .some hshape
    · exact h.shapes other

theorem PointRel.put {declared : FlowStore Location} {p q : Point} (h : PointRel declared R p q)
    (t : Temp) {v w : Value} (hv : ValueRel R v w) :
    PointRel declared R { p with values := (t, v) :: p.values }
      { q with values := (t, w) :: q.values } := by
  refine ⟨h.store, fun t' => ?_⟩
  simp only [List.lookup_cons_eq_ite]
  split_ifs
  · exact .some hv
  · exact h.values t'

def OutsRel (declared : FlowStore Location) (R : Shape Location → Shape Location → Prop) :
    List (BlockId × FlowStore Location) → List (BlockId × FlowStore Location) → Prop :=
  List.Forall₂ fun out out' => out.1 = out'.1 ∧ StoreRel declared R out.2 out'.2

theorem OutsRel.names {declared : FlowStore Location}
    {outs outs' : List (BlockId × FlowStore Location)} (h : OutsRel declared R outs outs') :
    ∀ out ∈ outs', out.2.SameNames declared := by
  induction h with
  | nil => exact fun _ hout => absurd hout List.not_mem_nil
  | cons hhead _ ih => exact List.forall_mem_cons.mpr ⟨hhead.2.names, ih⟩

theorem OutsRel.lookup {declared : FlowStore Location}
    {outs outs' : List (BlockId × FlowStore Location)} (h : OutsRel declared R outs outs')
    (b : BlockId) :
    Option.Rel (StoreRel declared R) (outs.lookup b) (outs'.lookup b) := by
  induction h with
  | nil => exact .none
  | @cons out out' _ _ hhead _ ih =>
    obtain ⟨_, _⟩ := out
    obtain ⟨_, _⟩ := out'
    obtain ⟨rfl, hstore⟩ := hhead
    simp only [List.lookup_cons_eq_ite]
    split_ifs
    · exact .some hstore
    · exact ih

namespace MethodContext

def finishCall (c : MethodContext) (b : BlockId) (position : String) (p : Point) (owner : String)
    (m : Method) (actual : Option (Shape Location)) (args : List Temp) (typeArgs : List TypeUse)
    (dst : Option Temp) :
    Gen Point := do
  c.passReceiver owner m actual position
  c.passArguments p.values b owner m args position
  c.passTypeArguments owner m typeArgs position
  match dst with
  | some dst =>
    let t ← Gen.ofOption (.voidResult (owner ++ "." ++ m.name)) m.returns
    let shape ← c.surroundings.returnType false owner m t
    return { p with values := (dst, { shape }) :: p.values }
  | none => return p

variable {c : MethodContext} (h : Substitution P P' R)

section

variable {p q : Point} (hpq : PointRel c.declared R p q) (b : BlockId)
include hpq

theorem follows_value (t : Temp) :
    Gen.Follows P P' (ValueRel R) (c.value p.values b t) (c.value q.values b t) :=
  Gen.Follows.ofOption (hpq.values t)

theorem follows_shape (t : Temp) :
    Gen.Follows P P' R (c.shape p.values b t) (c.shape q.values b t) :=
  (follows_value hpq b t).bind fun _ _ hv => .pure hv.shape

end

theorem follows_current {s t : FlowStore Location} (hst : StoreRel c.declared R s t)
    (name : String) :
    Gen.Follows P P' (fun shape shape' => (c.declared.get? name).isSome = true ∧ R shape shape')
      (c.current s name)
      (c.current t name) := by
  have hnames := hst.names name
  have hshapes := hst.shapes name
  unfold current
  generalize s.get? name = o, t.get? name = o' at hnames hshapes
  cases hshapes with
  | none => exact .fail
  | some hshape => exact .pure ⟨hnames.symm, hshape⟩

include h

theorem follows_passReceiver (owner : String) (m : Method)
    {actual actual' : Option (Shape Location)} (hactual : Option.Rel R actual actual')
    (position : String) :
    Gen.Follows P P' (fun _ _ => True) (c.passReceiver owner m actual position)
      (c.passReceiver owner m actual' position) := by
  unfold passReceiver
  cases hactual with
  | none =>
    cases m.receiver with
    | none => exact .pure trivial
    | some t => exact .fail
  | some hshape =>
    cases m.receiver with
    | none => exact .fail
    | some t =>
      refine Gen.Follows.bind_same h.keep fun formal _ => ?_
      exact c.surroundings.follows_flowInto h hshape formal position rfl

theorem follows_passEach {p q : Point} (hpq : PointRel c.declared R p q) (b : BlockId)
    (owner : String) (m : Method) (position : String) (args : List Temp) (params : List Variable) :
    Gen.Follows P P' (fun _ _ => True) (c.passEach p.values b owner m position args params)
      (c.passEach q.values b owner m position args params) := by
  induction args generalizing params with
  | nil => exact .pure trivial
  | cons t args ih =>
    cases params with
    | nil => exact .pure trivial
    | cons v params =>
      refine (follows_shape hpq b t).bind fun actual actual' hactual => ?_
      refine Gen.Follows.bind_same h.keep fun formal _ => ?_
      exact (c.surroundings.follows_flowInto h hactual _ _ rfl).bind fun _ _ _ => ih params

theorem follows_passArguments {p q : Point} (hpq : PointRel c.declared R p q) (b : BlockId)
    (owner : String) (m : Method) (args : List Temp) (position : String) :
    Gen.Follows P P' (fun _ _ => True) (c.passArguments p.values b owner m args position)
      (c.passArguments q.values b owner m args position) := by
  unfold passArguments
  split_ifs
  · exact .fail
  · exact follows_passEach h hpq b owner m position args m.params

theorem follows_finishCall {p q : Point} (hpq : PointRel c.declared R p q) (b : BlockId)
    (owner : String) (m : Method) {actual actual' : Option (Shape Location)}
    (hactual : Option.Rel R actual actual') (args : List Temp) (typeArgs : List TypeUse)
    (position : String) (dst : Option Temp) :
    Gen.Follows P P' (PointRel c.declared R)
      (c.finishCall b position p owner m actual args typeArgs dst)
      (c.finishCall b position q owner m actual' args typeArgs dst) := by
  refine (follows_passReceiver h owner m hactual position).bind fun _ _ _ => ?_
  refine (follows_passArguments h hpq b owner m args position).bind fun _ _ _ => ?_
  refine Gen.Follows.bind_same h.keep fun _ _ => ?_
  cases dst with
  | none => exact .pure hpq
  | some dst =>
    refine Gen.Follows.bind_same h.keep fun t _ => ?_
    exact (c.surroundings.follows_typeUse h _ _ t).bind fun _ _ hshape =>
      .pure (hpq.put dst ⟨hshape, rfl, rfl⟩)

/-- One instruction keeps the points related. -/
theorem follows_instruction (hreceiver : ∀ shape ∈ c.receiver, ∃ init, P (.request shape.root init))
    {p q : Point} (hpq : PointRel c.declared R p q) (b : BlockId) (position : String)
    (i : Instruction) :
    Gen.Follows P P' (PointRel c.declared R) (c.instruction b position p i)
      (c.instruction b position q i) := by
  cases i with
  | literal dst kind =>
    refine Gen.Follows.bind_same h.keep fun _ hread => .pure (hpq.put dst ⟨?_, rfl, rfl⟩)
    exact h.fresh (Gen.reads_emit.mp hread _ List.mem_cons_self)
  | readLocal dst name =>
    exact (follows_current hpq.store name).bind fun _ _ hshape =>
      .pure (hpq.put dst ⟨hshape.2, rfl, rfl⟩)
  | this dst =>
    refine Gen.Follows.bind_same h.keep fun shape hread => .pure (hpq.put dst ⟨?_, rfl, rfl⟩)
    obtain ⟨_, hrequest⟩ := hreceiver shape (Gen.reads_ofOption.mp hread)
    exact h.fresh hrequest
  | readField dst field =>
    exact (c.surroundings.follows_field h field).bind fun _ _ hshape =>
      .pure (hpq.put dst ⟨hshape, rfl, rfl⟩)
  | assign target value =>
    refine (follows_shape hpq b value).bind fun shape shape' hshape => ?_
    cases target with
    | localVariable name =>
      refine Gen.Follows.bind_same h.keep fun declared hread => ?_
      refine (c.surroundings.follows_flowInto h hshape _ _ rfl).bind
        fun _ _ _ => .pure ⟨?_, hpq.values⟩
      exact hpq.store.set (by rw [Gen.reads_ofOption.mp hread, Option.isSome_some]) hshape
    | field field =>
      refine Gen.Follows.bind_same h.keep fun formal _ => ?_
      exact (c.surroundings.follows_flowInto h hshape _ _ rfl).bind fun _ _ _ => .pure hpq
  | call dst method receiver args typeArgs =>
    refine Gen.Follows.bind_same h.keep fun callee _ => ?_
    cases receiver with
    | none =>
      exact (Gen.Follows.pure .none).bind fun _ _ hactual => follows_finishCall h hpq b _ _ hactual
        args typeArgs _ dst
    | some t =>
      refine (follows_shape hpq b t).bind fun _ _ hshape => ?_
      exact (Gen.Follows.pure (.some hshape)).bind fun _ _ hactual =>
        follows_finishCall h hpq b _ _ hactual args typeArgs _ dst
  | new dst type maker args =>
    refine (c.surroundings.follows_typeUse h _ _ type).bind fun shape shape' hshape => ?_
    have hput := hpq.put dst (v := { shape }) (w := { shape := shape' }) ⟨hshape, rfl, rfl⟩
    cases maker with
    | none =>
      dsimp only
      split_ifs
      · exact Gen.Follows.bind_same h.keep fun _ _ => .pure hput
      · exact .pure hput
    | some member =>
      refine Gen.Follows.bind_same h.keep fun callee _ => ?_
      dsimp only
      split_ifs
      · refine (follows_passReceiver h _ _ (.some hshape) _).bind fun _ _ _ => ?_
        exact (follows_passArguments h hpq b _ _ args _).bind fun _ _ _ => .pure hput
      · exact (follows_passArguments h hpq b _ _ args _).bind fun _ _ _ => .pure hput
  | cast dst value type =>
    refine (follows_shape hpq b value).bind fun _ _ _ => ?_
    refine (c.surroundings.follows_typeUse h _ _ type).bind fun _ _ hshape => ?_
    refine (c.surroundings.follows_require h rfl (by decide) _ _ _).bind fun _ _ _ => ?_
    exact .pure (hpq.put dst ⟨hshape, rfl, rfl⟩)
  | compare dst op lhs rhs =>
    refine (follows_shape hpq b lhs).bind fun _ _ _ => (follows_shape hpq b rhs).bind
      fun _ _ _ => ?_
    refine (c.surroundings.follows_require h rfl (by decide) _ _ _).bind fun _ _ _ => ?_
    refine (c.surroundings.follows_inferred h _).bind fun l l' ⟨hl, hl', _, hrequest⟩ => ?_
    subst hl hl'
    exact .pure (hpq.put dst ⟨h.fresh hrequest, rfl, rfl⟩)
  | select dst guard name thenValue elseValue =>
    refine (follows_shape hpq b guard).bind fun _ _ _ => (follows_shape hpq b thenValue).bind
      fun _ _ _ => ?_
    refine (follows_shape hpq b elseValue).bind fun _ _ _ => Gen.Follows.bind_same h.keep
      fun _ _ => ?_
    refine (c.surroundings.follows_inferred h _).bind fun l l' ⟨hl, hl', _, hrequest⟩ => ?_
    subst hl hl'
    refine (c.surroundings.follows_require h rfl (by decide) _ _ _).bind fun _ _ _ => ?_
    exact .pure (hpq.put dst ⟨h.fresh hrequest, rfl, rfl⟩)

theorem follows_instructions
    (hreceiver : ∀ shape ∈ c.receiver, ∃ init, P (.request shape.root init)) {p q : Point}
    (hpq : PointRel c.declared R p q) (b : BlockId) (i : Nat) (xs : List Instruction) :
    Gen.Follows P P' (PointRel c.declared R) (c.instructions b i p xs)
      (c.instructions b i q xs) := by
  induction xs generalizing i p q with
  | nil => exact .pure hpq
  | cons x xs ih =>
    exact (follows_instruction h hreceiver hpq b _ x).bind fun _ _ hpq => ih hpq (i + 1)

theorem follows_refineOperand {p q : Point} (hpq : PointRel c.declared R p q) (b next : BlockId)
    (position : String) (operand other : Temp) {s t : FlowStore Location}
    (hst : StoreRel c.declared R s t) :
    Gen.Follows P P' (StoreRel c.declared R)
      (c.refineOperand b next position p.values operand other s)
      (c.refineOperand b next position q.values operand other t) := by
  have hsource {o o' : Option Value} (hv : Option.Rel (ValueRel R) o o') :
      o.bind (·.source) = o'.bind (·.source) := by
    cases hv with
    | none => rfl
    | some hv => exact hv.source
  unfold refineOperand
  rw [hsource (hpq.values operand)]
  cases (q.values.lookup operand).bind (·.source) with
  | none => exact .pure hst
  | some name =>
    refine (follows_shape hpq b other).bind fun _ _ _ => ?_
    refine (follows_current hst name).bind fun shape shape' ⟨hname, hshape⟩ => ?_
    refine (c.surroundings.follows_inferred h _).bind fun l l' ⟨hl, hl', _, hrequest⟩ => ?_
    subst hl hl'
    refine (c.surroundings.follows_require h rfl (by decide) _ _ _).bind fun _ _ _ => ?_
    refine (c.surroundings.follows_require h rfl (by decide) _ _ _).bind fun _ _ _ => .pure ?_
    exact hst.set hname (h.withRoot hshape hrequest)

theorem follows_refine {p q : Point} (hpq : PointRel c.declared R p q) (b next : BlockId)
    (position : String) (lhs rhs : Temp) :
    Gen.Follows P P' (StoreRel c.declared R) (c.refine b next position p.values lhs rhs p.store)
      (c.refine b next position q.values lhs rhs q.store) :=
  (follows_refineOperand h hpq b next position lhs rhs hpq.store).bind fun _ _ hst =>
    follows_refineOperand h hpq b next position rhs lhs hst

theorem follows_terminator {p q : Point} (hpq : PointRel c.declared R p q) (b : BlockId)
    (position : String) (t : Terminator) :
    Gen.Follows P P' (OutsRel c.declared R) (c.terminator b position p t)
      (c.terminator b position q t) := by
  have hstore (target : BlockId) : target = target ∧ StoreRel c.declared R p.store q.store :=
    ⟨rfl, hpq.store⟩
  cases t with
  | goto target =>
    exact Gen.Follows.bind_same h.keep fun _ _ => .pure (.cons (hstore target) .nil)
  | ret value =>
    cases value with
    | none => exact .pure .nil
    | some t =>
      refine (follows_shape hpq b t).bind fun _ _ hshape => ?_
      refine Gen.Follows.bind_same h.keep fun returns _ => ?_
      exact (c.surroundings.follows_flowInto h hshape _ _ rfl).bind fun _ _ _ => .pure .nil
  | unreachable => exact .pure .nil
  | branch condition thenBlock elseBlock =>
    refine Gen.Follows.bind_same h.keep fun _ _ => Gen.Follows.bind_same h.keep fun _ _ => ?_
    refine (follows_value hpq b condition).bind fun v w hv => ?_
    split_ifs
    · exact .pure (.cons (hstore thenBlock) .nil)
    · rw [hv.comparison]
      split
      · exact (follows_refine h hpq _ _ _ _ _).bind fun _ _ hst =>
          .pure (.cons ⟨rfl, hst⟩ (.cons (hstore elseBlock) .nil))
      · exact (follows_refine h hpq _ _ _ _ _).bind fun _ _ hst =>
          .pure (.cons (hstore thenBlock) (.cons ⟨rfl, hst⟩ .nil))
      · exact .pure (.cons (hstore thenBlock) (.cons (hstore elseBlock) .nil))

theorem follows_transfer (hreceiver : ∀ shape ∈ c.receiver, ∃ init, P (.request shape.root init))
    {s t : FlowStore Location} (hst : StoreRel c.declared R s t) (b : BlockId) :
    Gen.Follows P P' (OutsRel c.declared R) (c.transfer b s) (c.transfer b t) := by
  refine Gen.Follows.bind_same h.keep fun block _ => ?_
  have hstart : PointRel c.declared R ⟨s, []⟩ ⟨t, []⟩ := ⟨hst, fun _ => .none⟩
  exact (follows_instructions h hreceiver hstart b 0 _).bind
    fun _ _ hpq => follows_terminator h hpq b _ _

omit h in
theorem transfer_names {b : BlockId} {store : FlowStore Location}
    {outs : List (BlockId × FlowStore Location)} (hstore : store.SameNames c.declared)
    (hread : (c.transfer b store).Reads P outs) :
    ∀ out ∈ outs, out.2.SameNames c.declared := by
  have hany : Simulation (fun _ => True) (fun _ => True) fun _ _ => True := by
    constructor <;> intros <;> trivial
  have hst : StoreRel c.declared (fun _ _ => True) store store :=
    ⟨hstore, fun name => Option.rel_of_isSome_eq rfl fun _ _ _ _ => trivial⟩
  obtain ⟨_, -, houts⟩ :=
    follows_transfer hany.substitution (fun _ _ => ⟨.inferred none, trivial⟩) hst b outs
      (hread.mono fun _ _ => trivial)
  exact houts.names

end MethodContext

end

end Qualify
