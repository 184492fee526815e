import Qualify.Proofs.Generation.Worklist
import Qualify.Proofs.Store.Slots

namespace Qualify

namespace Gen

variable {α β : Type} {P E E' : Event → Prop} {Q : α → Prop} {R : β → Prop}

/-- If the reading ends with events in `P`, these are in `E`, and the result is in `Q`. -/
def Ensures (P E : Event → Prop) (Q : α → Prop) (x : Gen α) : Prop :=
  ∀ a, x.Reads P a → x.Reads E a ∧ Q a

namespace Ensures

variable {x : Gen α}

theorem mono (h : Ensures P E Q x) (hE : ∀ e ∈ x.events, E e → E' e) : Ensures P E' Q x := by
  intro a ha
  obtain ⟨hread, hQ⟩ := h a ha
  exact ⟨⟨hread.1, fun e he => hE e he (hread.2 e he)⟩, hQ⟩

theorem imp {Q' : α → Prop} (h : Ensures P E Q x) (hQ : ∀ a, Q a → Q' a) : Ensures P E Q' x :=
  fun a ha => (h a ha).imp_right (hQ a)

theorem pure {a : α} (h : Q a) : Ensures P E Q (Pure.pure a) := by
  intro b hb
  obtain rfl := reads_pure.mp hb
  exact ⟨reads_pure.mpr rfl, h⟩

theorem bind {f : α → Gen β} (h : Ensures P E Q x) (hf : ∀ a, Q a → Ensures P E R (f a)) :
    Ensures P E R (x >>= f) := by
  intro b hb
  obtain ⟨a, ha, hb⟩ := reads_bind.mp hb
  obtain ⟨hx, hQ⟩ := h a ha
  obtain ⟨hf, hR⟩ := hf a hQ b hb
  exact ⟨reads_bind.mpr ⟨a, hx, hf⟩, hR⟩

theorem fail {e : GenerationError} : Ensures P E Q (Gen.fail e : Gen α) :=
  fun _ h => absurd h not_reads_fail

theorem emit {es : List Event} (h : (∀ e ∈ es, P e) → ∀ e ∈ es, E e) :
    Ensures P E (fun _ => True) (Gen.emit es) :=
  fun _ hread => ⟨reads_emit.mpr (h (reads_emit.mp hread)), trivial⟩

theorem ofOption {e : GenerationError} {o : Option α} (h : ∀ a, o = some a → Q a) :
    Ensures P E Q (Gen.ofOption e o) := by
  intro a ha
  have hsome := reads_ofOption.mp ha
  exact ⟨reads_ofOption.mpr hsome, h a hsome⟩

theorem discard (h : Ensures P E Q x) : Ensures P E (fun _ => ∃ a, Q a) (Functor.discard x) := by
  intro u hu
  obtain ⟨a, ha⟩ := reads_discard.mp hu
  obtain ⟨hx, hQ⟩ := h a ha
  exact ⟨reads_discard.mpr ⟨a, hx⟩, a, hQ⟩

theorem forM {xs : List α} {f : α → Gen Unit} (h : ∀ x ∈ xs, Ensures P E (fun _ => Q x) (f x)) :
    Ensures P E (fun _ => ∀ x ∈ xs, Q x) (xs.forM f) := by
  intro _ hread
  have heach := fun x hx => h x hx () (reads_forM.mp hread x hx)
  exact ⟨reads_forM.mpr fun x hx => (heach x hx).1, fun x hx => (heach x hx).2⟩

/-- The readings on their own, whatever their results are. -/
theorem each {Q : α → Unit → Prop} {xs : List α} {f : α → Gen Unit}
    (h : ∀ x ∈ xs, Ensures P E (Q x) (f x)) :
    Ensures P E (fun _ => True) (xs.forM f) :=
  (forM fun x hx => (h x hx).imp fun _ _ => trivial).imp fun _ _ => trivial

theorem requestsOnly (h : Ensures (fun e => e.isRequest = true → P e) E Q x) :
    Ensures P E Q x.requestsOnly := by
  intro a ha
  obtain ⟨hx, hQ⟩ := h a (reads_requestsOnly.mp ha)
  exact ⟨reads_requestsOnly.mpr (hx.mono fun _ he _ => he), hQ⟩

end Ensures

end Gen

namespace Shape

variable {L : Location → Prop} {s t : Shape Location}

def Over (L : Location → Prop) (s : Shape Location) : Prop := ∀ l ∈ s.slots, L l

theorem Over.root (h : s.Over L) : L s.root := h _ s.root_mem_slots

theorem over_mk {l : Location} {args : List (Shape Location)} :
    (Shape.mk l args).Over L ↔ L l ∧ ∀ l ∈ slotsOf args, L l := by
  rw [Over, slots, List.forall_mem_cons]

theorem Over.args (h : s.Over L) : ∀ l ∈ slotsOf s.args, L l := by
  cases s
  exact (over_mk.mp h).2

theorem over_leaf {l : Location} : (leaf l).Over L ↔ L l := by simp [leaf, over_mk, slotsOf]

theorem Over.withRoot (h : s.Over L) {l : Location} (hl : L l) : (s.withRoot l).Over L := by
  cases s
  exact over_mk.mpr ⟨hl, h.args⟩

mutual

theorem Over.equalities : {s t : Shape Location} → s.Over L → t.Over L →
    ∀ c ∈ Surroundings.equalities s t, ∀ l ∈ c.slots, L l
  | .mk r as, .mk r' as', hs, ht => by
    rw [over_mk] at hs ht
    rw [Surroundings.equalities, List.forall_mem_cons]
    refine ⟨?_, argumentEqualities_over hs.2 ht.2⟩
    simp [Constraint.slots, hs.1, ht.1]

theorem argumentEqualities_over :
    {ss ts : List (Shape Location)} → (∀ l ∈ slotsOf ss, L l) → (∀ l ∈ slotsOf ts, L l) →
    ∀ c ∈ Surroundings.argumentEqualities ss ts, ∀ l ∈ c.slots, L l
  | s :: ss, t :: ts, hs, ht => by
    rw [slotsOf, List.forall_mem_append] at hs ht
    rw [Surroundings.argumentEqualities, List.forall_mem_append]
    exact ⟨Over.equalities hs.1 ht.1, argumentEqualities_over hs.2 ht.2⟩
  | [], _, _, _ => by simp [Surroundings.argumentEqualities]
  | _ :: _, [], _, _ => by simp [Surroundings.argumentEqualities]

end

end Shape

/-- A type that the unit declares for the uses of its members, with its location. -/
inductive CodeUnit.Declares (u : CodeUnit) : Location → TypeUse → Prop
  | field {f : Variable} : f ∈ u.fields → Declares u ⟨u.name, f.name, .field⟩ f.type
  | receiver {m : Method} {t : TypeUse} :
    m ∈ u.methods → m.receiver = some t → Declares u ⟨u.name, m.name ++ "#this", .receiver⟩ t
  | parameter {m : Method} {v : Variable} :
    m ∈ u.methods → v ∈ m.params → Declares u ⟨u.name, m.name ++ "#" ++ v.name, .parameter⟩ v.type
  | result {m : Method} {t : TypeUse} :
    m ∈ u.methods → m.returns = some t → Declares u ⟨u.name, m.name ++ "#return", .result⟩ t
  | typeParameter {m : Method} {v : TypeParameter} :
    m ∈ u.methods → v ∈ m.typeParams →
      Declares u ⟨u.name, m.name ++ "#<" ++ v.name ++ ">", .typeParameter⟩ v.bound

theorem CodeUnit.Declares.unit {u : CodeUnit} {l : Location} {t : TypeUse} (h : u.Declares l t) :
    l.unit = u.name := by
  cases h <;> rfl

namespace Surroundings

variable (g : Surroundings)

/-- A slot of the unit itself, or one that another unit declares. -/
def IsOrigin (l : Location) (init : SlotInit) : Prop :=
  l.unit = g.unit ∨ ∃ u l' t, g.program.unit? l.unit = some u ∧ u.Declares l' t ∧
    .request l init ∈ (g.typeUse false l' t).events

/-- The request of a slot that the unit may request, or a constraint on slots at `L`. -/
def Grounded (L : Location → Prop) : Event → Prop
  | .request l init => g.IsOrigin l init
  | .require c _ => ∀ l ∈ c.slots, L l

variable {g} {P : Event → Prop} {L : Location → Prop}

def OfType (own : Bool) (unit : String) (L : Location → Prop) : Event → Prop
  | .request l _ => l.unit = unit
  | .require c _ => own = true ∧ ∀ l ∈ c.slots, L l

theorem ensures_qualifier {E : Event → Prop} (name : String) (l : Location) :
    Gen.Ensures P E (fun _ => True) (g.qualifier name l) := .ofOption fun _ _ => trivial

theorem ensures_preferences {unit : String} {l : Location} (hl : L l) :
    Gen.Ensures P (OfType true unit L) (fun _ => True) (g.preferences l) := by
  refine .emit fun _ e he => ?_
  obtain ⟨_, -, rfl⟩ := List.mem_map.mp he
  exact ⟨rfl, List.forall_mem_singleton.mpr hl⟩

theorem ensures_require {c : Constraint Location} (hc : ∀ l ∈ c.slots, L l) (position : String)
    (rule : Rule) :
    Gen.Ensures P (g.Grounded L) (fun _ => True) (g.require c position rule) :=
  .emit fun _ => List.forall_mem_singleton.mpr hc

theorem ensures_flowInto {source target : Shape Location} (hsource : source.Over L)
    (htarget : target.Over L) (position : String) (rule : Rule) :
    Gen.Ensures P (g.Grounded L) (fun _ => True) (g.flowInto source target position rule) := by
  refine .emit fun _ => List.forall_mem_cons.mpr ⟨?_, fun e he => ?_⟩
  · show ∀ l ∈ [source.root, target.root], L l
    simp [hsource.root, htarget.root]
  · obtain ⟨c, hc, rfl⟩ := List.mem_map.mp he
    exact Shape.argumentEqualities_over hsource.args htarget.args c hc

theorem ensures_owner {E : Event → Prop} (m : MemberRef) :
    Gen.Ensures P E (fun u => g.program.unit? u.name = some u) (g.owner m) := by
  refine .ofOption fun u hu => ?_
  have hname : u.name = m.unit.getD g.unit := by simpa using List.find?_some hu
  rw [hname, hu]

def Calls (g : Surroundings) (owner : String) (m : Method) : Prop :=
  ∃ u, g.program.unit? u.name = some u ∧ u.name = owner ∧ m ∈ u.methods

theorem ensures_callee {E : Event → Prop} (m : MemberRef) :
    Gen.Ensures P E (fun c => g.Calls c.1 c.2) (g.callee m) := by
  refine (ensures_owner m).bind fun u hu => ?_
  refine Gen.Ensures.bind (Q := fun c => c ∈ u.methods) (.ofOption fun c hc => ?_)
    fun c hc => .pure ⟨u, hu, rfl, hc⟩
  exact List.mem_reverse.mp (List.mem_of_find?_eq_some hc)

section

variable (hL : ∀ {l init}, P (.request l init) → L l)
include hL

theorem ensures_request {E : Event → Prop} {l : Location} {init : SlotInit}
    (hl : E (.request l init)) :
    Gen.Ensures P E (fun _ => L l) (Gen.emit [.request l init]) := by
  intro _ hread
  have hrequest : P (.request l init) := Gen.reads_emit.mp hread _ List.mem_cons_self
  exact ⟨Gen.reads_emit.mpr (List.forall_mem_singleton.mpr hl), hL hrequest⟩

theorem ensures_inferred {E : Event → Prop} {l : Location} (hl : ∀ init, E (.request l init)) :
    Gen.Ensures P E (fun l' => l' = l ∧ L l) (g.inferred l) :=
  (ensures_request hL (hl _)).bind fun _ h => .pure ⟨rfl, h⟩

end

mutual

theorem ensures_ofType (hL : ∀ {l init}, P (.request l init) → L l) (own : Bool) :
    (l : Location) → (t : TypeUse) →
    Gen.Ensures P (OfType own l.unit L) (Shape.Over L) (g.typeUse own l t)
  | l, .mk (some name) args => by
    have hl (init : SlotInit) : OfType own l.unit L (.request l init) := rfl
    rw [typeUse]
    refine (ensures_qualifier name l).bind fun q _ => (ensures_request hL (hl _)).bind
      fun _ hroot => ?_
    exact (ensures_ofTypes hL own l 0 args).bind
      fun _ hargs => .pure (Shape.over_mk.mpr ⟨hroot, hargs⟩)
  | l, .mk none args => by
    have hl (init : SlotInit) : OfType own l.unit L (.request l init) := rfl
    have hargs := ensures_ofTypes hL own l 0 args
    rw [typeUse]
    refine (ensures_inferred hL hl).bind ?_
    rintro _ ⟨rfl, hroot⟩
    cases own with
    | false => exact hargs.bind fun _ hargs => .pure (Shape.over_mk.mpr ⟨hroot, hargs⟩)
    | true =>
      refine (ensures_preferences hroot).bind fun _ _ => ?_
      exact hargs.bind fun _ hargs => .pure (Shape.over_mk.mpr ⟨hroot, hargs⟩)

theorem ensures_ofTypes (hL : ∀ {l init}, P (.request l init) → L l) (own : Bool) (l : Location) :
    (i : Nat) →
    (ts : List TypeUse) →
    Gen.Ensures P (OfType own l.unit L) (fun ss => ∀ l ∈ Shape.slotsOf ss, L l)
      (g.typeUses own l i ts)
  | i, [] => .pure (by simp [Shape.slotsOf])
  | i, t :: ts => by
    rw [typeUses]
    refine (ensures_ofType hL own _ t).bind fun s hs => ?_
    refine (ensures_ofTypes hL own l (i + 1) ts).bind fun ss hss => .pure ?_
    exact List.forall_mem_append.mpr ⟨hs, hss⟩

end

section

variable (hL : ∀ {l init}, P (.request l init) → L l)
include hL

/-- A type at a location of the unit. -/
theorem ensures_typeUse (own : Bool) {l : Location} (hl : l.unit = g.unit) (t : TypeUse) :
    Gen.Ensures P (g.Grounded L) (Shape.Over L) (g.typeUse own l t) := by
  refine (ensures_ofType hL own l t).mono fun e _ he => ?_
  cases e with
  | request l' init => exact .inl (Eq.trans he hl)
  | require c p => exact he.2

/-- A type that a unit declares. -/
theorem ensures_declared {u : CodeUnit} (hu : g.program.unit? u.name = some u) {l : Location}
    {t : TypeUse} (hdeclares : u.Declares l t) :
    Gen.Ensures P (g.Grounded L) (Shape.Over L) (g.typeUse false l t) := by
  refine (ensures_ofType hL false l t).mono fun e hmem he => ?_
  cases e with
  | request l' init =>
    have hl' : l'.unit = u.name := Eq.trans he hdeclares.unit
    exact .inr ⟨u, l, t, hl' ▸ hu, hdeclares, hmem⟩
  | require c p => cases he.1

theorem ensures_field (m : MemberRef) :
    Gen.Ensures P (g.Grounded L) (Shape.Over L) (g.field m) := by
  refine (ensures_owner m).bind fun u hu => ?_
  refine Gen.Ensures.bind (Q := fun f => f ∈ u.fields) (.ofOption fun f hf => ?_) fun f hf => ?_
  · exact List.mem_reverse.mp (List.mem_of_find?_eq_some hf)
  · exact ensures_declared hL hu (.field hf)

end

end Surroundings

namespace FlowStore

variable {L : Location → Prop} {s : FlowStore Location}

def Over (L : Location → Prop) (s : FlowStore Location) : Prop :=
  ∀ name shape, s.get? name = some shape → shape.Over L

theorem over_empty : Over L {} := by
  rintro _ _ ⟨⟩

theorem Over.set (h : s.Over L) (name : String) {shape : Shape Location} (hshape : shape.Over L) :
    (s.set name shape).Over L := by
  intro other shape' hget
  rw [get?_set] at hget
  split_ifs at hget
  · exact Option.some.inj hget ▸ hshape
  · exact h other shape' hget

end FlowStore

structure Point.Over (L : Location → Prop) (p : Point) : Prop where
  store : p.store.Over L
  values : ∀ t v, p.values.lookup t = some v → v.shape.Over L

theorem Point.Over.put {L : Location → Prop} {p : Point} (h : p.Over L) (t : Temp) {v : Value}
    (hv : v.shape.Over L) :
    Over L { p with values := (t, v) :: p.values } := by
  refine ⟨h.store, fun t' v' hlookup => ?_⟩
  rw [List.lookup_cons_eq_ite] at hlookup
  split_ifs at hlookup
  · exact Option.some.inj hlookup ▸ hv
  · exact h.values t' v' hlookup

namespace MethodContext

structure Over (L : Location → Prop) (c : MethodContext) : Prop where
  receiver : ∀ shape, c.receiver = some shape → shape.Over L
  returns : ∀ shape, c.returns = some shape → shape.Over L
  declared : c.declared.Over L

variable {c : MethodContext} {P : Event → Prop} {L : Location → Prop}

section

variable {E : Event → Prop} {p : Point} (hp : p.Over L) (b : BlockId) (t : Temp)
include hp

theorem ensures_shape : Gen.Ensures P E (Shape.Over L) (c.shape p.values b t) :=
  Gen.Ensures.bind (Q := fun v => v.shape.Over L) (.ofOption fun v => hp.values t v)
    fun _ hv => .pure hv

end

theorem ensures_current {E : Event → Prop} {store : FlowStore Location} (hstore : store.Over L)
    (name : String) :
    Gen.Ensures P E (Shape.Over L) (c.current store name) :=
  .ofOption fun shape => hstore name shape

variable (hL : ∀ {l init}, P (.request l init) → L l)
include hL

theorem ensures_passReceiver {owner : String} {m : Method} (hm : c.surroundings.Calls owner m)
    {actual : Option (Shape Location)} (hactual : ∀ shape, actual = some shape → shape.Over L)
    (position : String) :
    Gen.Ensures P (c.surroundings.Grounded L) (fun _ => True)
      (c.passReceiver owner m actual position) := by
  obtain ⟨u, hu, rfl, hm⟩ := hm
  unfold passReceiver
  split
  case h_1 t shape hreceiver =>
    refine (Surroundings.ensures_declared hL hu (.receiver hm hreceiver)).bind
      fun formal hformal => ?_
    exact Surroundings.ensures_flowInto (hactual shape rfl) hformal position _
  case h_2 => exact .fail
  case h_3 => exact .fail
  case h_4 => exact .pure trivial

theorem ensures_passEach {owner : String} {m : Method} (hm : c.surroundings.Calls owner m)
    {p : Point} (hp : p.Over L) (b : BlockId) (position : String) (ts : List Temp)
    {vs : List Variable} (hvs : vs ⊆ m.params) :
    Gen.Ensures P (c.surroundings.Grounded L) (fun _ => True)
      (c.passEach p.values b owner m position ts vs) := by
  obtain ⟨u, hu, rfl, hm⟩ := hm
  induction ts generalizing vs with
  | nil => exact .pure trivial
  | cons t ts ih =>
    cases vs with
    | nil => exact .pure trivial
    | cons v vs =>
      obtain ⟨hv, hvs⟩ := List.cons_subset.mp hvs
      refine (ensures_shape hp b t).bind fun actual hactual => ?_
      refine (Surroundings.ensures_declared hL hu (.parameter hm hv)).bind fun formal hformal => ?_
      exact (Surroundings.ensures_flowInto hactual hformal position _).bind fun _ _ => ih hvs

theorem ensures_passArguments {owner : String} {m : Method} (hm : c.surroundings.Calls owner m)
    {p : Point} (hp : p.Over L) (b : BlockId) (args : List Temp) (position : String) :
    Gen.Ensures P (c.surroundings.Grounded L) (fun _ => True)
      (c.passArguments p.values b owner m args position) := by
  unfold passArguments
  split_ifs
  · exact .fail
  · exact ensures_passEach hL hm hp b position args (List.Subset.refl _)

theorem ensures_passTypes {owner : String} {m : Method} (hm : c.surroundings.Calls owner m)
    (position : String) (i : Nat) (ts : List TypeUse) {vs : List TypeParameter}
    (hvs : vs ⊆ m.typeParams) :
    Gen.Ensures P (c.surroundings.Grounded L) (fun _ => True)
      (c.passTypes owner m position i ts vs) := by
  obtain ⟨u, hu, rfl, hm⟩ := hm
  induction ts generalizing i vs with
  | nil => exact .pure trivial
  | cons t ts ih =>
    cases vs with
    | nil => exact .pure trivial
    | cons v vs =>
      obtain ⟨hv, hvs⟩ := List.cons_subset.mp hvs
      refine (Surroundings.ensures_typeUse hL true (by rfl) t).bind fun actual hactual => ?_
      refine (Surroundings.ensures_declared hL hu (.typeParameter hm hv)).bind
        fun bound hbound => ?_
      exact (Surroundings.ensures_flowInto hactual hbound position _).bind fun _ _ => ih (i + 1) hvs

theorem ensures_passTypeArguments {owner : String} {m : Method} (hm : c.surroundings.Calls owner m)
    (args : List TypeUse) (position : String) :
    Gen.Ensures P (c.surroundings.Grounded L) (fun _ => True)
      (c.passTypeArguments owner m args position) := by
  unfold passTypeArguments
  split_ifs
  · exact .pure trivial
  · exact .fail
  · exact ensures_passTypes hL hm position 0 args (List.Subset.refl _)

theorem ensures_finishCall {owner : String} {m : Method} (hm : c.surroundings.Calls owner m)
    {p : Point} (hp : p.Over L) (b : BlockId) {actual : Option (Shape Location)}
    (hactual : ∀ shape, actual = some shape → shape.Over L) (args : List Temp)
    (typeArgs : List TypeUse) (position : String) (dst : Option Temp) :
    Gen.Ensures P (c.surroundings.Grounded L) (Point.Over L)
      (c.finishCall b position p owner m actual args typeArgs dst) := by
  refine (ensures_passReceiver hL hm hactual position).bind fun _ _ => ?_
  refine (ensures_passArguments hL hm hp b args position).bind fun _ _ => ?_
  refine (ensures_passTypeArguments hL hm typeArgs position).bind fun _ _ => ?_
  cases dst with
  | none => exact .pure hp
  | some dst =>
    obtain ⟨u, hu, rfl, hmem⟩ := hm
    refine Gen.Ensures.bind (.ofOption fun _ => id) fun t ht => ?_
    exact (Surroundings.ensures_declared hL hu (.result hmem ht)).bind
      fun _ hshape => .pure (hp.put dst hshape)

variable (hc : c.Over L)
include hc

theorem ensures_instruction {p : Point} (hp : p.Over L) (b : BlockId) (position : String)
    (i : Instruction) :
    Gen.Ensures P (c.surroundings.Grounded L) (Point.Over L) (c.instruction b position p i) := by
  have hown {kind : SlotKind} (init : SlotInit) :
      c.surroundings.Grounded L (.request (c.location position kind) init) := .inl rfl
  cases i with
  | literal dst kind =>
    exact (Surroundings.ensures_request hL (hown _)).bind
      fun _ hl => .pure (hp.put dst (Shape.over_leaf.mpr hl))
  | readLocal dst name =>
    exact (ensures_current hp.store name).bind fun _ hshape => .pure (hp.put dst hshape)
  | this dst =>
    exact Gen.Ensures.bind (.ofOption hc.receiver) fun _ hshape => .pure (hp.put dst hshape)
  | readField dst field =>
    exact (Surroundings.ensures_field hL field).bind fun _ hshape => .pure (hp.put dst hshape)
  | assign target value =>
    refine (ensures_shape hp b value).bind fun shape hshape => ?_
    cases target with
    | localVariable name =>
      refine (ensures_current hc.declared name).bind fun declared hdeclared => ?_
      refine (Surroundings.ensures_flowInto hshape hdeclared _ _).bind fun _ _ => ?_
      exact .pure ⟨hp.store.set name hshape, hp.values⟩
    | field field =>
      refine (Surroundings.ensures_field hL field).bind fun formal hformal => ?_
      exact (Surroundings.ensures_flowInto hshape hformal _ _).bind fun _ _ => .pure hp
  | call dst method receiver args typeArgs =>
    refine (Surroundings.ensures_callee method).bind fun callee hcallee => ?_
    cases receiver with
    | none => exact ensures_finishCall hL hcallee hp b (by rintro _ ⟨⟩) args typeArgs position dst
    | some t =>
      refine (ensures_shape hp b t).bind fun shape hshape => ?_
      exact ensures_finishCall hL hcallee hp b (by rintro _ ⟨⟩; exact hshape) args typeArgs
        position dst
  | new dst type maker args =>
    refine (Surroundings.ensures_typeUse hL true (by rfl) type).bind fun shape hshape => ?_
    have hput : Point.Over L { p with values := (dst, { shape }) :: p.values } := hp.put dst hshape
    cases maker with
    | none =>
      dsimp only
      split_ifs
      · exact Gen.Ensures.bind (Q := fun _ => True) .fail fun _ _ => .pure hput
      · exact .pure hput
    | some member =>
      refine (Surroundings.ensures_callee member).bind fun callee hcallee => ?_
      dsimp only
      split_ifs
      · refine (ensures_passReceiver hL hcallee (by rintro _ ⟨⟩; exact hshape) _).bind fun _ _ => ?_
        exact (ensures_passArguments hL hcallee hp b args _).bind fun _ _ => .pure hput
      · exact (ensures_passArguments hL hcallee hp b args _).bind fun _ _ => .pure hput
  | cast dst value type =>
    refine (ensures_shape hp b value).bind fun actual hactual => ?_
    refine (Surroundings.ensures_typeUse hL true (by rfl) type).bind fun shape hshape => ?_
    refine (Surroundings.ensures_require ?_ _ _).bind fun _ _ => .pure (hp.put dst hshape)
    simp [Constraint.slots, hactual.root, hshape.root]
  | compare dst op lhs rhs =>
    refine (ensures_shape hp b lhs).bind fun x hx => (ensures_shape hp b rhs).bind fun y hy => ?_
    refine (Surroundings.ensures_require (by simp [Constraint.slots, hx.root, hy.root]) _ _).bind
      fun _ _ => ?_
    refine (Surroundings.ensures_inferred hL hown).bind ?_
    rintro _ ⟨rfl, hl⟩
    exact .pure (hp.put dst (Shape.over_leaf.mpr hl))
  | select dst guard name thenValue elseValue =>
    refine (ensures_shape hp b guard).bind fun x hx => (ensures_shape hp b thenValue).bind
      fun y hy => ?_
    refine (ensures_shape hp b elseValue).bind
      fun z hz => (Surroundings.ensures_qualifier name _).bind fun q _ => ?_
    refine (Surroundings.ensures_inferred hL hown).bind ?_
    rintro l ⟨rfl, hl⟩
    refine (Surroundings.ensures_require ?_ _ _).bind
      fun _ _ => .pure (hp.put dst (Shape.over_leaf.mpr hl))
    simp [Constraint.slots, Constraint.slotsOf, hx.root, hy.root, hz.root, hl]

theorem ensures_instructions {p : Point} (hp : p.Over L) (b : BlockId) (i : Nat)
    (xs : List Instruction) :
    Gen.Ensures P (c.surroundings.Grounded L) (Point.Over L) (c.instructions b i p xs) := by
  induction xs generalizing i p with
  | nil => exact .pure hp
  | cons x xs ih => exact (ensures_instruction hL hc hp b _ x).bind fun _ hp => ih hp (i + 1)

omit hc in
theorem ensures_refineOperand {p : Point} (hp : p.Over L) (b next : BlockId) (position : String)
    (operand other : Temp) {store : FlowStore Location} (hstore : store.Over L) :
    Gen.Ensures P (c.surroundings.Grounded L) (FlowStore.Over L)
      (c.refineOperand b next position p.values operand other store) := by
  unfold refineOperand
  cases (p.values.lookup operand).bind (·.source) with
  | none => exact .pure hstore
  | some name =>
    refine (ensures_shape hp b other).bind fun y hy => (ensures_current hstore name).bind
      fun shape hshape => ?_
    refine (Surroundings.ensures_inferred hL fun _ => .inl rfl).bind ?_
    rintro l ⟨rfl, hl⟩
    refine (Surroundings.ensures_require (by simp [Constraint.slots, hl, hshape.root]) _ _).bind
      fun _ _ => ?_
    refine (Surroundings.ensures_require (by simp [Constraint.slots, hl, hy.root]) _ _).bind
      fun _ _ => ?_
    exact .pure (hstore.set name (hshape.withRoot hl))

omit hc in
theorem ensures_refine {p : Point} (hp : p.Over L) (b next : BlockId) (position : String)
    (lhs rhs : Temp) :
    Gen.Ensures P (c.surroundings.Grounded L) (FlowStore.Over L)
      (c.refine b next position p.values lhs rhs p.store) :=
  (ensures_refineOperand hL hp b next position lhs rhs hp.store).bind fun _ hstore =>
    ensures_refineOperand hL hp b next position rhs lhs hstore

theorem ensures_terminator {p : Point} (hp : p.Over L) (b : BlockId) (position : String)
    (t : Terminator) :
    Gen.Ensures P (c.surroundings.Grounded L) (fun outs => ∀ out ∈ outs, out.2.Over L)
      (c.terminator b position p t) := by
  have hblock (b : BlockId) : Gen.Ensures P (c.surroundings.Grounded L) (fun _ => True)
      (c.block b) :=
    .ofOption fun _ _ => trivial
  have hvalue (t : Temp) : Gen.Ensures P (c.surroundings.Grounded L) (fun _ => True)
      (c.value p.values b t) :=
    .ofOption fun _ _ => trivial
  have hstore := hp.store
  cases t with
  | goto target => exact (hblock target).bind fun _ _ => .pure (by simpa using hstore)
  | ret value =>
    cases value with
    | none => exact .pure (by simp)
    | some t =>
      refine (ensures_shape hp b t).bind fun shape hshape => ?_
      refine Gen.Ensures.bind (.ofOption hc.returns) fun returns hreturns => ?_
      exact (Surroundings.ensures_flowInto hshape hreturns _ _).bind fun _ _ => .pure (by simp)
  | unreachable => exact .pure (by simp)
  | branch condition thenBlock elseBlock =>
    refine (hblock _).bind fun _ _ => (hblock _).bind fun _ _ => (hvalue condition).bind
      fun v _ => ?_
    split_ifs
    · exact .pure (by simpa using hstore)
    · split
      · exact (ensures_refine hL hp _ _ _ _ _).bind fun _ hrefined =>
          .pure (by simp [hstore, hrefined])
      · exact (ensures_refine hL hp _ _ _ _ _).bind fun _ hrefined =>
          .pure (by simp [hstore, hrefined])
      · exact .pure (by simp [hstore])

theorem ensures_transfer {store : FlowStore Location} (hstore : store.Over L) (b : BlockId) :
    Gen.Ensures P (c.surroundings.Grounded L) (fun outs => ∀ out ∈ outs, out.2.Over L)
      (c.transfer b store) := by
  refine Gen.Ensures.bind (Q := fun _ => True) (.ofOption fun _ _ => trivial) fun block _ => ?_
  have hstart : Point.Over L ⟨store, []⟩ := ⟨hstore, by rintro _ _ ⟨⟩⟩
  exact (ensures_instructions hL hc hstart b 0 _).bind fun _ hp => ensures_terminator hL hc hp b _ _

end MethodContext

structure FlowState.Over (L : Location → Prop) (s : FlowState) : Prop where
  inputs : ∀ b input, s.inputs.getD b none = some input → input.Over L
  edges : ∀ e store, s.edges.lookup e = some store → store.Over L
  merges : ∀ m ∈ s.merges, m.2.Over L

namespace MethodContext

variable {c : MethodContext} {P : Event → Prop} {L : Location → Prop}

mutual

theorem mergeShape_over :
    (l : Location) → (s : Shape Location) → (mergeShape l s).Over (·.unit = l.unit)
  | l, .mk _ args => Shape.over_mk.mpr ⟨rfl, mergeShapes_over l 0 args⟩

theorem mergeShapes_over (l : Location) : (i : Nat) → (ss : List (Shape Location)) →
    ∀ l' ∈ Shape.slotsOf (mergeShapes l i ss), l'.unit = l.unit
  | _, [] => by simp [mergeShapes, Shape.slotsOf]
  | i, s :: ss => by
    rw [mergeShapes, Shape.slotsOf, List.forall_mem_append]
    exact ⟨mergeShape_over _ s, mergeShapes_over l (i + 1) ss⟩

end

def MakesOwn (c : MethodContext) (st st' : Merges × List (Shape Location)) : Prop :=
  ∀ s ∈ st'.2, s ∈ st.2 ∨ s.Over (·.unit = c.surroundings.unit)

theorem resolve_makesOwn (b : BlockId) (name : String) (shapes : List (Shape Location))
    (st : Merges × List (Shape Location)) : c.MakesOwn st ((c.resolve b name shapes).run st).2 := by
  intro s hs
  obtain ⟨hsame, -⟩ | ⟨-, hnew, template, hshape⟩ := c.resolve_cases b name shapes st
  · rw [hsame] at hs
    exact .inl hs
  · rw [hnew, List.mem_append, List.mem_singleton] at hs
    obtain hs | rfl := hs
    · exact .inl hs
    · rw [hshape]
      exact .inr (mergeShape_over _ template)

theorem join_makesOwn (b : BlockId) (stores : List (FlowStore Location)) (ms : Merges) :
    ∀ s ∈ ((FlowStore.join stores (c.resolve b)).run (ms, [])).2.2,
      s.Over (·.unit = c.surroundings.unit) := by
  have hlocal (name : String) (st : Merges × List (Shape Location)) :
      c.MakesOwn st ((FlowStore.joinLocal stores (c.resolve b) name).run st).2 := by
    unfold FlowStore.joinLocal
    split
    · exact fun s => .inl
    · exact resolve_makesOwn b name _ st
  rw [FlowStore.join_eq]
  obtain ⟨hmade, -⟩ := @List.mapM_run_spec _ _ _ (FlowStore.joinLocal stores (c.resolve b))
    c.MakesOwn
    (fun _ _ _ => True) (fun _ _ => .inl) (fun h h' s hs => (h' s hs).elim (h s) .inr) (fun _ => id)
    (FlowStore.allNames stores) (fun name _ st => ⟨hlocal name st, trivial⟩) (ms, [])
  exact fun s hs => (hmade s hs).resolve_left (by simp)

section

variable (hc : c.Over L)
include hc

theorem incoming_over {s : FlowState} (hs : s.Over L) (predecessors : Array (List BlockId))
    (b : BlockId) :
    ∀ store ∈ c.incoming s predecessors b, store.Over L := by
  intro store hstore
  obtain ⟨a, -, hlookup⟩ | ⟨-, rfl⟩ := mem_incoming.mp hstore
  · exact hs.edges (a, b) store hlookup
  · exact hc.declared

variable (hL : ∀ {l init}, P (.request l init) → L l)
include hL

theorem ensures_entering {s : FlowState} (hs : s.Over L) (predecessors : Array (List BlockId))
    (b : BlockId) :
    Gen.Ensures P (c.surroundings.Grounded L) (fun r => r.1.Over L ∧ ∀ m ∈ r.2, m.2.Over L)
      (c.entering s predecessors b) := by
  have hstores := incoming_over hc hs predecessors b
  obtain ⟨hgrows, hjoined⟩ := c.join_spec b (c.incoming s predecessors b) s.merges
  have hown := c.join_makesOwn b (c.incoming s predecessors b) s.merges
  unfold entering
  generalize (FlowStore.join (c.incoming s predecessors b) (c.resolve b)).run (s.merges, []) = r
    at hgrows hjoined hown ⊢
  obtain ⟨joined, ms, made⟩ := r
  have hrequest : ∀ l ∈ made.flatMap Shape.slots, ∀ init, c.surroundings.Grounded L
      (.request l init) := by
    intro l hl init
    obtain ⟨shape, hshape, hl⟩ := List.mem_flatMap.mp hl
    exact .inl (hown shape hshape l hl)
  refine (Gen.Ensures.forM fun l hl =>
    (Surroundings.ensures_inferred hL (hrequest l hl)).discard).bind fun _ hmade => ?_
  have hms : ∀ m ∈ ms, m.2.Over L := by
    intro m hm
    obtain hm | ⟨-, hnew⟩ := hgrows.new m hm
    · exact hs.merges m hm
    · intro l hl
      obtain ⟨_, -, hl⟩ := hmade l (List.mem_flatMap.mpr ⟨m.2, hnew, hl⟩)
      exact hl
  refine .pure ⟨fun name shape hget => ?_, hms⟩
  obtain h | ⟨merged, hmem, h⟩ := FlowStore.get?_foldl_set (ms.ofBlock b) joined name
  · have hsome := h.symm.trans hget
    obtain hmem | hagree := (hjoined name).2 shape hsome
    · exact hms _ hmem
    · obtain ⟨store, hstore, hshape⟩ :=
        FlowStore.mem_allNames.mp ((hjoined name).1.mp (by rw [hsome]; rfl))
      obtain ⟨shape', hshape'⟩ := Option.isSome_iff_exists.mp hshape
      rw [hagree store hstore shape' hshape']
      exact hstores store hstore name shape' hshape'
  · obtain rfl := Option.some.inj (h.symm.trans hget)
    exact hms _ (Merges.mem_ofBlock.mp hmem)

omit hc hL in
theorem leave_over {s : FlowState} (hs : s.Over L) (b : BlockId)
    {out : BlockId × FlowStore Location} (hout : out.2.Over L) : (leave b s out).Over L := by
  refine ⟨by rw [leave_inputs]; exact hs.inputs, fun e store hlookup => ?_,
    by rw [leave_merges]; exact hs.merges⟩
  rw [lookup_edges_leave] at hlookup
  split_ifs at hlookup
  · exact Option.some.inj hlookup ▸ hout
  · exact hs.edges e store hlookup

theorem ensures_visit {s : FlowState} (hs : s.Over L) (predecessors : Array (List BlockId))
    (b : BlockId) :
    Gen.Ensures P (c.surroundings.Grounded L) (FlowState.Over L) (c.visit predecessors s b) := by
  refine (ensures_entering hc hL hs predecessors b).bind ?_
  rintro ⟨input, ms⟩ ⟨hinput, hms⟩
  dsimp only
  split_ifs
  · exact .pure ⟨hs.inputs, hs.edges, hms⟩
  · refine (ensures_transfer hL hc hinput b).bind fun outs houts => .pure ?_
    refine List.foldlRecOn outs _ ⟨fun x input' hinput' => ?_, hs.edges, hms⟩ fun s hs out hout =>
      leave_over hs b (houts out hout)
    rw [Array.getD_setIfInBounds] at hinput'
    split_ifs at hinput'
    · exact Option.some.inj hinput' ▸ hinput
    · exact hs.inputs x input' hinput'

theorem ensures_settle {s : FlowState} (hs : s.Over L) (predecessors : Array (List BlockId))
    (visits : Nat) :
    Gen.Ensures P (c.surroundings.Grounded L) (FlowState.Over L)
      (c.settle predecessors visits s) := by
  induction visits generalizing s with
  | zero =>
    unfold settle
    split
    · exact .pure hs
    · exact .fail
  | succ visits ih =>
    unfold settle
    split
    case h_1 => exact .pure hs
    case h_2 b rest _ =>
      have hrest : FlowState.Over L { s with waiting := rest } := ⟨hs.inputs, hs.edges, hs.merges⟩
      exact (ensures_visit hc hL hrest predecessors b).bind fun _ hs => ih hs

theorem ensures_fixpoint :
    Gen.Ensures P (c.surroundings.Grounded L) (FlowState.Over L) c.fixpoint := by
  refine Gen.Ensures.bind (Q := fun _ => True) (.ofOption fun _ _ => trivial) fun _ _ => ?_
  refine ensures_settle hc hL ⟨fun b input hinput => ?_, by rintro _ _ ⟨⟩, by simp⟩ _ _
  rw [Array.getD_replicate_self] at hinput
  cases hinput

omit hL in
theorem ensures_mergeFlows {s : FlowState} (hs : s.Over L) (predecessors : Array (List BlockId)) :
    Gen.Ensures P (c.surroundings.Grounded L) (fun _ => True) (c.mergeFlows s predecessors) := by
  refine Gen.Ensures.each fun m hm => Gen.Ensures.each (Q := fun _ _ => True) fun store hstore => ?_
  unfold mergeFlow
  split
  case h_1 shape hshape =>
    split_ifs
    · exact .pure trivial
    · exact Surroundings.ensures_flowInto
        (incoming_over hc hs predecessors _ store hstore _ shape hshape) (hs.merges m hm) _ _
  case h_2 => exact .pure trivial

theorem ensures_readBlock {s : FlowState} (hs : s.Over L) (b : BlockId) :
    Gen.Ensures P (c.surroundings.Grounded L) (fun _ => True) (c.readBlock s b) := by
  unfold readBlock
  split
  case h_1 input hinput =>
    exact (ensures_transfer hL hc (hs.inputs b input hinput) b).discard.imp fun _ _ => trivial
  case h_2 => exact .pure trivial

theorem ensures_readBody :
    Gen.Ensures P (c.surroundings.Grounded L) (fun _ => True) c.readBody := by
  have hfixpoint : Gen.Ensures P (c.surroundings.Grounded L) (FlowState.Over L)
      c.fixpoint.requestsOnly :=
    (ensures_fixpoint hc fun {_ _} h => hL (h rfl)).requestsOnly
  refine hfixpoint.bind fun s hs => ?_
  exact (Gen.Ensures.each fun b _ => ensures_readBlock hc hL hs b).bind
    fun _ _ => ensures_mergeFlows hc hs _

end

end MethodContext

namespace Surroundings

variable {g : Surroundings} {P : Event → Prop} {L : Location → Prop}

theorem ensures_declareEach {E : Event → Prop} {declare : Variable → Gen (Shape Location)}
    (hdeclare : ∀ v, Gen.Ensures P E (Shape.Over L) (declare v)) {store : FlowStore Location}
    (hstore : store.Over L) (vs : List Variable) :
    Gen.Ensures P E (FlowStore.Over L) (declareEach declare store vs) := by
  induction vs generalizing store with
  | nil => exact .pure hstore
  | cons v vs ih => exact (hdeclare v).bind fun _ hshape => ih (hstore.set v.name hshape)

theorem ensures_optionalType {E : Event → Prop} {declare : TypeUse → Gen (Shape Location)}
    (hdeclare : ∀ t, Gen.Ensures P E (Shape.Over L) (declare t)) (o : Option TypeUse) :
    Gen.Ensures P E (fun o => ∀ shape, o = some shape → shape.Over L) (optionalType declare o) := by
  cases o with
  | none => exact .pure (by rintro _ ⟨⟩)
  | some t => exact (hdeclare t).bind fun _ hshape => .pure (by rintro _ ⟨⟩; exact hshape)

variable (hL : ∀ {l init}, P (.request l init) → L l)
include hL

theorem ensures_declare (m : Method) (body : Body) : Gen.Ensures P (g.Grounded L)
    (fun c => c.surroundings = g ∧ c.Over L) (g.declare m body) := by
  have htype (own : Bool) (position : String) (kind : SlotKind) (t : TypeUse) :
      Gen.Ensures P (g.Grounded L) (Shape.Over L) (g.typeUse own ⟨g.unit, position, kind⟩ t) :=
    ensures_typeUse hL own rfl t
  refine (ensures_optionalType (fun t => htype _ _ _ t) _).bind fun receiver hreceiver => ?_
  refine (ensures_declareEach (fun v => htype _ _ _ v.type) FlowStore.over_empty _).bind
    fun params hparams => ?_
  refine (ensures_optionalType (fun t => htype _ _ _ t) _).bind fun returns hreturns => ?_
  refine (Gen.Ensures.each fun v _ => (htype _ _ _ v.bound).discard).bind fun _ _ => ?_
  refine (ensures_declareEach (fun v => htype _ _ _ v.type) hparams _).bind fun _ hdeclared => ?_
  exact .pure ⟨rfl, hreceiver, hreturns, hdeclared⟩

theorem ensures_readMethod (m : Method) :
    Gen.Ensures P (g.Grounded L) (fun _ => True) (g.readMethod m) := by
  unfold readMethod
  split
  · refine (ensures_declare hL m _).bind fun c hc => ?_
    obtain ⟨rfl, hover⟩ := hc
    exact MethodContext.ensures_readBody hover hL
  · exact (ensures_declare hL m _).discard.imp fun _ _ => trivial

theorem ensures_readUnit (u : CodeUnit) :
    Gen.Ensures P (g.Grounded L) (fun _ => True) (g.readUnit u) := by
  unfold readUnit
  split
  · exact .fail
  · refine (Gen.Ensures.each fun f _ => (ensures_typeUse hL true (by rfl) f.type).discard).bind
      fun _ _ => ?_
    exact .each fun m _ => ensures_readMethod hL m

end Surroundings

namespace Gen

variable {α β : Type}

@[simp] theorem requestsOnly_pure (a : α) : (pure a : Gen α).requestsOnly = pure a := rfl

@[simp] theorem requestsOnly_bind (x : Gen α) (f : α → Gen β) :
    (x >>= f).requestsOnly = x.requestsOnly >>= fun a => (f a).requestsOnly := by
  show (bind x f).requestsOnly = bind x.requestsOnly _
  rcases x with ⟨events, e | a⟩
  · rfl
  · simp [bind, requestsOnly]

@[simp] theorem requestsOnly_ofOption (e : GenerationError) (o : Option α) :
    (ofOption e o).requestsOnly = ofOption e o := by
  cases o <;> rfl

theorem mem_requestsOnly {x : Gen α} {l : Location} {init : SlotInit} :
    .request l init ∈ x.requestsOnly.events ↔ .request l init ∈ x.events :=
  List.mem_filter.trans (and_iff_left rfl)

end Gen

namespace Surroundings

variable {g g' : Surroundings}

mutual

/-- A use of a type requests the slots of its declaration. -/
theorem requestsOnly_typeUse (htypes : g.types = g'.types) (own own' : Bool) :
    (l : Location) → (t : TypeUse) →
    (g.typeUse own l t).requestsOnly = (g'.typeUse own' l t).requestsOnly
  | l, .mk (some name) args => by
    simp only [typeUse, qualifier, htypes, Gen.requestsOnly_bind, Gen.requestsOnly_ofOption,
      Gen.requestsOnly_pure, requestsOnly_typeUses htypes own own' l 0 args]
  | l, .mk none args => by
    have hpreferences (g : Surroundings) (l : Location) :
        (g.preferences l).requestsOnly = pure () := by
      simp [preferences, Gen.requestsOnly, Gen.emit, Event.isRequest, pure]
    have hargs := requestsOnly_typeUses htypes own own' l 0 args
    cases own <;> cases own' <;>
      simp only [typeUse, inferred, htypes, hpreferences, hargs, Gen.requestsOnly_bind,
        Gen.requestsOnly_pure, bind_assoc, pure_bind, if_true, if_false, Bool.false_eq_true]

theorem requestsOnly_typeUses (htypes : g.types = g'.types) (own own' : Bool) (l : Location) :
    (i : Nat) →
    (ts : List TypeUse) → (g.typeUses own l i ts).requestsOnly =
      (g'.typeUses own' l i ts).requestsOnly
  | _, [] => rfl
  | i, t :: ts => by
    simp only [typeUses, Gen.requestsOnly_bind, Gen.requestsOnly_pure,
      requestsOnly_typeUse htypes own own' _ t, requestsOnly_typeUses htypes own own' l (i + 1) ts]

end

theorem declareEach_reads {P : Event → Prop} {declare : Variable → Gen (Shape Location)}
    {vs : List Variable} {store store' : FlowStore Location}
    (hread : (declareEach declare store vs).Reads P store') :
    ∀ v ∈ vs, ∃ shape, (declare v).Reads P shape := by
  induction vs generalizing store with
  | nil => simp
  | cons v vs ih =>
    obtain ⟨shape, hshape, hread⟩ := Gen.reads_bind.mp hread
    exact List.forall_mem_cons.mpr ⟨⟨shape, hshape⟩, ih hread⟩

theorem optionalType_reads {P : Event → Prop} {declare : TypeUse → Gen (Shape Location)}
    {o : Option TypeUse} {o' : Option (Shape Location)}
    (hread : (optionalType declare o).Reads P o') :
    ∀ t, o = some t → ∃ shape, (declare t).Reads P shape := by
  rintro t rfl
  obtain ⟨shape, hshape, -⟩ := Gen.reads_bind.mp hread
  exact ⟨shape, hshape⟩

theorem readMethod_declare {P : Event → Prop} {m : Method} (hread : (g.readMethod m).Reads P ()) :
    ∃ body c, (g.declare m body).Reads P c := by
  unfold readMethod at hread
  split at hread
  · obtain ⟨c, hdeclare, -⟩ := Gen.reads_bind.mp hread
    exact ⟨_, c, hdeclare⟩
  · obtain ⟨c, hdeclare⟩ := Gen.reads_discard.mp hread
    exact ⟨_, c, hdeclare⟩

/-- A unit requests what it declares. -/
theorem readUnit_declares {P : Event → Prop} {u : CodeUnit} (hunit : g.unit = u.name)
    (hread : (g.readUnit u).Reads P ()) {l : Location} {t : TypeUse} (hdeclares : u.Declares l t) :
    ∃ shape, (g.typeUse true l t).Reads P shape := by
  unfold readUnit at hread
  split at hread
  · exact absurd hread Gen.not_reads_fail
  simp only [Gen.reads_bind, Gen.reads_forM, Gen.reads_discard] at hread
  obtain ⟨_, hfields, hmethods⟩ := hread
  -- A method reads all its declarations before its body.
  have hmethod {m : Method} (hm : m ∈ u.methods) := readMethod_declare (hmethods m hm)
  simp only [declare, Gen.reads_bind, Gen.reads_forM, Gen.reads_discard] at hmethod
  rw [hunit] at hfields hmethod
  cases hdeclares with
  | field hf => exact hfields _ hf
  | receiver hm ht =>
    obtain ⟨_, _, _, hreceiver, -⟩ := hmethod hm
    exact optionalType_reads hreceiver _ ht
  | parameter hm hv =>
    obtain ⟨_, _, _, -, _, hparams, -⟩ := hmethod hm
    exact declareEach_reads hparams _ hv
  | result hm ht =>
    obtain ⟨_, _, _, -, _, -, _, hreturns, -⟩ := hmethod hm
    exact optionalType_reads hreturns _ ht
  | typeParameter hm hv =>
    obtain ⟨_, _, _, -, _, -, _, -, _, htypeParams, -⟩ := hmethod hm
    exact htypeParams _ hv

end Surroundings

/-- The table of a reading has the requested slots. -/
theorem Event.mem_slotTable {t t' : SlotTable} {es : List Event} (h : slotTable t es = .ok t') :
    (t.Distinct → t'.Distinct) ∧ ∀ x, x ∈ t'.slots ↔ x ∈ t.slots ∨
      .request x.location x.init ∈ es := by
  induction es generalizing t with
  | nil =>
    cases h
    exact ⟨id, by simp⟩
  | cons e es ih =>
    cases e with
    | request l init =>
      cases hintern : t.intern l init with
      | error e => simp [slotTable, hintern, bind, Except.bind] at h
      | ok r =>
        simp only [slotTable, hintern, bind, Except.bind] at h
        obtain ⟨hdistinct, hmem⟩ := ih h
        refine ⟨fun ht => hdistinct (ht.intern hintern), fun x => ?_⟩
        have hx : x = ⟨l, init⟩ ↔ Event.request x.location x.init = .request l init := by
          rw [Event.request.injEq, Slot.mk.injEq]
        rw [hmem, SlotTable.mem_intern hintern, List.mem_cons, or_assoc, hx]
    | require c p =>
      obtain ⟨hdistinct, hmem⟩ := ih h
      refine ⟨hdistinct, fun x => ?_⟩
      rw [hmem, List.mem_cons, or_iff_right (a := Event.request x.location x.init = .require c p)
        (by rintro ⟨⟩)]

section

variable {types : TypeSystem} {program : Program} {u : CodeUnit} {c : UnitConstraints}

variable (h : generate types program u = .ok c)
include h

theorem generate_distinct : c.slots.Distinct := by
  obtain ⟨-, hslots, -⟩ := generate_eq_ok h
  exact (Event.mem_slotTable hslots).1 SlotTable.distinct_empty

/-- The slots of a unit are those that it requests. -/
theorem mem_generate_slots (x : Slot) : x ∈ c.slots.slots ↔
    .request x.location x.init ∈ (Surroundings.readUnit ⟨types, program, u.name⟩ u).events := by
  obtain ⟨-, hslots, -⟩ := generate_eq_ok h
  rw [(Event.mem_slotTable hslots).2]
  exact or_iff_right (Array.not_mem_empty x)

/-- The reading of a unit, which has a slot for every location that its constraints are about. -/
theorem generate_grounded : (Surroundings.readUnit ⟨types, program, u.name⟩ u).Reads
    (Surroundings.Grounded ⟨types, program, u.name⟩ fun l => ∃ x ∈ c.slots.slots, x.location = l)
      () := by
  obtain ⟨hread, -, -⟩ := generate_eq_ok h
  refine (Surroundings.ensures_readUnit (fun {l init} hrequest => ?_) u () hread).1
  exact ⟨⟨l, init⟩, (mem_generate_slots h _).mpr hrequest, rfl⟩

/-- The constraints of a unit are about its slots. -/
theorem generate_knows : ∀ x ∈ c.constraints, ConstraintStore.Knows c.slots x.1 := by
  obtain ⟨-, -, hconstraints⟩ := generate_eq_ok h
  intro x hx i hi
  rw [hconstraints, Event.mem_constraints] at hx
  obtain ⟨c₀, p, hrequire, rfl⟩ := hx
  rw [Constraint.slots_map] at hi
  obtain ⟨l, hl, rfl⟩ := List.mem_map.mp hi
  obtain ⟨y, hy, rfl⟩ := (generate_grounded h).2 _ hrequire l hl
  obtain ⟨j, hj⟩ := SlotTable.exists_lookup hy
  obtain ⟨_, hget, -⟩ := SlotTable.lookup_eq_some hj
  rw [hj, Option.getD_some]
  exact SlotTable.lt_size_of_get? hget

/-- What a unit requests, it requests itself, or another unit does. -/
theorem generate_origin {x : Slot} (hx : x ∈ c.slots.slots) : x.location.unit = u.name ∨
    ∃ v, program.unit? x.location.unit = some v ∧ ∀ d, generate types program v = .ok d →
      x ∈ d.slots.slots := by
  obtain hown | ⟨v, l, t, hv, hdeclares, hrequest⟩ :=
    (generate_grounded h).2 _ ((mem_generate_slots h x).mp hx)
  · exact .inl hown
  refine .inr ⟨v, hv, fun d hd => (mem_generate_slots hd x).mpr ?_⟩
  obtain ⟨hread, -, -⟩ := generate_eq_ok hd
  obtain ⟨shape, hshape⟩ := Surroundings.readUnit_declares rfl hread hdeclares
  have hsame : (Surroundings.typeUse ⟨types, program, u.name⟩ false l t).requestsOnly =
      (Surroundings.typeUse ⟨types, program, v.name⟩ true l t).requestsOnly := by
    apply Surroundings.requestsOnly_typeUse
    rfl
  have huse := Gen.mem_requestsOnly.mpr hrequest
  rw [hsame, Gen.mem_requestsOnly] at huse
  exact hshape.2 _ huse

end

end Qualify
