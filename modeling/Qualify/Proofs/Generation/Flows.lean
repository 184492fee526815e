import Qualify.Proofs.Generation.Paths

namespace Qualify

namespace MethodContext

variable {c : MethodContext} {P : Event → Prop} {b : BlockId} {p : Point} {position : String}
  {source target : Shape Location} {rule : Rule}

def Passes (c : MethodContext) (p : Point) (owner : String) (m : Method) (args : List Temp)
    (source target : Shape Location) : Prop :=
  ∃ (i : Nat) (t : Temp) (v : Value) (parameter : Variable), args[i]? = some t ∧
    m.params[i]? = some parameter ∧ p.values.lookup t = some v ∧ v.shape = source ∧
    (c.surroundings.parameter false owner m parameter).result = .ok target

/-- By an instruction a value becomes one of a declared type: it is assigned to a variable or a
field, or it is passed to a method as its receiver or as an argument. -/
inductive InstructionFlow (c : MethodContext) (position : String) (p : Point) :
    Instruction → Shape Location → Shape Location → Rule → Prop where
  | assignment {name : String} {t : Temp} {v : Value} {target : Shape Location} :
    p.values.lookup t = some v → c.declared.get? name = some target →
    InstructionFlow c position p (.assign (.localVariable name) t) v.shape target .assignment
  | fieldWrite {field : MemberRef} {t : Temp} {v : Value} {target : Shape Location} :
    p.values.lookup t = some v → (c.surroundings.field field).result = .ok target →
    InstructionFlow c position p (.assign (.field field) t) v.shape target .fieldWrite
  | receiver {dst : Option Temp} {method : MemberRef} {t : Temp} {args : List Temp}
    {typeArgs : List TypeUse} {owner : String} {m : Method} {type : TypeUse} {v : Value}
    {target : Shape Location} :
    (c.surroundings.callee method).result = .ok (owner, m) → p.values.lookup t = some v →
    m.receiver = some type → (c.surroundings.receiverType false owner m type).result = .ok target →
    InstructionFlow c position p (.call dst method (some t) args typeArgs) v.shape target .receiver
  | argument {dst : Option Temp} {method : MemberRef} {receiver : Option Temp} {args : List Temp}
    {typeArgs : List TypeUse} {owner : String} {m : Method} {source target : Shape Location} :
    (c.surroundings.callee method).result = .ok (owner, m) → c.Passes p owner m args source target →
    InstructionFlow c position p (.call dst method receiver args typeArgs) source target .argument
  | makerReceiver {dst : Temp} {type : TypeUse} {maker : MemberRef} {args : List Temp}
    {owner : String} {m : Method} {receiver : TypeUse} {source target : Shape Location} :
    (c.surroundings.typeUse true (c.location position .allocation) type).result = .ok source →
    (c.surroundings.callee maker).result = .ok (owner, m) → m.receiver = some receiver →
    (c.surroundings.receiverType false owner m receiver).result = .ok target →
    InstructionFlow c position p (.new dst type (some maker) args) source target .receiver
  | makerArgument {dst : Temp} {type : TypeUse} {maker : MemberRef} {args : List Temp}
    {owner : String} {m : Method} {source target : Shape Location} :
    (c.surroundings.callee maker).result = .ok (owner, m) → c.Passes p owner m args source target →
    InstructionFlow c position p (.new dst type (some maker) args) source target .argument

/-- A value becomes one of a declared type in a block that is entered with the store: by one of its
instructions, at the point to which the ones before it lead, or where it is returned. -/
inductive Flows (c : MethodContext) (b : BlockId) (store : FlowStore Location) :
    Shape Location → Shape Location → Rule → Prop where
  | instruction {block : Block} {before after : List Instruction} {x : Instruction} {p : Point}
    {source target : Shape Location} {rule : Rule} :
    c.body.blocks[b]? = some block → block.instructions = before ++ x :: after →
    (c.instructions b 0 ⟨store, []⟩ before).result = .ok p →
    c.InstructionFlow (c.position b before.length) p x source target rule →
    Flows c b store source target rule
  | returned {block : Block} {p : Point} {t : Temp} {v : Value} {target : Shape Location} :
    c.body.blocks[b]? = some block → block.terminator = .ret (some t) →
    (c.instructions b 0 ⟨store, []⟩ block.instructions).result = .ok p →
    p.values.lookup t = some v → c.returns = some target →
    Flows c b store v.shape target .returned

theorem reads_shape {values : Values} {t : Temp} {v : Value} {shape : Shape Location}
    (hread : (c.shape values b t).Reads P shape) (hv : values.lookup t = some v) :
    shape = v.shape := by
  simp only [MethodContext.shape, value, Gen.reads_bind, Gen.reads_ofOption,
    Gen.reads_pure] at hread
  obtain ⟨w, hw, rfl⟩ := hread
  rw [Option.some.inj (hv.symm.trans hw)]

theorem reads_flowInto_of_passEach {owner : String} {m : Method} {args : List Temp}
    {params : List Variable}
    (hread : (c.passEach p.values b owner m position args params).Reads P ()) {i : Nat} {t : Temp}
    {v : Value} {parameter : Variable} (ht : args[i]? = some t) (hp : params[i]? = some parameter)
    (hv : p.values.lookup t = some v)
    (htarget : (c.surroundings.parameter false owner m parameter).result = .ok target) :
    (c.surroundings.flowInto v.shape target position .argument).Reads P () := by
  induction args generalizing params i with
  | nil => cases ht
  | cons t' args ih =>
    cases params with
    | nil => cases hp
    | cons parameter' params =>
      simp only [passEach, Gen.reads_bind] at hread
      obtain ⟨actual, hactual, formal, hformal, _, hflow, hrest⟩ := hread
      cases i with
      | zero =>
        cases ht
        cases hp
        rw [reads_shape hactual hv, Except.ok.inj (hformal.1.symm.trans htarget)] at hflow
        exact hflow
      | succ i => exact ih hrest ht hp

theorem reads_flowInto_of_passArguments {owner : String} {m : Method} {args : List Temp}
    (hread : (c.passArguments p.values b owner m args position).Reads P ())
    (hpasses : c.Passes p owner m args source target) :
    (c.surroundings.flowInto source target position .argument).Reads P () := by
  obtain ⟨i, t, v, parameter, ht, hp, hv, rfl, htarget⟩ := hpasses
  unfold passArguments at hread
  split_ifs at hread
  · exact absurd hread Gen.not_reads_fail
  · exact reads_flowInto_of_passEach hread ht hp hv htarget

theorem reads_flowInto_of_passReceiver {owner : String} {m : Method} {type : TypeUse}
    (hread : (c.passReceiver owner m (some source) position).Reads P ())
    (hreceiver : m.receiver = some type)
    (htarget : (c.surroundings.receiverType false owner m type).result = .ok target) :
    (c.surroundings.flowInto source target position .receiver).Reads P () := by
  unfold passReceiver at hread
  rw [hreceiver] at hread
  obtain ⟨formal, hformal, hflow⟩ := Gen.reads_bind.mp hread
  rwa [Except.ok.inj (hformal.1.symm.trans htarget)] at hflow

theorem reads_call {dst : Option Temp} {method : MemberRef} {receiver : Option Temp}
    {args : List Temp} {typeArgs : List TypeUse} {p' : Point}
    (hread : (c.instruction b position p (.call dst method receiver args typeArgs)).Reads P p') :
    ∃ owner m actual, (c.surroundings.callee method).result = .ok (owner, m) ∧
      (∀ t v, receiver = some t → p.values.lookup t = some v → actual = some v.shape) ∧
      (c.passReceiver owner m actual position).Reads P () ∧
      (c.passArguments p.values b owner m args position).Reads P () := by
  obtain ⟨⟨owner, m⟩, hcallee, hread⟩ := Gen.reads_bind.mp hread
  cases receiver with
  | none =>
    simp only [pure_bind, Gen.reads_bind] at hread
    obtain ⟨_, hreceiver, _, hargs, -⟩ := hread
    exact ⟨owner, m, none, hcallee.1, by rintro _ _ ⟨⟩, hreceiver, hargs⟩
  | some t =>
    simp only [pure_bind, Gen.reads_bind] at hread
    obtain ⟨shape, hshape, _, hreceiver, _, hargs, -⟩ := hread
    refine ⟨owner, m, some shape, hcallee.1, ?_, hreceiver, hargs⟩
    rintro _ v ⟨⟩ hv
    rw [reads_shape hshape hv]

theorem reads_new {dst : Temp} {type : TypeUse} {maker : MemberRef} {args : List Temp} {p' : Point}
    (hread : (c.instruction b position p (.new dst type (some maker) args)).Reads P p') :
    ∃ owner m shape,
      (c.surroundings.typeUse true (c.location position .allocation) type).result = .ok shape ∧
      (c.surroundings.callee maker).result = .ok (owner, m) ∧
      (m.receiver.isSome = true → (c.passReceiver owner m (some shape) position).Reads P ()) ∧
      (c.passArguments p.values b owner m args position).Reads P () := by
  obtain ⟨shape, hshape, hread⟩ := Gen.reads_bind.mp hread
  obtain ⟨⟨owner, m⟩, hcallee, hread⟩ := Gen.reads_bind.mp hread
  refine ⟨owner, m, shape, hshape.1, hcallee.1, ?_⟩
  dsimp only at hread
  split_ifs at hread with hreceiver
  · obtain ⟨_, hpass, hread⟩ := Gen.reads_bind.mp hread
    obtain ⟨_, hargs, -⟩ := Gen.reads_bind.mp hread
    exact ⟨fun _ => hpass, hargs⟩
  · obtain ⟨_, hargs, -⟩ := Gen.reads_bind.mp hread
    exact ⟨fun h => absurd h hreceiver, hargs⟩

/-- What is read for an instruction has the constraints of its flows. -/
theorem reads_flowInto_of_instruction {x : Instruction} {p' : Point}
    (hread : (c.instruction b position p x).Reads P p')
    (hflow : c.InstructionFlow position p x source target rule) :
    (c.surroundings.flowInto source target position rule).Reads P () := by
  cases hflow with
  | assignment hv htarget =>
    simp only [instruction, current, Gen.reads_bind, Gen.reads_ofOption] at hread
    obtain ⟨shape, hshape, declared, hdeclared, _, hflow, -⟩ := hread
    rwa [reads_shape hshape hv, Option.some.inj (hdeclared.symm.trans htarget)] at hflow
  | fieldWrite hv htarget =>
    simp only [instruction, Gen.reads_bind] at hread
    obtain ⟨shape, hshape, formal, hformal, _, hflow, -⟩ := hread
    rwa [reads_shape hshape hv, Except.ok.inj (hformal.1.symm.trans htarget)] at hflow
  | receiver hcallee hv hreceiver htarget =>
    obtain ⟨owner, m, actual, hcallee', hactual, hpass, -⟩ := reads_call hread
    cases hcallee.symm.trans hcallee'
    rw [hactual _ _ rfl hv] at hpass
    exact reads_flowInto_of_passReceiver hpass hreceiver htarget
  | argument hcallee hpasses =>
    obtain ⟨owner, m, actual, hcallee', -, -, hpass⟩ := reads_call hread
    cases hcallee.symm.trans hcallee'
    exact reads_flowInto_of_passArguments hpass hpasses
  | makerReceiver hsource hcallee hreceiver htarget =>
    obtain ⟨owner, m, shape, hshape, hcallee', hpass, -⟩ := reads_new hread
    cases hcallee.symm.trans hcallee'
    cases hsource.symm.trans hshape
    exact reads_flowInto_of_passReceiver (hpass (by rw [hreceiver, Option.isSome_some])) hreceiver
      htarget
  | makerArgument hcallee hpasses =>
    obtain ⟨owner, m, shape, -, hcallee', -, hpass⟩ := reads_new hread
    cases hcallee.symm.trans hcallee'
    exact reads_flowInto_of_passArguments hpass hpasses

/-- What is read for a block has the constraints of its flows. -/
theorem reads_flowInto_of_transfer {store : FlowStore Location}
    {outs : List (BlockId × FlowStore Location)} (hread : (c.transfer b store).Reads P outs)
    (hflow : c.Flows b store source target rule) :
    ∃ position, (c.surroundings.flowInto source target position rule).Reads P () := by
  simp only [transfer, MethodContext.block, Gen.reads_bind, Gen.reads_ofOption] at hread
  obtain ⟨block, hblock, p, hinstructions, hterminator⟩ := hread
  cases hflow with
  | instruction hblock' hsplit hp hflow =>
    cases hblock.symm.trans hblock'
    rw [hsplit, reads_instructions_append] at hinstructions
    obtain ⟨q, hbefore, hrest⟩ := hinstructions
    cases hp.symm.trans hbefore.1
    obtain ⟨_, hx, -⟩ := Gen.reads_bind.mp hrest
    rw [Nat.zero_add] at hx
    exact ⟨_, reads_flowInto_of_instruction hx hflow⟩
  | returned hblock' hret hp hv hreturns =>
    cases hblock.symm.trans hblock'
    cases hp.symm.trans hinstructions.1
    rw [hret] at hterminator
    simp only [terminator, Gen.reads_bind, Gen.reads_ofOption] at hterminator
    obtain ⟨shape, hshape, returns, hreturns', _, hflow, -⟩ := hterminator
    rw [reads_shape hshape hv, Option.some.inj (hreturns'.symm.trans hreturns)] at hflow
    exact ⟨_, hflow⟩

/-- Each block of a path is read with the store with which it is entered. -/
theorem reads_transfer_of_readPathWith
    {enter : BlockId → FlowStore Location → FlowStore Location} {store : FlowStore Location}
    {path : List BlockId} {stores : List (BlockId × FlowStore Location)}
    (hread : (c.readPathWith enter store b path).Reads P stores) :
    ∀ x ∈ stores, ∃ outs, (c.transfer x.1 x.2).Reads P outs := by
  induction path generalizing b store stores with
  | nil =>
    simp only [readPathWith, Gen.reads_bind, Gen.reads_discard, Gen.reads_pure] at hread
    obtain ⟨_, htransfer, rfl⟩ := hread
    exact List.forall_mem_singleton.mpr htransfer
  | cons next path ih =>
    simp only [readPathWith, Gen.reads_bind, Gen.reads_pure] at hread
    obtain ⟨outs, htransfer, _, -, rest, hrest, rfl⟩ := hread
    exact List.forall_mem_cons.mpr ⟨⟨outs, htransfer⟩, ih hrest⟩

end MethodContext

end Qualify
