import Qualify.Proofs.Generation.Paths
import Qualify.Proofs.Generation.Origins

namespace Qualify

namespace Instruction

def writes (t : Temp) : Instruction → Bool
  | literal dst _ | readLocal dst _ | this dst | readField dst _ | new dst _ _ _ | cast dst _ _
    | compare dst _ _ _
  | select dst _ _ _ _ => dst == t
  | call dst _ _ _ _ => dst == some t
  | assign _ _ => false

def assigns (name : String) : Instruction → Bool
  | assign (.localVariable other) _ => other == name
  | _ => false

/-- Whether the value `t` is still the one of the local variable after the instruction, if `held`
says so before. -/
def holds (t : Temp) (name : String) (held : Bool) (i : Instruction) : Bool :=
  match i with
  | readLocal dst other => if dst = t then other == name else held
  | i => held && !i.writes t && !i.assigns name

def heldAfter (t : Temp) (name : String) (is : List Instruction) : Bool :=
  is.foldl (fun held i => i.holds t name held) false

end Instruction

/-- The block branches on whether two values are equal, and goes to `next` if they are. -/
structure Block.Compares (block : Block) (before after : List Instruction) (condition : Temp)
    (op : CompareOp) (lhs rhs : Temp) (next : BlockId) : Prop where
  instructions : block.instructions = before ++ .compare condition op lhs rhs :: after
  kept : ∀ i ∈ after, i.writes condition = false
  terminator : ∃ thenBlock elseBlock, block.terminator = .branch condition thenBlock elseBlock ∧
    thenBlock ≠ elseBlock ∧ (op = .eq ∧ next = thenBlock ∨ op = .ne ∧ next = elseBlock)

def Point.source (p : Point) (t : Temp) : Option String := (p.values.lookup t).bind (·.source)

def Point.Holds (p : Point) (t : Temp) (name : String) : Prop :=
  ∃ shape, p.values.lookup t = some { shape, source := some name } ∧ p.store.get? name = some shape

namespace MethodContext

variable {c : MethodContext} {P : Event → Prop}

section Instructions

variable {b : BlockId}

/-- What an instruction can do: it puts a value, or it assigns a local variable, or it leaves all as
it is. -/
theorem instruction_cases {position : String} {p q : Point} {i : Instruction}
    (hread : (c.instruction b position p i).Reads P q) :
    (∃ dst v, (∀ t, i.writes t = (dst == t)) ∧ q = { p with values := (dst, v) :: p.values }) ∨
      (∃ name shape, (∀ other, i.assigns other = (name == other)) ∧
        q = { p with store := p.store.set name shape }) ∨
      q = p := by
  cases i with
  | literal dst _ | readLocal dst _ | this dst | readField dst _ =>
    simp only [instruction, Gen.reads_bind, Gen.reads_pure] at hread
    obtain ⟨_, -, rfl⟩ := hread
    exact .inl ⟨dst, _, fun _ => rfl, rfl⟩
  | assign target value =>
    simp only [instruction, Gen.reads_bind] at hread
    obtain ⟨shape, -, hread⟩ := hread
    cases target with
    | localVariable name =>
      simp only [Gen.reads_bind, Gen.reads_pure] at hread
      obtain ⟨_, -, _, -, rfl⟩ := hread
      exact .inr (.inl ⟨name, shape, fun _ => rfl, rfl⟩)
    | field member =>
      simp only [Gen.reads_bind, Gen.reads_pure] at hread
      obtain ⟨_, -, _, -, rfl⟩ := hread
      exact .inr (.inr rfl)
  | call dst method receiver args typeArgs =>
    have hcall : ∃ owner m actual,
        (c.finishCall b position p owner m actual args typeArgs dst).Reads P q := by
      obtain ⟨⟨owner, m⟩, -, hread⟩ := Gen.reads_bind.mp hread
      cases receiver with
      | none => exact ⟨owner, m, none, hread⟩
      | some t =>
        obtain ⟨shape, -, hread⟩ := Gen.reads_bind.mp hread
        exact ⟨owner, m, some shape, hread⟩
    obtain ⟨owner, m, actual, hread⟩ := hcall
    simp only [finishCall, Gen.reads_bind] at hread
    obtain ⟨_, -, _, -, _, -, hread⟩ := hread
    cases dst with
    | none => exact .inr (.inr (Gen.reads_pure.mp hread).symm)
    | some dst =>
      simp only [Gen.reads_bind, Gen.reads_pure] at hread
      obtain ⟨_, -, _, -, rfl⟩ := hread
      exact .inl ⟨dst, _, fun _ => rfl, rfl⟩
  | new dst type maker args =>
    obtain ⟨shape, -, hread⟩ := Gen.reads_bind.mp hread
    have hput : q = { p with values := (dst, { shape }) :: p.values } := by
      cases maker with
      | none =>
        dsimp only at hread
        split_ifs at hread
        · obtain ⟨_, hfail, -⟩ := Gen.reads_bind.mp hread
          exact absurd hfail Gen.not_reads_fail
        · exact (Gen.reads_pure.mp hread).symm
      | some member =>
        obtain ⟨callee, -, hread⟩ := Gen.reads_bind.mp hread
        dsimp only at hread
        split_ifs at hread <;> simp only [Gen.reads_bind, Gen.reads_pure] at hread
        · obtain ⟨_, -, _, -, rfl⟩ := hread
          rfl
        · obtain ⟨_, -, rfl⟩ := hread
          rfl
    exact .inl ⟨dst, _, fun _ => rfl, hput⟩
  | cast dst value type =>
    simp only [instruction, Gen.reads_bind, Gen.reads_pure] at hread
    obtain ⟨_, -, _, -, _, -, rfl⟩ := hread
    exact .inl ⟨dst, _, fun _ => rfl, rfl⟩
  | compare dst op lhs rhs =>
    simp only [instruction, Gen.reads_bind, Gen.reads_pure] at hread
    obtain ⟨_, -, _, -, _, -, _, -, rfl⟩ := hread
    exact .inl ⟨dst, _, fun _ => rfl, rfl⟩
  | select dst guard name thenValue elseValue =>
    simp only [instruction, Gen.reads_bind, Gen.reads_pure] at hread
    obtain ⟨_, -, _, -, _, -, _, -, _, -, _, -, rfl⟩ := hread
    exact .inl ⟨dst, _, fun _ => rfl, rfl⟩

/-- All values stay but one that is written, and all local variables but one that is assigned. -/
theorem instruction_frame {position : String} {p q : Point} {i : Instruction}
    (hread : (c.instruction b position p i).Reads P q) :
    (∀ t, i.writes t = false → q.values.lookup t = p.values.lookup t) ∧
      ∀ name, i.assigns name = false → q.store.get? name = p.store.get? name := by
  obtain ⟨dst, v, hwrites, rfl⟩ | ⟨other, shape, hassigns, rfl⟩ | rfl := instruction_cases hread
  · refine ⟨fun t ht => ?_, fun _ _ => rfl⟩
    rw [hwrites, beq_eq_false_iff_ne] at ht
    rw [List.lookup_cons_eq_ite, if_neg (Ne.symm ht)]
  · refine ⟨fun _ _ => rfl, fun name hname => ?_⟩
    rw [hassigns, beq_eq_false_iff_ne] at hname
    rw [FlowStore.get?_set, if_neg (Ne.symm hname)]
  · exact ⟨fun _ _ => rfl, fun _ _ => rfl⟩

theorem reads_instructions_cons {n : Nat} {p q : Point} {i : Instruction} {is : List Instruction} :
    (c.instructions b n p (i :: is)).Reads P q ↔
      ∃ r, (c.instruction b (c.position b n) p i).Reads P r ∧
        (c.instructions b (n + 1) r is).Reads P q := by
  rw [instructions, Gen.reads_bind]

theorem instructions_frame {n : Nat} {p q : Point} {is : List Instruction}
    (hread : (c.instructions b n p is).Reads P q) :
    (∀ t, (∀ i ∈ is, i.writes t = false) → q.values.lookup t = p.values.lookup t) ∧
      ∀ name, (∀ i ∈ is, i.assigns name = false) → q.store.get? name = p.store.get? name := by
  induction is generalizing n p with
  | nil =>
    obtain rfl := Gen.reads_pure.mp hread
    exact ⟨fun _ _ => rfl, fun _ _ => rfl⟩
  | cons i is ih =>
    obtain ⟨r, hi, hrest⟩ := reads_instructions_cons.mp hread
    obtain ⟨hvalues, hstore⟩ := instruction_frame hi
    obtain ⟨hvalues', hstore'⟩ := ih hrest
    constructor
    · intro t ht
      obtain ⟨hhead, htail⟩ := List.forall_mem_cons.mp ht
      rw [hvalues' t htail, hvalues t hhead]
    · intro name hname
      obtain ⟨hhead, htail⟩ := List.forall_mem_cons.mp hname
      rw [hstore' name htail, hstore name hhead]

/-- A value that is read from a local variable is the one that it has, and stays so while neither is
changed. -/
theorem instruction_holds {position : String} {p q : Point} {i : Instruction} {t : Temp}
    {name : String} {held : Bool} (hread : (c.instruction b position p i).Reads P q)
    (hp : held = true → p.Holds t name) (hheld : i.holds t name held = true) : q.Holds t name := by
  by_cases hi : ∃ other, i = .readLocal t other
  · obtain ⟨other, rfl⟩ := hi
    obtain rfl : other = name := by simpa [Instruction.holds] using hheld
    simp only [instruction, current, Gen.reads_bind, Gen.reads_ofOption, Gen.reads_pure] at hread
    obtain ⟨shape, hshape, rfl⟩ := hread
    exact ⟨shape, by rw [List.lookup_cons_eq_ite, if_pos rfl], hshape⟩
  · have hframe : held = true ∧ i.writes t = false ∧ i.assigns name = false := by
      cases i with
      | readLocal dst other =>
        have hdst : dst ≠ t := fun h => hi ⟨other, h ▸ rfl⟩
        simpa [Instruction.holds, Instruction.writes, Instruction.assigns, hdst] using hheld
      | _ => simpa [Instruction.holds, and_assoc] using hheld
    obtain ⟨shape, hvalue, hshape⟩ := hp hframe.1
    obtain ⟨hvalues, hstore⟩ := instruction_frame hread
    exact ⟨shape, by rw [hvalues t hframe.2.1, hvalue], by rw [hstore name hframe.2.2, hshape]⟩

theorem instructions_holds {n : Nat} {p q : Point} {is : List Instruction} {t : Temp}
    {name : String} {held : Bool} (hread : (c.instructions b n p is).Reads P q)
    (hp : held = true → p.Holds t name)
    (hheld : is.foldl (fun held i => i.holds t name held) held = true) : q.Holds t name := by
  induction is generalizing n p held with
  | nil =>
    obtain rfl := Gen.reads_pure.mp hread
    exact hp hheld
  | cons i is ih =>
    obtain ⟨r, hi, hrest⟩ := reads_instructions_cons.mp hread
    exact ih hrest (instruction_holds hi hp) hheld

theorem instruction_compare {position : String} {p q : Point} {dst lhs rhs : Temp} {op : CompareOp}
    (hread : (c.instruction b position p (.compare dst op lhs rhs)).Reads P q) :
    (∃ x y, p.values.lookup lhs = some x ∧ p.values.lookup rhs = some y) ∧
      ∃ v, q.values.lookup dst = some v ∧ v.comparison = some (op, lhs, rhs) := by
  simp only [instruction, shape, value, Gen.reads_bind, Gen.reads_ofOption, Gen.reads_pure] at hread
  obtain ⟨_, ⟨x, hx, -⟩, _, ⟨y, hy, -⟩, _, -, l, -, rfl⟩ := hread
  exact ⟨⟨x, y, hx, hy⟩, _, by rw [List.lookup_cons_eq_ite, if_pos rfl], rfl⟩

end Instructions

def refinement (c : MethodContext) (b next : BlockId) (name : String) : Location :=
  c.location (c.refinementPosition b next name) .refinement

section Refine

variable {b next : BlockId} {position : String} {p : Point} {store store' : FlowStore Location}

/-- What is refined for one operand: the local variable of its name. -/
theorem refineOperand_spec {operand other : Temp}
    (hread : (c.refineOperand b next position p.values operand other store).Reads P store') :
    (∀ name, store'.get? name = if p.source operand = some name
      then (store.get? name).map (·.withRoot (c.refinement b next name)) else store.get? name) ∧
    ∀ name, p.source operand = some name → ∃ shape value, store.get? name = some shape ∧
      p.values.lookup other = some value ∧
      P (.require (.subtype (c.refinement b next name) shape.root)
        ⟨c.surroundings.unit, position, .refinement⟩) ∧
      P (.require (.subtype (c.refinement b next name) value.shape.root)
        ⟨c.surroundings.unit, position, .refinement⟩) := by
  have hsource : (p.values.lookup operand).bind (·.source) = p.source operand := rfl
  rw [refineOperand, hsource] at hread
  cases hname : p.source operand with
  | none =>
    rw [hname] at hread
    obtain rfl := Gen.reads_pure.mp hread
    simp
  | some name =>
    rw [hname] at hread
    simp only [shape, value, current, Surroundings.require, Gen.reads_bind, Gen.reads_ofOption,
      Gen.reads_pure, Gen.reads_emit, Surroundings.reads_inferred,
      List.forall_mem_singleton] at hread
    obtain ⟨_, ⟨value, hvalue, rfl⟩, shape, hshape, _, ⟨-, rfl⟩, _, hbelow, _, hother, rfl⟩ := hread
    constructor
    · intro other
      rw [FlowStore.get?_set]
      by_cases h : other = name
      · rw [if_pos h, if_pos (congrArg some h.symm), h, hshape]
        rfl
      · rw [if_neg h, if_neg fun heq => h (Option.some.inj heq).symm]
    · rintro _ ⟨⟩
      exact ⟨shape, value, hshape, hvalue, hbelow, hother⟩

/-- The store where two values are equal: the local variables that the operands name have new slots,
which are below those that they had and below the other operand. -/
structure Refines (c : MethodContext) (Below : Location → Location → Prop) (b next : BlockId)
    (p : Point) (lhs rhs : Temp) (store : FlowStore Location) : Prop where
  others : ∀ name, p.source lhs ≠ some name → p.source rhs ≠ some name →
    store.get? name = p.store.get? name
  sources : ∀ operand other, (operand, other) ∈ [(lhs, rhs), (rhs, lhs)] →
    ∀ name, p.source operand = some name →
    ∃ shape value, p.store.get? name = some shape ∧ p.values.lookup other = some value ∧
      store.get? name = some (shape.withRoot (c.refinement b next name)) ∧
      Below (c.refinement b next name) shape.root ∧
      Below (c.refinement b next name) value.shape.root

theorem refine_spec {lhs rhs : Temp}
    (hread : (c.refine b next position p.values lhs rhs p.store).Reads P store') :
    c.Refines (fun a l => P (.require (.subtype a l) ⟨c.surroundings.unit, position, .refinement⟩))
      b next p lhs rhs
      store' := by
  obtain ⟨store, hlhs, hrhs⟩ := Gen.reads_bind.mp hread
  obtain ⟨hget, hleft⟩ := refineOperand_spec hlhs
  obtain ⟨hget', hright⟩ := refineOperand_spec hrhs
  have hagain : ∀ (shape : Shape Location) (l : Location),
      (shape.withRoot l).withRoot l = shape.withRoot l :=
    fun _ _ => rfl
  constructor
  · intro name hl hr
    rw [hget', if_neg hr, hget, if_neg hl]
  · intro operand other hmem name hname
    simp only [List.mem_cons, Prod.mk.injEq, List.not_mem_nil, or_false] at hmem
    rcases hmem with ⟨rfl, rfl⟩ | ⟨rfl, rfl⟩
    · obtain ⟨shape, value, hshape, hvalue, hbelow, hother⟩ := hleft name hname
      refine ⟨shape, value, hshape, hvalue, ?_, hbelow, hother⟩
      rw [hget', hget, if_pos hname, hshape]
      split_ifs <;> simp [hagain]
    · obtain ⟨shape', value, hshape', hvalue, hbelow, hother⟩ := hright name hname
      rw [hget', if_pos hname, hshape']
      rw [hget] at hshape'
      split_ifs at hshape' with hl
      · -- both operands name the same variable, which has its new slot already
        obtain ⟨shape, _, hshape, -, hbelow', -⟩ := hleft name hl
        rw [hshape] at hshape'
        obtain rfl := Option.some.inj hshape'
        exact ⟨shape, value, hshape, hvalue, rfl, hbelow', hother⟩
      · exact ⟨shape', value, hshape', hvalue, rfl, hbelow, hother⟩

/-- The edge that is taken if the compared values are equal. -/
theorem terminator_equal {condition lhs rhs : Temp} {thenBlock elseBlock : BlockId} {v : Value}
    {op : CompareOp} {outs : List (BlockId × FlowStore Location)}
    (hread : (c.terminator b position p (.branch condition thenBlock elseBlock)).Reads P outs)
    (hne : thenBlock ≠ elseBlock) (hv : p.values.lookup condition = some v)
    (hcomparison : v.comparison = some (op, lhs, rhs))
    (hnext : op = .eq ∧ next = thenBlock ∨ op = .ne ∧ next = elseBlock) :
    ∃ store, (next, store) ∈ outs ∧
      (c.refine b next position p.values lhs rhs p.store).Reads P store := by
  simp only [terminator, value, Gen.reads_bind, Gen.reads_ofOption] at hread
  obtain ⟨_, -, _, -, v', hv', hread⟩ := hread
  obtain rfl := Option.some.inj (hv.symm.trans hv')
  rw [if_neg hne, hcomparison] at hread
  rcases hnext with ⟨rfl, rfl⟩ | ⟨rfl, rfl⟩
  · obtain ⟨store, hrefine, hread⟩ := Gen.reads_bind.mp hread
    obtain rfl := Gen.reads_pure.mp hread
    exact ⟨store, by simp, hrefine⟩
  · obtain ⟨store, hrefine, hread⟩ := Gen.reads_bind.mp hread
    obtain rfl := Gen.reads_pure.mp hread
    exact ⟨store, by simp, hrefine⟩

end Refine

/-- Every block on a path is entered. -/
theorem Covered.exists_input {s : FlowState} (hs : c.Covered P s)
    (hreceiver : ∀ shape ∈ c.receiver, ∃ init, P (.request shape.root init))
    (hdeclared : ∀ name, ∀ shape ∈ c.declared.get? name, ∃ init, P (.request shape.root init))
    {path : List BlockId} (hpath : c.body.IsPath path) :
    ∀ b ∈ c.body.entry :: path, ∃ input, s.inputs.getD b none = some input := by
  have hsim : Simulation P (fun _ => True) fun _ _ => True := by constructor <;> intros <;> trivial
  obtain ⟨stores, -, hblocks, hstores⟩ := hs.readPath_entry hsim hreceiver hdeclared hpath
  intro b hb
  rw [← hblocks] at hb
  obtain ⟨x, hx, rfl⟩ := List.mem_map.mp hb
  obtain ⟨input, hinput, -⟩ := hstores x hx
  exact ⟨input, hinput⟩

/-- The point where a block compares, the one at its end, and the edge that is taken on equality. -/
theorem transfer_compares {b next : BlockId} {block : Block} {before after : List Instruction}
    {op : CompareOp} {condition lhs rhs : Temp} (hblock : c.body.blocks[b]? = some block)
    (hcompares : block.Compares before after condition op lhs rhs next) {input : FlowStore Location}
    {outs : List (BlockId × FlowStore Location)} (hread : (c.transfer b input).Reads P outs) :
    ∃ p q store, (c.instructions b 0 ⟨input, []⟩ before).Reads P p ∧
      (c.instructions b before.length p (.compare condition op lhs rhs :: after)).Reads P q ∧
      (c.instructions b 0 ⟨input, []⟩ block.instructions).Reads P q ∧ (next, store) ∈ outs ∧
      (c.refine b next (c.position b block.instructions.length) q.values lhs rhs q.store).Reads P
        store := by
  simp only [transfer, MethodContext.block, Gen.reads_bind, Gen.reads_ofOption, hblock] at hread
  obtain ⟨_, ⟨⟩, q, hq, hterminator⟩ := hread
  have hsplit := hq
  rw [hcompares.instructions, reads_instructions_append, Nat.zero_add] at hsplit
  obtain ⟨p, hp, hrest⟩ := hsplit
  obtain ⟨r, hcompare, hafter⟩ := reads_instructions_cons.mp hrest
  obtain ⟨-, v, hv, hcomparison⟩ := instruction_compare hcompare
  rw [← (instructions_frame hafter).1 condition hcompares.kept] at hv
  obtain ⟨thenBlock, elseBlock, hbranch, hne, hnext⟩ := hcompares.terminator
  rw [hbranch] at hterminator
  obtain ⟨store, hstore, hrefine⟩ := terminator_equal hterminator hne hv hcomparison hnext
  exact ⟨p, q, store, hp, hrest, hq, hstore, hrefine⟩

/-- What is compared is still there at the end of the block if nothing changes it. -/
theorem compared_kept {b : BlockId} {n : Nat} {p q : Point} {after : List Instruction}
    {condition lhs rhs : Temp} {op : CompareOp}
    (hread : (c.instructions b n p (.compare condition op lhs rhs :: after)).Reads P q)
    {operand other : Temp} {name : String} (hp : p.Holds operand name)
    (hkept : ∀ i ∈ .compare condition op lhs rhs :: after, i.writes operand = false ∧
      i.writes other = false ∧ i.assigns name = false) :
    ∃ x, p.values.lookup operand = some x ∧ q.source operand = some name ∧
      q.store.get? name = some x.shape ∧
      q.values.lookup other = p.values.lookup other := by
  obtain ⟨shape, hvalue, hshape⟩ := hp
  obtain ⟨hvalues, hstore⟩ := instructions_frame hread
  refine ⟨_, hvalue, ?_, ?_, hvalues other fun i hi => (hkept i hi).2.1⟩
  · rw [Point.source, hvalues operand fun i hi => (hkept i hi).1, hvalue]
    rfl
  · rw [hstore name fun i hi => (hkept i hi).2.2, hshape]

end MethodContext

/-- A constraint of the unit puts one location below another. -/
def UnitConstraints.PutsBelow (u : UnitConstraints) (p : Provenance) (a b : Location) : Prop :=
  ∃ i j, u.slots.lookup a = some i ∧ u.slots.lookup b = some j ∧ (.subtype i j, p) ∈ u.constraints

theorem generate_putsBelow {types : TypeSystem} {program : Program} {u : CodeUnit}
    {generated : UnitConstraints} (h : generate types program u = .ok generated) {a b : Location}
    {p : Provenance}
    (hmem : .require (.subtype a b) p ∈ (Surroundings.readUnit ⟨types, program, u.name⟩ u).events) :
    generated.PutsBelow p a b := by
  have hlookup : ∀ l ∈ [a, b], ∃ i, generated.slots.lookup l = some i := by
    intro l hl
    obtain ⟨x, hx, rfl⟩ := (generate_grounded h).2 _ hmem l hl
    exact SlotTable.exists_lookup hx
  obtain ⟨i, hi⟩ := hlookup a (by simp)
  obtain ⟨j, hj⟩ := hlookup b (by simp)
  refine ⟨i, j, hi, hj, ?_⟩
  obtain ⟨-, -, hconstraints⟩ := generate_eq_ok h
  rw [hconstraints, Event.mem_constraints]
  exact ⟨_, p, hmem, by simp [Constraint.map, hi, hj]⟩

theorem MethodContext.Refines.mono {c : MethodContext} {Below Below' : Location → Location → Prop}
    {b next : BlockId} {p : Point} {lhs rhs : Temp} {store : FlowStore Location}
    (h : c.Refines Below b next p lhs rhs store) (hBelow : ∀ a l, Below a l → Below' a l) :
    c.Refines Below' b next p lhs rhs store where
  others := h.others
  sources operand other hmem name hname := by
    obtain ⟨shape, value, hshape, hvalue, hget, hbelow, hother⟩ :=
      h.sources operand other hmem name hname
    exact ⟨shape, value, hshape, hvalue, hget, hBelow _ _ hbelow, hBelow _ _ hother⟩

/-- On the way where two compared values are equal, those local variables are refined which the
operands name at the end of the block, from what they are there. A variable that an operand was read
from and that has been left alone since, like both operands, has at the end of the block the shape
that was compared, and is refined to be below both values. -/
theorem generate_refines {types : TypeSystem} {program : Program} {u : CodeUnit}
    {generated : UnitConstraints} {m : Method} {body : Body}
    (hgenerate : generate types program u = .ok generated) (hm : m ∈ u.methods)
    (hbody : m.body = some body) :
    ∃ c s, (Surroundings.declare ⟨types, program, u.name⟩ m body).result = .ok c ∧
      c.fixpoint.result = .ok s ∧
      ∀ path, body.IsPath path → ∀ b ∈ body.entry :: path, ∀ block, body.blocks[b]? = some block →
      ∀ before after condition op lhs rhs next, block.Compares before after condition op lhs
        rhs next →
      ∃ input p q store, s.inputs.getD b none = some input ∧
        (c.instructions b 0 ⟨input, []⟩ before).result = .ok p ∧
        (c.instructions b 0 ⟨input, []⟩ block.instructions).result = .ok q ∧
          s.edges.lookup (b, next) = some store ∧
        let Below :=
  generated.PutsBelow ⟨c.surroundings.unit, c.position b block.instructions.length, .refinement⟩
        c.Refines Below b next q lhs rhs store ∧
        ∀ operand other, (operand, other) ∈ [(lhs, rhs), (rhs, lhs)] → ∀ name,
          Instruction.heldAfter operand name before = true →
          (∀ i ∈ .compare condition op lhs rhs :: after,
            i.writes operand = false ∧ i.writes other = false ∧ i.assigns name = false) →
          ∃ x y, p.values.lookup operand = some x ∧ p.values.lookup other = some y ∧
            q.store.get? name = some x.shape ∧
              store.get? name = some (x.shape.withRoot (c.refinement b next name)) ∧
            Below (c.refinement b next name) x.shape.root ∧
              Below (c.refinement b next name) y.shape.root := by
  obtain ⟨hunit, -, -⟩ := generate_eq_ok hgenerate
  have hmethod := Surroundings.readUnit_method hunit m hm
  rw [Surroundings.readMethod_eq hbody, Gen.reads_bind] at hmethod
  obtain ⟨c, hdeclare, hread⟩ := hmethod
  obtain ⟨rfl, hreceiver, hdeclared⟩ := Surroundings.declare_spec hdeclare
  obtain ⟨s, hfixpoint, hs⟩ := MethodContext.readBody_covered hread
  refine ⟨c, s, hdeclare.1, hfixpoint, ?_⟩
  intro path hpath b hb block hblock before after condition op lhs rhs next hcompares
  obtain ⟨input, hinput⟩ := hs.exists_input hreceiver hdeclared hpath b hb
  obtain ⟨-, outs, htransfer, hedges⟩ := hs.recorded b input hinput
  obtain ⟨p, q, store, hp, hrest, hq, hstore, hrefine⟩ :=
    MethodContext.transfer_compares hblock hcompares htransfer
  have hrefines := (MethodContext.refine_spec hrefine).mono
    fun a l hmem => generate_putsBelow hgenerate hmem
  refine ⟨input, p, q, store, hinput, hp.1, hq.1, hedges _ hstore, hrefines, ?_⟩
  intro operand other hmem name hheld hkept
  have hholds : p.Holds operand name := MethodContext.instructions_holds hp (by rintro ⟨⟩) hheld
  obtain ⟨x, hx, hsource, hshape, hother⟩ := MethodContext.compared_kept hrest hholds hkept
  obtain ⟨shape, y, hshape', hy, hget, hbelow, hbelow'⟩ :=
    hrefines.sources operand other hmem name hsource
  obtain rfl := Option.some.inj (hshape'.symm.trans hshape)
  exact ⟨x, y, hx, hother ▸ hy, hshape, hget, hbelow, hbelow'⟩

/-- Two parameters are compared, and some instructions follow. -/
def comparingBody (after : List Instruction) : Body where
  entry := 0
  blocks := #[
    ⟨[.readLocal 0 "x", .readLocal 1 "y", .compare 2 .eq 0 1] ++ after, .branch 2 1 2⟩,
    ⟨[], .ret none⟩,
    ⟨[], .ret none⟩]

def comparingMethod (after : List Instruction) : Method where
  name := "m"
  receiver := none
  params := [⟨"x", .plain⟩, ⟨"y", .plain⟩, ⟨"z", .plain⟩]
  returns := none
  typeParams := []
  locals := []
  body := some (comparingBody after)

def comparingUnit (after : List Instruction) : CodeUnit := ⟨"U", [], [comparingMethod after]⟩

/-- The slots of both programs below: the parameters, the comparison, and what is refined. -/
def comparingSlots : SlotTable :=
  ⟨#[⟨⟨"U", "m#x", .parameter⟩, .inferred none⟩, ⟨⟨"U", "m#y", .parameter⟩, .inferred none⟩,
    ⟨⟨"U", "m#z", .parameter⟩, .inferred none⟩, ⟨⟨"U", "m@0:2", .expression⟩, .inferred none⟩,
    ⟨⟨"U", "m@0->1#x", .refinement⟩, .inferred none⟩,
    ⟨⟨"U", "m@0->1#y", .refinement⟩, .inferred none⟩]⟩

def comparingConstraints : UnitConstraints where
  unit := "U"
  slots := comparingSlots
  constraints := [(.comparable ⟨0⟩ ⟨1⟩, ⟨"U", "m@0:2", .comparison⟩),
    (.subtype ⟨4⟩ ⟨0⟩, ⟨"U", "m@0:3", .refinement⟩),
    (.subtype ⟨4⟩ ⟨1⟩, ⟨"U", "m@0:3", .refinement⟩),
    (.subtype ⟨5⟩ ⟨1⟩, ⟨"U", "m@0:3", .refinement⟩),
    (.subtype ⟨5⟩ ⟨0⟩, ⟨"U", "m@0:3", .refinement⟩)]

/-- Both parameters are left alone, and each is refined to be below both. -/
theorem generate_refines_comparing :
    generate loopTypes ⟨[comparingUnit []]⟩ (comparingUnit []) = .ok comparingConstraints ∧
    ∃ (c : MethodContext) (s : FlowState) (p : Point) (store : FlowStore Location),
      (Surroundings.declare ⟨loopTypes, ⟨[comparingUnit []]⟩, "U"⟩ (comparingMethod [])
        (comparingBody [])).result = .ok c ∧
      c.fixpoint.result = .ok s ∧ s.edges.lookup (0, 1) = some store ∧
      ∀ t name, (t, name) ∈ [(0, "x"), (1, "y")] → ∃ x : Value, p.values.lookup t = some x ∧
        store.get? name = some (x.shape.withRoot (c.refinement 0 1 name)) ∧
        comparingConstraints.PutsBelow ⟨c.surroundings.unit, c.position 0 3, .refinement⟩
          (c.refinement 0 1 name)
          x.shape.root := by
  have hgenerate : generate loopTypes ⟨[comparingUnit []]⟩ (comparingUnit []) =
      .ok comparingConstraints := by cbv
  obtain ⟨c, s, hdeclare, hfixpoint, hpaths⟩ :=
    generate_refines hgenerate (m := comparingMethod []) List.mem_cons_self rfl
  have hcompares : Block.Compares ⟨[.readLocal 0 "x", .readLocal 1 "y", .compare 2 .eq 0 1],
      .branch 2 1 2⟩ [.readLocal 0 "x", .readLocal 1 "y"] [] 2 .eq 0 1 1 :=
    ⟨rfl, by simp, 1, 2, rfl, by decide, .inl ⟨rfl, rfl⟩⟩
  obtain ⟨input, p, q, store, -, -, -, hedge, -, hrefined⟩ :=
    hpaths [] (List.isChain_singleton _) 0 (by decide) _ rfl _ _ _ _ _ _ _ hcompares
  refine ⟨hgenerate, c, s, p, store, hdeclare, hfixpoint, hedge, fun t name hmem => ?_⟩
  simp only [List.mem_cons, Prod.mk.injEq, List.not_mem_nil, or_false] at hmem
  rcases hmem with ⟨rfl, rfl⟩ | ⟨rfl, rfl⟩
  · obtain ⟨x, -, hx, -, -, hget, hbelow, -⟩ := hrefined 0 1 (by decide) "x" (by decide) (by decide)
    exact ⟨x, hx, hget, hbelow⟩
  · obtain ⟨x, -, hx, -, -, hget, hbelow, -⟩ := hrefined 1 0 (by decide) "y" (by decide) (by decide)
    exact ⟨x, hx, hget, hbelow⟩

/-- The first parameter is assigned after it was compared, and then refined nevertheless. What it is
refined to is below the value that it has now, and not below the one that was compared. -/
theorem refined_after_assignment :
    let after : List Instruction := [.readLocal 3 "z", .assign (.localVariable "x") 3]
    ∃ generated c s store,
      generate loopTypes ⟨[comparingUnit after]⟩ (comparingUnit after) = .ok generated ∧
      (Surroundings.declare ⟨loopTypes, ⟨[comparingUnit after]⟩, "U"⟩ (comparingMethod after)
        (comparingBody after)).result = .ok c ∧
      c.fixpoint.result = .ok s ∧ s.edges.lookup (0, 1) = some store ∧
      store.get? "x" = some (.leaf (c.refinement 0 1 "x")) ∧
      ∀ p, ¬generated.PutsBelow p (c.refinement 0 1 "x") ⟨"U", "m#x", .parameter⟩ := by
  intro after
  let c : MethodContext :=
    ⟨⟨loopTypes, ⟨[comparingUnit after]⟩, "U"⟩, comparingMethod after, comparingBody after, none,
    none, ⟨[("x", .leaf ⟨"U", "m#x", .parameter⟩), ("y", .leaf ⟨"U", "m#y", .parameter⟩),
      ("z", .leaf ⟨"U", "m#z", .parameter⟩)]⟩⟩
  have hgenerate : generate loopTypes ⟨[comparingUnit after]⟩ (comparingUnit after) =
      .ok ⟨"U", comparingSlots, [(.comparable ⟨0⟩ ⟨1⟩, ⟨"U", "m@0:2", .comparison⟩),
        (.subtype ⟨2⟩ ⟨0⟩, ⟨"U", "m@0:4", .assignment⟩),
        (.subtype ⟨4⟩ ⟨2⟩, ⟨"U", "m@0:5", .refinement⟩),
        (.subtype ⟨4⟩ ⟨1⟩, ⟨"U", "m@0:5", .refinement⟩),
        (.subtype ⟨5⟩ ⟨1⟩, ⟨"U", "m@0:5", .refinement⟩),
        (.subtype ⟨5⟩ ⟨0⟩, ⟨"U", "m@0:5", .refinement⟩)]⟩ := by cbv
  have hdeclare :
      (Surroundings.declare ⟨loopTypes, ⟨[comparingUnit after]⟩, "U"⟩ (comparingMethod after)
      (comparingBody after)).result = .ok c := by cbv
  have hedge : (c.fixpoint.result.toOption.bind fun s => s.edges.lookup (0, 1)).bind (·.get? "x") =
      some (.leaf (c.refinement 0 1 "x")) := by cbv
  obtain ⟨store, hstore, hget⟩ := Option.bind_eq_some_iff.mp hedge
  obtain ⟨s, hs, hlookup⟩ := Option.bind_eq_some_iff.mp hstore
  have hfixpoint : c.fixpoint.result = .ok s := by
    cases hresult : c.fixpoint.result with
    | error e => simp [hresult, Except.toOption] at hs
    | ok s' => simpa [hresult, Except.toOption] using hs
  refine ⟨_, c, s, store, hgenerate, hdeclare, hfixpoint, hlookup, hget, ?_⟩
  rintro p ⟨i, j, hi, hj, hmem⟩
  have hrefined : comparingSlots.lookup (c.refinement 0 1 "x") = some ⟨4⟩ := by cbv
  have hparameter : comparingSlots.lookup ⟨"U", "m#x", .parameter⟩ = some ⟨0⟩ := by cbv
  obtain rfl : (⟨4⟩ : SlotId) = i := Option.some.inj (hrefined.symm.trans hi)
  obtain rfl : (⟨0⟩ : SlotId) = j := Option.some.inj (hparameter.symm.trans hj)
  simp at hmem

end Qualify
