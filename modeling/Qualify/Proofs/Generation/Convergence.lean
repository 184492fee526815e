import Qualify.Proofs.Generation.Ledger
import Qualify.Proofs.Generation.Paths

namespace Qualify

/-- The reading does not end because of too many visits. -/
def Gen.Converges {α : Type} (x : Gen α) : Prop :=
  ∀ method visits, x.result ≠ .error (.noFixpoint method visits)

namespace Gen

variable {α β : Type}

@[simp] theorem converges_pure (a : α) : (pure a : Gen α).Converges := fun _ _ => nofun

@[simp] theorem converges_bind {x : Gen α} {f : α → Gen β} :
    (x >>= f).Converges ↔ x.Converges ∧ ∀ a, x.result = .ok a → (f a).Converges := by
  show (bind x f).Converges ↔ _
  rcases x with ⟨events, e | a⟩
  · refine ⟨fun h => ⟨fun method visits he => h method visits ?_, fun _ => nofun⟩,
      fun h method visits he => ?_⟩
    · cases he
      rfl
    · cases he
      exact h.1 method visits rfl
  · refine ⟨fun h => ⟨fun _ _ => nofun, ?_⟩, fun h => h.2 a rfl⟩
    rintro _ ⟨⟩
    exact h

@[simp] theorem converges_map {x : Gen α} {f : α → β} : (f <$> x).Converges ↔ x.Converges := by
  rw [map_eq_pure_bind, converges_bind]
  exact and_iff_left fun _ _ => converges_pure _

theorem result_bind {x : Gen α} {f : α → Gen β} {b : β} :
    (x >>= f).result = .ok b ↔ ∃ a, x.result = .ok a ∧ (f a).result = .ok b := by
  have h := reads_bind (P := fun _ => True) (x := x) (f := f) (b := b)
  simpa only [Reads, implies_true, and_true] using h

@[simp] theorem converges_fail {e : GenerationError} :
    (fail e : Gen α).Converges ↔ ∀ method visits, e ≠ .noFixpoint method visits := by
  simp [Converges, fail]

@[simp] theorem converges_emit (events : List Event) : (emit events).Converges := fun _ _ => nofun

@[simp] theorem converges_ofOption {e : GenerationError} {o : Option α} :
    (ofOption e o).Converges ↔ o = none → ∀ method visits, e ≠ .noFixpoint method visits := by
  cases o <;> simp [ofOption]

@[simp] theorem converges_discard {x : Gen α} : (discard x).Converges ↔ x.Converges := by
  have hdiscard : discard x = x >>= fun _ => pure () := rfl
  rw [hdiscard, converges_bind]
  exact and_iff_left fun _ _ => converges_pure ()

@[simp] theorem converges_forM {xs : List α} {f : α → Gen Unit} (h : ∀ x ∈ xs, (f x).Converges) :
    (xs.forM f).Converges := by
  induction xs with
  | nil => exact converges_pure ()
  | cons x xs ih =>
    obtain ⟨hx, hxs⟩ := List.forall_mem_cons.mp h
    exact converges_bind.mpr ⟨hx, fun _ _ => ih hxs⟩

@[simp] theorem converges_requestsOnly {x : Gen α} : x.requestsOnly.Converges ↔ x.Converges :=
  Iff.rfl

end Gen

namespace Surroundings

variable (g : Surroundings)

@[simp] theorem converges_inferred (l : Location) : (g.inferred l).Converges := by simp [inferred]

@[simp] theorem converges_qualifier (name : String) (l : Location) :
    (g.qualifier name l).Converges := by
  simp [qualifier]

mutual

@[simp] theorem converges_typeUse (own : Bool) (l : Location) :
    (t : TypeUse) → (g.typeUse own l t).Converges
  | .mk (some name) args => by simp [typeUse, converges_typeUses own l 0 args]
  | .mk none args => by
    cases own <;> simp [typeUse, preferences, converges_typeUses _ _ 0 args]

@[simp] theorem converges_typeUses (own : Bool) (l : Location) (i : Nat) :
    (ts : List TypeUse) → (g.typeUses own l i ts).Converges
  | [] => by simp [typeUses]
  | t :: ts => by simp [typeUses, converges_typeUse own _ t, converges_typeUses own l (i + 1) ts]

end

@[simp] theorem converges_flowInto (source target : Shape Location) (position : String)
    (rule : Rule) :
    (g.flowInto source target position rule).Converges := by simp [flowInto]

@[simp] theorem converges_field (m : MemberRef) : (g.field m).Converges := by simp [field, owner]

@[simp] theorem converges_callee (m : MemberRef) : (g.callee m).Converges := by simp [callee, owner]

end Surroundings

namespace MethodContext

variable (c : MethodContext)

@[simp] theorem converges_shape (values : Values) (b : BlockId) (t : Temp) :
    (c.shape values b t).Converges := by
  simp [shape, value]

@[simp] theorem converges_passReceiver (owner : String) (m : Method)
    (actual : Option (Shape Location)) (position : String) :
    (c.passReceiver owner m actual position).Converges := by
  unfold passReceiver
  split <;> simp [Surroundings.receiverType]

@[simp] theorem converges_passEach (values : Values) (b : BlockId) (owner : String) (m : Method)
    (position : String) (ts : List Temp) (ps : List Variable) :
    (c.passEach values b owner m position ts ps).Converges := by
  fun_induction passEach <;> simp_all [Surroundings.parameter]

@[simp] theorem converges_passArguments (values : Values) (b : BlockId) (owner : String)
    (m : Method) (args : List Temp) (position : String) :
    (c.passArguments values b owner m args position).Converges := by
  unfold passArguments
  split_ifs <;> simp

@[simp] theorem converges_passTypes (owner : String) (m : Method) (position : String) (i : Nat)
    (ts : List TypeUse) (ps : List TypeParameter) :
    (c.passTypes owner m position i ts ps).Converges := by
  fun_induction passTypes <;> simp_all [Surroundings.typeParameter]

@[simp] theorem converges_passTypeArguments (owner : String) (m : Method) (args : List TypeUse)
    (position : String) :
    (c.passTypeArguments owner m args position).Converges := by
  unfold passTypeArguments
  split_ifs <;> simp

@[simp] theorem converges_instruction (b : BlockId) (position : String) (p : Point)
    (i : Instruction) :
    (c.instruction b position p i).Converges := by
  cases i with
  | literal dst kind => simp [instruction]
  | readLocal dst name => simp [instruction, current]
  | this dst => simp [instruction]
  | readField dst field => simp [instruction]
  | assign target value => cases target <;> simp [instruction, current]
  | call dst method receiver args typeArgs =>
    cases dst <;> cases receiver <;> simp [instruction, Surroundings.returnType]
  | new dst type maker args =>
    cases maker with
    | none => cases hargs : args.isEmpty <;> simp [instruction, hargs]
    | some member =>
      simp only [instruction, Gen.converges_bind, Surroundings.converges_typeUse,
        Surroundings.converges_callee, true_and]
      rintro shape - ⟨owner, m⟩ -
      cases m.receiver.isSome <;> simp
  | cast dst value type => simp [instruction, Surroundings.require]
  | compare dst op lhs rhs => simp [instruction, Surroundings.require]
  | select dst guard name thenValue elseValue => simp [instruction, Surroundings.require]

@[simp] theorem converges_instructions (b : BlockId) (i : Nat) (p : Point) (xs : List Instruction) :
    (c.instructions b i p xs).Converges := by
  induction xs generalizing i p with
  | nil => simp [instructions]
  | cons x xs ih => simp [instructions, ih]

@[simp] theorem converges_refine (b next : BlockId) (position : String) (values : Values)
    (lhs rhs : Temp) (store : FlowStore Location) :
    (c.refine b next position values lhs rhs store).Converges := by
  have hoperand (operand other : Temp) (store : FlowStore Location) :
      (c.refineOperand b next position values operand other store).Converges := by
    unfold refineOperand
    split <;> simp [current, Surroundings.require]
  simp [refine, hoperand]

@[simp] theorem converges_transfer (b : BlockId) (store : FlowStore Location) :
    (c.transfer b store).Converges := by
  have hterminator (position : String) (p : Point) (t : Terminator) :
      (c.terminator b position p t).Converges := by
    cases t with
    | goto target => simp [terminator, block]
    | ret value => cases value <;> simp [terminator]
    | unreachable => simp [terminator]
    | branch condition thenBlock elseBlock =>
      simp only [terminator, Gen.converges_bind, block, value]
      refine ⟨by simp, fun _ _ => ⟨by simp, fun _ _ => ⟨by simp, fun v _ => ?_⟩⟩⟩
      split_ifs
      · simp
      · split <;> simp
  simp [transfer, block, hterminator]

@[simp] theorem converges_entering (s : FlowState) (predecessors : Array (List BlockId))
    (b : BlockId) :
    (c.entering s predecessors b).Converges := by
  unfold entering
  exact Gen.converges_bind.mpr
    ⟨Gen.converges_forM fun l _ => by simp, fun _ _ => Gen.converges_pure _⟩

@[simp] theorem converges_visit (predecessors : Array (List BlockId)) (s : FlowState)
    (b : BlockId) :
    (c.visit predecessors s b).Converges := by
  simp only [visit, Gen.converges_bind, converges_entering, true_and]
  intro entered _
  split_ifs <;> simp

/-- So many visits lead to the state, without any bound on their number. -/
inductive Visited : Nat → FlowState → Prop where
  | start : Visited 0 c.start
  | visit {k : Nat} {s s' : FlowState} {b : BlockId} {rest : List BlockId} : Visited k s →
    s.waiting = b :: rest →
    (c.visit c.body.predecessors { s with waiting := rest } b).result = .ok s' → Visited (k + 1) s'

variable {c} {s s' : FlowState} {k visits : Nat}

theorem Visited.balances (h : c.Visited k s) :
    c.Settling (fun _ => True) s ∧ (∀ b, c.Recorded (fun _ => True) s b) ∧
      ∃ l, c.Balances s l k := by
  induction h with
  | start =>
    obtain ⟨hsettling, hrecorded⟩ := c.settling_start (P := fun _ => True)
    refine ⟨hsettling, hrecorded, ⟨fun _ => 0, fun _ => none, fun _ => 0⟩, ?_⟩
    refine ⟨List.nodup_nil, ?_, fun _ _ => rfl, ?_, ?_, Nat.le_add_right _ _⟩
    · rintro _ _ _ ⟨⟩
    · intro x input hinput
      rw [start_inputs] at hinput
      cases hinput
    · intro x hx
      rw [start_inputs] at hx
      cases hx
  | visit _ hwaiting hresult ih =>
    obtain ⟨hsettling, hrecorded, l, hbalances⟩ := ih
    have hread : (c.visit _ _ _).Reads (fun _ => True) _ := ⟨hresult, fun _ _ => trivial⟩
    obtain ⟨hsettling', hrecorded'⟩ := visit_spec hsettling hrecorded hwaiting hread
    exact ⟨hsettling', hrecorded', hbalances.visit hsettling hwaiting hread⟩

/-- The visits that were made and those that are planned stay within the limit. -/
theorem Visited.le_visitLimit (h : c.Visited k s) : k + s.waiting.length ≤ c.visitLimit := by
  obtain ⟨hsettling, -, l, hbalances⟩ := h.balances
  exact hbalances.visits_le hsettling

/-- The limit is never what ends the visits. -/
theorem converges_settle (h : c.Visited k s) (hvisits : k + visits = c.visitLimit) :
    (c.settle c.body.predecessors visits s).Converges := by
  induction visits generalizing k s with
  | zero =>
    unfold settle
    split
    · exact Gen.converges_pure _
    · next hwaiting =>
      have hle := h.le_visitLimit
      rw [hwaiting, List.length_cons] at hle
      omega
  | succ visits ih =>
    unfold settle
    split
    · exact Gen.converges_pure _
    · next hwaiting =>
      rw [Gen.converges_bind]
      exact ⟨c.converges_visit _ _ _, fun s' hs' => ih (h.visit hwaiting hs') (by omega)⟩

theorem converges_fixpoint : c.fixpoint.Converges := by
  rw [fixpoint, Gen.converges_bind]
  exact ⟨by simp [block], fun _ _ => converges_settle .start (Nat.zero_add _)⟩

theorem settle_visited (h : c.Visited k s)
    (hresult : (c.settle c.body.predecessors visits s).result = .ok s') :
    ∃ k', c.Visited k' s' ∧ s'.waiting = [] := by
  induction visits generalizing k s with
  | zero =>
    unfold settle at hresult
    split at hresult
    · obtain rfl := Except.ok.inj hresult
      exact ⟨k, h, ‹_›⟩
    · cases hresult
  | succ visits ih =>
    unfold settle at hresult
    split at hresult
    · obtain rfl := Except.ok.inj hresult
      exact ⟨k, h, ‹_›⟩
    · next hwaiting =>
      obtain ⟨s₁, hs₁, hresult⟩ := Gen.result_bind.mp hresult
      exact ih (h.visit hwaiting hs₁) hresult

/-- Where the analysis ends, no block waits any more. -/
theorem fixpoint_visited (hresult : c.fixpoint.result = .ok s) :
    ∃ k, c.Visited k s ∧ s.waiting = [] := by
  obtain ⟨_, -, hresult⟩ := Gen.result_bind.mp hresult
  exact settle_visited .start hresult

theorem converges_readBody : c.readBody.Converges := by
  have hblock (s : FlowState) (b : BlockId) : (c.readBlock s b).Converges := by
    unfold readBlock
    split <;> simp
  have hflow (b : BlockId) (name : String) (merged : Shape Location) (store : FlowStore Location) :
      (c.mergeFlow b name merged store).Converges := by
    unfold mergeFlow
    split
    · split_ifs <;> simp
    · simp
  simp only [readBody, Gen.converges_bind, Gen.converges_requestsOnly, mergeFlows]
  refine ⟨converges_fixpoint, fun s _ => ⟨Gen.converges_forM fun b _ => hblock s b, fun _ _ => ?_⟩⟩
  exact Gen.converges_forM fun m _ => Gen.converges_forM fun store _ => hflow _ _ _ store

end MethodContext

namespace Surroundings

variable (g : Surroundings)

theorem converges_declareEach {declare : Variable → Gen (Shape Location)}
    (h : ∀ v, (declare v).Converges) (store : FlowStore Location) (vs : List Variable) :
    (declareEach declare store vs).Converges := by
  induction vs generalizing store with
  | nil => exact Gen.converges_pure _
  | cons v vs ih => exact Gen.converges_bind.mpr ⟨h v, fun _ _ => ih _⟩

theorem converges_optionalType {declare : TypeUse → Gen (Shape Location)}
    (h : ∀ t, (declare t).Converges) (t : Option TypeUse) : (optionalType declare t).Converges := by
  cases t <;> simp [optionalType, h]

theorem converges_declare (m : Method) (body : Body) : (g.declare m body).Converges := by
  simp only [declare, Gen.converges_bind]
  refine ⟨converges_optionalType (fun t => by simp [receiverType]) _, fun _ _ => ?_⟩
  refine ⟨converges_declareEach (fun v => by simp [parameter]) _ _, fun _ _ => ?_⟩
  refine ⟨converges_optionalType (fun t => by simp [returnType]) _, fun _ _ => ?_⟩
  refine ⟨Gen.converges_forM fun p _ => by simp [typeParameter], fun _ _ => ?_⟩
  exact ⟨converges_declareEach (fun v => by simp [localVariable]) _ _, fun _ _ =>
    Gen.converges_pure _⟩

theorem converges_readMethod (m : Method) : (g.readMethod m).Converges := by
  unfold readMethod
  cases m.body with
  | some body =>
    exact Gen.converges_bind.mpr ⟨g.converges_declare m body, fun _ _ =>
      MethodContext.converges_readBody⟩
  | none => exact Gen.converges_discard.mpr (g.converges_declare m _)

theorem converges_readUnit (u : CodeUnit) : (g.readUnit u).Converges := by
  unfold readUnit
  split
  · simp
  · rw [Gen.converges_bind]
    exact ⟨Gen.converges_forM fun f _ => by simp,
      fun _ _ => Gen.converges_forM fun m _ => g.converges_readMethod m⟩

theorem size_declareEach {declare : Variable → Gen (Shape Location)}
    {store store' : FlowStore Location} {vs : List Variable}
    (h : (declareEach declare store vs).result = .ok store') :
    store'.size ≤ store.size + vs.length := by
  induction vs generalizing store with
  | nil =>
    obtain rfl := Except.ok.inj h
    exact Nat.le_refl _
  | cons v vs ih =>
    obtain ⟨shape, -, h⟩ := Gen.result_bind.mp h
    have hset := store.size_set_le v.name shape
    have hrest := ih h
    rw [List.length_cons]
    omega

theorem declare_size {m : Method} {body : Body} {c : MethodContext}
    (h : (g.declare m body).result = .ok c) :
    c.body = body ∧ c.declared.size ≤ m.params.length + m.locals.length := by
  simp only [declare, Gen.result_bind] at h
  obtain ⟨_, -, params, hparams, _, -, _, -, declared, hdeclared, h⟩ := h
  obtain rfl := Except.ok.inj h
  have hsize := size_declareEach hparams
  have hsize' := size_declareEach hdeclared
  rw [show FlowStore.size (σ := Location) {} = 0 from rfl, Nat.zero_add] at hsize
  exact ⟨rfl, by dsimp only; omega⟩

end Surroundings

/-- Reading a unit never fails for lack of visits: whatever the body of a method looks like, the
blocks that wait run out within the limit on visits. -/
theorem generate_converges (types : TypeSystem) (program : Program) (u : CodeUnit) :
    (∀ method visits, generate types program u ≠ .error (.noFixpoint method visits)) ∧
      ∀ m ∈ u.methods, ∀ body, m.body = some body → ∀ c,
        (Surroundings.declare ⟨types, program, u.name⟩ m body).result = .ok c →
        (∀ k s, c.Visited k s → k ≤
          2 * (body.blocks.size + 1) * (body.blocks.size + 1) *
            (m.params.length + m.locals.length + 1)) ∧
        ∀ s, c.fixpoint.result = .ok s → ∃ k, c.Visited k s ∧ s.waiting = [] := by
  constructor
  · intro method visits h
    unfold generate at h
    dsimp only at h
    split at h
    · cases h
    · split at h
      · next hresult =>
        cases h
        exact Surroundings.converges_readUnit _ u method visits hresult
      · cases h
  · intro m _ body _ c hc
    obtain ⟨rfl, hsize⟩ := Surroundings.declare_size _ hc
    refine ⟨fun k s h => ?_, fun s hs => MethodContext.fixpoint_visited hs⟩
    have hle : k ≤ c.visitLimit := (Nat.le_add_right _ _).trans h.le_visitLimit
    exact hle.trans (Nat.mul_le_mul_left _ (Nat.add_le_add_right hsize 1))

/-- Two blocks that lead to each other and are both entered from outside, with copies between local
variables. -/
def crossBody : Body where
  entry := 0
  blocks := #[
    ⟨[.readLocal 0 "x", .readLocal 1 "y", .compare 2 .eq 0 1], .branch 2 1 2⟩,
    ⟨[.readLocal 0 "x", .assign (.localVariable "y") 0, .readLocal 1 "z",
      .assign (.localVariable "x") 1], .goto 2⟩,
    ⟨[.readLocal 0 "y", .assign (.localVariable "z") 0, .literal 1 .null, .readLocal 2 "x",
      .compare 3 .ne 1 2], .branch 3 1 3⟩,
    ⟨[.readLocal 0 "z"], .ret (some 0)⟩]

def crossMethod : Method where
  name := "m"
  receiver := none
  params := [⟨"x", .mk none [.plain]⟩]
  returns := some (.mk none [.plain])
  typeParams := []
  locals := [⟨"y", .mk none [.plain]⟩, ⟨"z", .mk none [.plain]⟩]
  body := some crossBody

def crossUnit : CodeUnit := ⟨"U", [], [crossMethod]⟩

def crossContext : MethodContext where
  surroundings := ⟨loopTypes, ⟨[crossUnit]⟩, "U"⟩
  method := crossMethod
  body := crossBody
  receiver := none
  returns := some (.mk ⟨"U", "m#return", .result⟩ [.leaf ⟨"U", "m#return<0>", .typeArgument⟩])
  declared := ⟨[("x", .mk ⟨"U", "m#x", .parameter⟩ [.leaf ⟨"U", "m#x<0>", .typeArgument⟩]),
    ("y", .mk ⟨"U", "m#y", .localVariable⟩ [.leaf ⟨"U", "m#y<0>", .typeArgument⟩]),
    ("z", .mk ⟨"U", "m#z", .localVariable⟩ [.leaf ⟨"U", "m#z<0>", .typeArgument⟩])]⟩

theorem generate_converges_cross :
    (Surroundings.declare ⟨loopTypes, ⟨[crossUnit]⟩, "U"⟩ crossMethod crossBody).result =
      .ok crossContext ∧
      ∃ s k, crossContext.fixpoint.result = .ok s ∧ crossContext.Visited k s ∧ s.waiting = [] ∧
        k ≤ 200 := by
  have hdeclare :
      (Surroundings.declare ⟨loopTypes, ⟨[crossUnit]⟩, "U"⟩ crossMethod crossBody).result =
          .ok crossContext := by cbv
  have hends : crossContext.fixpoint.result.toOption.isSome = true := by cbv
  obtain ⟨s, hs⟩ := Option.isSome_iff_exists.mp hends
  have hfixpoint : crossContext.fixpoint.result = .ok s := by
    generalize crossContext.fixpoint.result = r at hs
    cases r with
    | error e => cases hs
    | ok s' => exact congrArg _ (Option.some.inj hs)
  obtain ⟨-, hmethods⟩ := generate_converges loopTypes ⟨[crossUnit]⟩ crossUnit
  obtain ⟨hbound, hend⟩ := hmethods crossMethod List.mem_cons_self crossBody rfl crossContext
    hdeclare
  obtain ⟨k, hk, hwaiting⟩ := hend s hfixpoint
  exact ⟨hdeclare, s, k, hfixpoint, hk, hwaiting, hbound k s hk⟩

end Qualify
