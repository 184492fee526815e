import Qualify.Proofs.Generation.Reading

namespace Qualify

namespace Surroundings

def within (g : Surroundings) (p : Program) : Surroundings := { g with program := p }

variable {g : Surroundings} {p : Program}

mutual

theorem typeUse_within (own : Bool) (l : Location) :
    (t : TypeUse) → (g.within p).typeUse own l t = g.typeUse own l t
  | .mk (some name) args => by
    rw [typeUse, typeUse, typeUses_within own l 0 args]
    rfl
  | .mk none args => by
    simp only [typeUse, fun l => typeUses_within own l 0 args]
    rfl

theorem typeUses_within (own : Bool) (l : Location) (i : Nat) :
    (ts : List TypeUse) → (g.within p).typeUses own l i ts = g.typeUses own l i ts
  | [] => rfl
  | t :: ts => by rw [typeUses, typeUses, typeUse_within own _ t, typeUses_within own l (i + 1) ts]

end

variable (h : ∀ name, p.unit? name = g.program.unit? name)
include h

theorem owner_within (m : MemberRef) : (g.within p).owner m = g.owner m := by
  rw [owner, owner]
  exact congrArg _ (h _)

theorem field_within (m : MemberRef) : (g.within p).field m = g.field m := by
  simp only [field, owner_within h, typeUse_within]

theorem callee_within (m : MemberRef) : (g.within p).callee m = g.callee m := by
  simp only [callee, owner_within h]

end Surroundings

namespace MethodContext

def within (c : MethodContext) (p : Program) : MethodContext :=
  { c with surroundings := c.surroundings.within p }

variable {c : MethodContext} {p : Program}

theorem surroundings_within : (c.within p).surroundings = c.surroundings.within p := rfl

theorem passReceiver_within (owner : String) (m : Method) (actual : Option (Shape Location))
    (position : String) :
    (c.within p).passReceiver owner m actual position = c.passReceiver owner m actual position := by
  simp only [passReceiver, surroundings_within, Surroundings.receiverType,
    Surroundings.typeUse_within]
  rfl

theorem passEach_within (values : Values) (b : BlockId) (owner : String) (m : Method)
    (position : String) (ts : List Temp) (ps : List Variable) :
    (c.within p).passEach values b owner m position ts ps =
      c.passEach values b owner m position ts ps := by
  induction ts generalizing ps with
  | nil => rfl
  | cons t ts ih =>
    cases ps with
    | nil => rfl
    | cons v ps =>
      simp only [passEach, ih, surroundings_within, Surroundings.parameter,
        Surroundings.typeUse_within]
      rfl

theorem passTypes_within (owner : String) (m : Method) (position : String) (i : Nat)
    (ts : List TypeUse) (ps : List TypeParameter) :
    (c.within p).passTypes owner m position i ts ps = c.passTypes owner m position i ts ps := by
  induction ts generalizing i ps with
  | nil => rfl
  | cons t ts ih =>
    cases ps with
    | nil => rfl
    | cons v ps =>
      simp only [passTypes, ih, surroundings_within, Surroundings.typeParameter,
        Surroundings.typeUse_within]
      rfl

theorem passArguments_within (values : Values) (b : BlockId) (owner : String) (m : Method)
    (args : List Temp) (position : String) :
    (c.within p).passArguments values b owner m args position =
      c.passArguments values b owner m args position := by
  simp only [passArguments, passEach_within]

theorem passTypeArguments_within (owner : String) (m : Method) (args : List TypeUse)
    (position : String) :
    (c.within p).passTypeArguments owner m args position =
      c.passTypeArguments owner m args position := by
  simp only [passTypeArguments, passTypes_within]

variable (h : ∀ name, p.unit? name = c.surroundings.program.unit? name)
include h

theorem instruction_within (b : BlockId) (position : String) (x : Point) (i : Instruction) :
    (c.within p).instruction b position x i = c.instruction b position x i := by
  have hfield := Surroundings.field_within h
  have hcallee := Surroundings.callee_within h
  cases i with
  | literal | readLocal | this | compare | select => rfl
  | readField dst field => simp only [instruction, surroundings_within, hfield]
  | assign target value =>
    cases target with
    | localVariable name => rfl
    | field field =>
      simp only [instruction, surroundings_within, hfield]
      rfl
  | call dst method receiver args typeArgs =>
    simp only [instruction, surroundings_within, hcallee, passReceiver_within, passArguments_within,
      passTypeArguments_within, Surroundings.returnType, Surroundings.typeUse_within]
    rfl
  | new dst type maker args =>
    simp only [instruction, surroundings_within, hcallee, passReceiver_within, passArguments_within,
      Surroundings.typeUse_within]
    rfl
  | cast dst value type =>
    simp only [instruction, surroundings_within, Surroundings.typeUse_within]
    rfl

theorem instructions_within (b : BlockId) (i : Nat) (x : Point) (xs : List Instruction) :
    (c.within p).instructions b i x xs = c.instructions b i x xs := by
  induction xs generalizing i x with
  | nil => rfl
  | cons y ys ih =>
    simp only [instructions, instruction_within h, ih]
    rfl

theorem transfer_within (b : BlockId) (store : FlowStore Location) :
    (c.within p).transfer b store = c.transfer b store := by
  simp only [transfer, instructions_within h]
  rfl

theorem visit_within (predecessors : Array (List BlockId)) (s : FlowState) (b : BlockId) :
    (c.within p).visit predecessors s b = c.visit predecessors s b := by
  simp only [visit, transfer_within h]
  rfl

theorem settle_within (predecessors : Array (List BlockId)) (visits : Nat) (s : FlowState) :
    (c.within p).settle predecessors visits s = c.settle predecessors visits s := by
  induction visits generalizing s with
  | zero =>
    rw [settle, settle]
    rfl
  | succ visits ih =>
    rw [settle, settle]
    simp only [visit_within h, ih]

theorem readBody_within : (c.within p).readBody = c.readBody := by
  have hfixpoint : (c.within p).fixpoint = c.fixpoint := by
    unfold fixpoint
    rw [settle_within h]
    rfl
  have hblock : (c.within p).readBlock = c.readBlock := by
    funext s b
    simp only [readBlock, transfer_within h]
  rw [readBody, readBody, hfixpoint, hblock]
  rfl

end MethodContext

namespace Surroundings

variable {g : Surroundings} {p : Program} (h : ∀ name, p.unit? name = g.program.unit? name)
include h

theorem readMethod_within (m : Method) : (g.within p).readMethod m = g.readMethod m := by
  have htypes (own : Bool) (l : Location) : (g.within p).typeUse own l = g.typeUse own l :=
    funext (typeUse_within own l)
  have hbody : ∀ (body : Body) (receiver returns : Option (Shape Location))
      (declared : FlowStore Location),
      MethodContext.readBody ⟨g.within p, m, body, receiver, returns, declared⟩ =
        MethodContext.readBody ⟨g, m, body, receiver, returns, declared⟩ :=
    fun body receiver returns declared =>
      MethodContext.readBody_within (c := ⟨g, m, body, receiver, returns, declared⟩) h
  have hdiscard {α : Type} (x : Gen α) : discard x = x >>= fun _ => pure () := rfl
  unfold readMethod declare receiverType parameter returnType typeParameter localVariable
  simp only [hdiscard, bind_assoc, pure_bind, htypes, hbody]
  rfl

theorem readUnit_within (u : CodeUnit) : (g.within p).readUnit u = g.readUnit u := by
  have hmethods : (g.within p).readMethod = g.readMethod := funext (readMethod_within h)
  simp only [readUnit, hmethods, typeUse_within]
  rfl

end Surroundings

/-- What a unit gives depends on the units that its program has under their names, not on their
order. -/
theorem generate_congr {p p' : Program} (h : ∀ name, p'.unit? name = p.unit? name)
    (types : TypeSystem) (u : CodeUnit) :
    generate types p' u = generate types p u := by
  have hread : Surroundings.readUnit ⟨types, p', u.name⟩ u =
    Surroundings.readUnit ⟨types, p, u.name⟩ u :=
    Surroundings.readUnit_within (g := ⟨types, p, u.name⟩) h u
  simp only [generate, hread]

end Qualify
