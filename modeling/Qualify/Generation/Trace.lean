import Qualify.Constraint.Basic
import Qualify.Program.Basic
import Qualify.Provenance

namespace Qualify

inductive GenerationError where
  | unknownLocal (method name : String)
  | unknownField (unit name : String)
  | unknownMethod (unit name : String)
  | unknownUnit (name : String)
  | unknownBlock (method : String) (block : BlockId)
  | unknownValue (method : String) (block : BlockId) (temp : Temp)
  | unknownQualifier (location : Location) (name : String)
  | arityMismatch (callee : String) (expected found : Nat)
  | typeArgumentMismatch (callee : String) (expected found : Nat)
  | missingReturnType (method : String)
  | voidResult (callee : String)
  | missingReceiver (method : String)
  | unexpectedReceiver (method : String)
  | duplicateMember (unit name : String)
  | noFixpoint (method : String) (visits : Nat)
  | slot (conflict : SlotConflict)
  | duplicateUnit (name : String)
deriving DecidableEq

def GenerationError.kind : GenerationError → String
  | unknownLocal .. => "UnknownLocal"
  | unknownField .. => "UnknownField"
  | unknownMethod .. => "UnknownMethod"
  | unknownUnit _ => "UnknownUnit"
  | unknownBlock .. => "UnknownBlock"
  | unknownValue .. => "UnknownValue"
  | unknownQualifier .. => "UnknownQualifier"
  | arityMismatch .. => "ArityMismatch"
  | typeArgumentMismatch .. => "TypeArgumentMismatch"
  | missingReturnType _ => "MissingReturnType"
  | voidResult _ => "VoidResult"
  | missingReceiver _ => "MissingReceiver"
  | unexpectedReceiver _ => "UnexpectedReceiver"
  | duplicateMember .. => "DuplicateMember"
  | noFixpoint .. => "NoFixpoint"
  | slot _ => "Slot"
  | duplicateUnit _ => "DuplicateUnit"

def GenerationError.message : GenerationError → String
  | unknownLocal method name => method ++ ": unknown local `" ++ name ++ "`"
  | unknownField unit name => "unknown field `" ++ unit ++ "." ++ name ++ "`"
  | unknownMethod unit name => "unknown method `" ++ unit ++ "." ++ name ++ "`"
  | unknownUnit name => "unknown unit `" ++ name ++ "`"
  | unknownBlock method block => method ++ ": unknown block " ++ toString block
  | unknownValue method block temp =>
    method ++ ": block " ++ toString block ++ " reads undefined value %" ++ toString temp
  | unknownQualifier location name => "unknown qualifier `" ++ name ++ "` at " ++ location.key
  | arityMismatch callee expected found =>
    "call to `" ++ callee ++ "` passes " ++ toString found ++ " arguments, expected " ++
      toString expected
  | typeArgumentMismatch callee expected found =>
    "call to `" ++ callee ++ "` passes " ++ toString found ++ " type arguments, expected " ++
      toString expected
  | missingReturnType method => method ++ " returns a value but declares no return type"
  | voidResult callee => "result of `" ++ callee ++ "` is used but it declares no return type"
  | missingReceiver method => "`" ++ method ++ "` needs a receiver"
  | unexpectedReceiver method => "`" ++ method ++ "` is static but is called with a receiver"
  | duplicateMember unit name =>
    "`" ++ name ++ "` is declared more than once in unit `" ++ unit ++ "`"
  | noFixpoint method visits =>
    method ++ ": flow analysis did not converge after " ++ toString visits ++ " iterations"
  | slot conflict => conflict.message
  | duplicateUnit name => "unit `" ++ name ++ "` is declared more than once"

/-- What reading a program gives: requests of slots, and constraints between the slots of
locations. -/
inductive Event where
  | request (location : Location) (init : SlotInit)
  | require (constraint : Constraint Location) (provenance : Provenance)

def Event.isRequest : Event → Bool
  | request .. => true
  | require .. => false

/-- A reading of a part of the program: its events in order, also those before a failure, and its
result. -/
structure Gen (α : Type) where
  events : List Event
  result : Except GenerationError α

namespace Gen

variable {α β : Type}

def bind (m : Gen α) (f : α → Gen β) : Gen β :=
  match m.result with
  | .ok a =>
    let ⟨events, result⟩ := f a
    ⟨m.events ++ events, result⟩
  | .error e => ⟨m.events, .error e⟩

instance : Monad Gen where
  pure a := ⟨[], .ok a⟩
  bind := bind

def fail (e : GenerationError) : Gen α := ⟨[], .error e⟩

def emit (events : List Event) : Gen Unit := ⟨events, .ok ()⟩

def ofOption (e : GenerationError) : Option α → Gen α
  | some a => pure a
  | none => fail e

def requestsOnly (m : Gen α) : Gen α := { m with events := m.events.filter Event.isRequest }

end Gen

end Qualify
