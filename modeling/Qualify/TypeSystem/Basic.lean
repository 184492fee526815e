import Qualify.Lattice.Load
import Qualify.Kind
import Qualify.Weight

namespace Qualify

structure PreferenceDescription where
  kind : SlotKind
  qualifier : String
  weight : Weight

structure TypeSystemDescription where
  lattice : LatticeDescription
  defaults : List (SlotKind × String) := []
  literals : List (LiteralKind × String) := []
  preferences : List PreferenceDescription := []

structure PreferenceRule where
  kind : SlotKind
  qualifier : Qualifier
  weight : Weight

structure TypeSystem where
  lattice : Lattice
  defaults : List (SlotKind × Qualifier) := []
  literals : List (LiteralKind × Qualifier) := []
  preferences : List PreferenceRule := []

inductive TypeSystemError where
  | lattice (error : LatticeError)
  | unknownQualifier (context name : String)
  | zeroWeight (qualifier : String)

def TypeSystemError.kind : TypeSystemError → String
  | lattice _ => "Lattice"
  | unknownQualifier .. => "UnknownQualifier"
  | zeroWeight _ => "ZeroWeight"

def TypeSystemError.message : TypeSystemError → String
  | lattice error => "malformed lattice: " ++ error.message
  | unknownQualifier context name => context ++ " refers to unknown qualifier `" ++ name ++ "`"
  | zeroWeight qualifier => "preference for `" ++ qualifier ++ "` has zero weight"

namespace TypeSystem

def defaultFor (t : TypeSystem) (k : SlotKind) : Option Qualifier := t.defaults.lookup k

/-- The qualifier of a literal, the least one if nothing is declared. -/
def literal (t : TypeSystem) (k : LiteralKind) : Qualifier :=
  (t.literals.lookup k).getD t.lattice.bottom

def preferencesFor (t : TypeSystem) (k : SlotKind) : List PreferenceRule :=
  t.preferences.filter (·.kind == k)

def resolve (l : Lattice) (context name : String) : Except TypeSystemError Qualifier :=
  match l.qualifier? name with
  | some q => .ok q
  | none => .error (.unknownQualifier context name)

def load (d : TypeSystemDescription) : Except TypeSystemError TypeSystem := do
  let lattice ← (Lattice.load d.lattice).mapError .lattice
  let defaults ← d.defaults.mapM fun (k, name) => do
    return (k, ← resolve lattice ("default for " ++ k.text) name)
  let literals ← d.literals.mapM fun (k, name) => do
    return (k, ← resolve lattice ("literal rule for " ++ k.title) name)
  let preferences ← d.preferences.mapM fun p => do
    if p.weight = 0 then .error (.zeroWeight p.qualifier)
    else return ⟨p.kind, ← resolve lattice ("preference for " ++ p.kind.text) p.qualifier, p.weight⟩
  return { lattice, defaults, literals, preferences }

end TypeSystem

end Qualify
