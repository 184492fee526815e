import Qualify.Json.Basic
import Qualify.Lattice.Basic

namespace Qualify

namespace Lattice

def rowJson (l : Lattice) (q : Qualifier) : Json :=
  let indices (qs : List Qualifier) : Json := .ofList (fun (q : Qualifier) => .ofNat q.index) qs
  let bits (relation : Qualifier → Bool) : Json :=
    .ofList (fun p => .ofNat (if relation p then 1 else 0)) l.qualifiers
  .object [("name", .string (l.nameOf q)), ("up", indices (l.supertypes q)),
    ("down", indices (l.subtypes q)), ("incomparable", indices (l.incomparable q)),
    ("lub", indices (l.qualifiers.map (l.lub q))), ("glb", indices (l.qualifiers.map (l.glb q))),
    ("subtype", bits (l.isSubtype q)), ("comparable", bits (l.isComparable q))]

end Lattice

end Qualify
