import Qualify.Names
import Qualify.Program.Basic

namespace Qualify

namespace CodeUnit

/-- Of fields of one name the last one counts. -/
def field? (u : CodeUnit) (name : String) : Option Variable :=
  u.fields.reverse.find? (·.name == name)

def method? (u : CodeUnit) (name : String) : Option Method :=
  u.methods.reverse.find? (·.name == name)

end CodeUnit

namespace Program

def unit? (p : Program) (name : String) : Option CodeUnit := p.units.find? (·.name == name)

def duplicateUnit? (p : Program) : Option String := repeated? [] (p.units.map (·.name))

end Program

end Qualify
