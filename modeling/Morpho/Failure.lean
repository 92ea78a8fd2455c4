/-! Why an operation gave no result. -/
namespace Morpho

/-- A promise broken by a caller of this library, which no source text can cause. -/
inductive Fault
  | closeWithoutScope
  | bindWithoutScope
  | emptyBody
  | outOfFuel
  deriving DecidableEq

def Fault.message : Fault → String
  | closeWithoutScope => "pop_scope called with no open scope"
  | bindWithoutScope => "add_var called with no open scope"
  | emptyBody => "a body holds at least one expression"
  | outOfFuel => "out of fuel"

/-- Why an operation gave no result: a fault, or a finding about its input. -/
inductive Failure (ε : Type)
  | fault (f : Fault)
  | found (e : ε)
  deriving DecidableEq

namespace Failure

def map {ε ε' : Type} (f : ε → ε') : Failure ε → Failure ε'
  | fault x => fault x
  | found e => found (f e)

end Failure
end Morpho
