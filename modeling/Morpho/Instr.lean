/-! Instructions of the stack machine. The machine has an accumulator and a frame of slots; an
instruction whose name ends in `R` returns from the function after its work, and `makeValP` pushes
the accumulator first. -/
namespace Morpho

abbrev Label := Nat

def Label.text (l : Label) : String := "_" ++ toString l

inductive Instr
  | makeVal (text : String) | makeValR (text : String) | makeValP (text : String)
  | fetch (slot : Nat) | fetchR (slot : Nat)
  | store (slot : Nat) | storeR (slot : Nat)
  | push
  | call (name : String) (argc : Nat) | callR (name : String) (argc : Nat)
  | ret
  | go (l : Label) | goFalse (l : Label) | goTrue (l : Label)
  | label (l : Label)
  | not | notR
  deriving DecidableEq

/-- How code refers to a function: its name and how many arguments it takes. -/
def reference (name : String) (arity : Nat) : String :=
  "#\"" ++ name ++ "[f" ++ toString arity ++ "]\""

namespace Instr

def text : Instr → String
  | makeVal t => "(MakeVal " ++ t ++ ")"
  | makeValR t => "(MakeValR " ++ t ++ ")"
  | makeValP t => "(MakeValP " ++ t ++ ")"
  | fetch n => "(Fetch " ++ toString n ++ ")"
  | fetchR n => "(FetchR " ++ toString n ++ ")"
  | store n => "(Store " ++ toString n ++ ")"
  | storeR n => "(StoreR " ++ toString n ++ ")"
  | push => "(Push)"
  | call f n => "(Call " ++ reference f n ++ " " ++ toString n ++ ")"
  | callR f n => "(CallR " ++ reference f n ++ " " ++ toString n ++ ")"
  | ret => "(Return)"
  | go l => "(Go " ++ l.text ++ ")"
  | goFalse l => "(GoFalse " ++ l.text ++ ")"
  | goTrue l => "(GoTrue " ++ l.text ++ ")"
  | label l => l.text ++ ":"
  | not => "(Not)"
  | notR => "(NotR)"

/-- The label that a branch may go to. -/
def target? : Instr → Option Label
  | go l | goFalse l | goTrue l => some l
  | _ => none

end Instr
end Morpho
