import Morpho.Expr

/-! The written form of a program: one parenthesised tree for each function. -/
namespace Morpho

mutual

def Expr.text : Expr → String
  | .literal t => "(literal " ++ t ++ ")"
  | .fetch n => "(fetch " ++ toString n ++ ")"
  | .store n e => "(store " ++ toString n ++ " " ++ e.text ++ ")"
  | .call f args => "(call " ++ f ++ Expr.spaced args ++ ")"
  | .ret e => "(return " ++ e.text ++ ")"
  | .ifThen c y => "(if " ++ c.text ++ " (body" ++ y.spaced ++ "))"
  | .ifElse c y n => "(if " ++ c.text ++ " (body" ++ y.spaced ++ ") (body" ++ n.spaced ++ "))"
  | .block b => "(body" ++ b.spaced ++ ")"
  | .loop c b => "(while " ++ c.text ++ " (body" ++ b.spaced ++ "))"
  | .or l r => "(or " ++ l.text ++ " " ++ r.text ++ ")"
  | .and l r => "(and " ++ l.text ++ " " ++ r.text ++ ")"
  | .not e => "(not " ++ e.text ++ ")"
  | .decl e => "(var " ++ e.text ++ ")"

/-- The expressions, each after a space. -/
def Body.spaced : Body → String
  | .last e => " " ++ e.text
  | .cons e rest => " " ++ e.text ++ rest.spaced

def Expr.spaced : List Expr → String
  | [] => ""
  | e :: es => " " ++ e.text ++ Expr.spaced es

end

def Body.text (b : Body) : String := "(body" ++ b.spaced ++ ")"

def Function.text (f : Function) : String :=
  "(fun " ++ f.name ++ "/" ++ toString f.arity ++ " " ++ f.body.text ++ ")"

/-- One line for each function. -/
def Program.text (p : Program) : String := String.join (p.functions.map fun f => f.text ++ "\n")

end Morpho
