import Morpho.Routine

/-! The text of a module: the code of its functions between a fixed head and foot. -/
namespace Morpho

/-- Each text on a line of its own. -/
def unlines (ts : List String) : String := String.join (ts.map (· ++ "\n"))

def Routine.text (r : Routine) : String :=
  reference r.name r.arity ++ " =\n[\n" ++ unlines (r.code.map Instr.text) ++ "];\n"

def assembly (moduleName : String) (rs : List Routine) : String :=
  "\"" ++ moduleName ++ ".mexe\" = main in\n!\n\x7b\x7b\n" ++ String.join (rs.map Routine.text) ++
    "\x7d\x7d\n*\nBASIS;\n"

end Morpho
