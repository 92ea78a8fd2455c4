import Morpho.Text.Utf8

/-! The module name that a path gives: its last part without the extension. -/
namespace Morpho.ModuleName

def slash : UInt8 := 0x2F
def dot : UInt8 := 0x2E

/-- The parts of a path that name something: empty parts and lone dots do not. -/
def parts (path : List UInt8) : List (List UInt8) :=
  (path.splitOn slash).filter fun p => p != [] && p != [dot]

/-- Cuts before the last dot, unless that is the first byte. -/
def stem (part : List UInt8) : List UInt8 :=
  match part.reverse.dropWhile (· != dot) with
  | _ :: front => if front.isEmpty then part else front.reverse
  | [] => part

/-- The module name of a path, empty if the path ends in no name. -/
def ofPath (path : List UInt8) : String :=
  match (parts path).getLast? with
  | none => ""
  | some part => if part = [dot, dot] then "" else Text.Utf8.decodeLossy (stem part)

end Morpho.ModuleName
