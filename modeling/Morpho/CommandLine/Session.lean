import Morpho.CommandLine.Run
import Morpho.FileTree

/-! Runs of the command line on a tree of files, with what they print. -/
namespace Morpho.CommandLine

structure Session where
  tree : FileTree
  printed : String
  /-- Whether the standard output takes nothing. -/
  full : Bool

namespace Session

def words {α : Type} (r : Except SystemError α) : Except String α := r.mapError SystemError.text

def read (path : String) : StateM Session (Except String String) := fun s =>
  (words (s.tree.readText path), s)

def write (path text : String) : StateM Session (Except String Unit) := fun s =>
  match s.tree.write path text.toUTF8.toList with
  | .ok tree => (.ok (), { s with tree })
  | .error e => (.error e.text, s)

def print (text : String) : StateM Session (Except String Unit) := fun s =>
  if s.full && !text.isEmpty then (.error SystemError.noSpace.text, s)
  else (.ok (), { s with printed := s.printed ++ text })

def host : Host (StateM Session) := ⟨read, write, print⟩

/-- Runs the command line; the second part is what the run leaves behind. -/
def run (s : Session) (given : Option Log.Limit) (args : List String) : Outcome × Session :=
  CommandLine.run host given args s

end Session
end Morpho.CommandLine
