import Morpho.Text.Utf8

/-! A tree of files, and how a path is followed in it. A path is followed part by part from the root
of the tree. Directories are there because a file is below them; what lies above the tree or apart
from it is a directory of which nothing is known. -/
namespace Morpho

/-- Why a request to the system failed. -/
inductive SystemError
  | notFound
  | notDirectory
  | isDirectory
  | noSpace
  | notUtf8
  deriving DecidableEq

def SystemError.text : SystemError → String
  | notFound => "No such file or directory (os error 2)"
  | notDirectory => "Not a directory (os error 20)"
  | isDirectory => "Is a directory (os error 21)"
  | noSpace => "No space left on device (os error 28)"
  | notUtf8 => "stream did not contain valid UTF-8"

/-- Files by the parts of their paths. Paths that leave the tree start with `..` or `/`. -/
structure FileTree where
  files : List (List String × List UInt8)
  deriving DecidableEq

namespace FileTree

def empty : FileTree := ⟨[]⟩

def get? (t : FileTree) (path : List String) : Option (List UInt8) := t.files.lookup path

def put (t : FileTree) (path : List String) (content : List UInt8) : FileTree :=
  ⟨(path, content) :: t.files.filter (·.1 != path)⟩

def isDirectory (t : FileTree) (path : List String) : Bool :=
  path.all (· == "..") || path == ["/"] ||
    t.files.any fun f => path.isPrefixOf f.1 && path != f.1

def parent (path : List String) : List String :=
  if path.all (· == "..") then path ++ [".."] else if path = ["/"] then path else path.dropLast

/-- The parts of a path, empty ones and lone dots included. -/
def split (path : String) : List String := (path.toList.splitOn '/').map String.ofList

/-- The parts of a plain path, as files are listed by. -/
def parts (path : String) : List String := (split path).filter fun p => p != "" && p != "."

/-- What a path leads to: a directory, or the place of a file, which may be there or not and may
have been named with a slash at its end. -/
inductive Place
  | directory
  | entry (path : List String) (slash : Bool)
  deriving DecidableEq

/-- Follows the parts of a path from the directory `here`. -/
def follow (t : FileTree) (here : List String) : List String → Except SystemError Place
  | [] => .ok .directory
  | part :: rest =>
    if part = "" || part = "." then t.follow here rest
    else if part = ".." then t.follow (parent here) rest
    else
      let path := here ++ [part]
      if t.isDirectory path then t.follow path rest
      else if rest.all (· == "") then .ok (.entry path !rest.isEmpty)
      else .error (if (t.get? path).isSome then .notDirectory else .notFound)

def locate (t : FileTree) (path : String) : Except SystemError Place :=
  if path.isEmpty then .error .notFound
  else t.follow (if path.toList.head? = some '/' then ["/"] else []) (split path)

/-- Reads a file. A slash after its name asks for a directory. -/
def read (t : FileTree) (path : String) : Except SystemError (List UInt8) :=
  match t.locate path with
  | .error e => .error e
  | .ok .directory => .error .isDirectory
  | .ok (.entry p slash) =>
    match t.get? p with
    | some content => if slash then .error .notDirectory else .ok content
    | none => .error .notFound

def readText (t : FileTree) (path : String) : Except SystemError String :=
  match t.read path with
  | .error e => .error e
  | .ok content =>
    match Text.Utf8.decode? content with
    | some text => .ok text
    | none => .error .notUtf8

/-- Writes a file, in place of one that is there already. No file can be made under a name with a
slash after it, whatever is there. -/
def write (t : FileTree) (path : String) (content : List UInt8) : Except SystemError FileTree :=
  match t.locate path with
  | .error e => .error e
  | .ok .directory | .ok (.entry _ true) => .error .isDirectory
  | .ok (.entry p false) => .ok (t.put p content)

end FileTree
end Morpho
