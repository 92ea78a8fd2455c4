import Morpho.CommandLine.Run
import Morpho.FileTree

/-! The command line program. -/
namespace Morpho.CommandLine.Native

/-- The words of the system for a failed request. -/
def words : IO.Error → String
  | .noFileOrDirectory _ _ _ => SystemError.notFound.text
  | .inappropriateType _ _ _ => SystemError.isDirectory.text
  | .resourceExhausted _ _ _ => SystemError.noSpace.text
  | e => toString e

def attempt {α : Type} (act : IO α) : IO (Except String α) := do
  try return .ok (← act)
  catch e => return .error (words e)

def host : Host IO where
  read path := do
    match ← attempt (IO.FS.readBinFile path) with
    | .error e => return .error e
    | .ok content =>
      match Text.Utf8.decode? content.toList with
      | some text => return .ok text
      | none => return .error SystemError.notUtf8.text
  write path text := attempt (IO.FS.writeFile path text)
  print text := attempt do
    let out ← IO.getStdout
    out.putStr text
    out.flush

def usage : String :=
  "usage: nanomorpho [-v] [-o PATH] [--module-name NAME] [--emit asm|ast] SOURCE"

end Morpho.CommandLine.Native

open Morpho CommandLine

def main (args : List String) : IO UInt32 := do
  let given := (← IO.getEnv "MORPHO_LOG").bind Log.Limit.ofText?
  let r ← run Native.host given args
  r.log.forM fun line => IO.eprintln line
  if r.exit = 2 then IO.eprintln Native.usage
  if let some problem := r.problem then IO.eprintln problem
  return r.exit.toUInt32
