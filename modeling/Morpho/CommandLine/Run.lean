import Morpho.CommandLine.Options
import Morpho.ModuleName

/-! One run of the command line: read the source, compile it, write the result. -/
namespace Morpho.CommandLine

/-- What a run asks of its surroundings. Each request fails with the words of the system. -/
structure Host (m : Type → Type) where
  read : String → m (Except String String)
  write : String → String → m (Except String Unit)
  print : String → m (Except String Unit)

/-- What became of a compilation: its log, and what went wrong if anything did. -/
structure Report where
  log : List Log.Event
  problem : Option String

def Options.name (o : Options) : String :=
  o.moduleName.getD (ModuleName.ofPath o.source.toUTF8.toList)

def describe (source : String) : Failure Diagnostic → String
  | .fault f => f.message
  | .found d => d.render source

variable {m : Type → Type} [Monad m]

/-- Hands a text over: to the output file, or to the standard output if there is none. -/
def deliver (h : Host m) (o : Options) (text : String) : m Report :=
  match o.output with
  | some path => do
    match ← h.write path text with
    | .ok _ => return ⟨[.wrote path], none⟩
    | .error e => return ⟨[], some ("cannot write " ++ path ++ ": " ++ e)⟩
  | none => do
    match ← h.print text with
    | .ok _ => return ⟨[], none⟩
    | .error e => return ⟨[], some ("cannot write to standard output: " ++ e)⟩

/-- Nothing is written unless the compilation succeeds. -/
def compileFile (h : Host m) (o : Options) : m Report := do
  let begun := Log.Event.compiling o.source
  match ← h.read o.source with
  | .error e => return ⟨[begun], some ("cannot read " ++ o.source ++ ": " ++ e)⟩
  | .ok source =>
    let c := o.artifact.compile o.name source
    match c.result with
    | .error e => return ⟨begun :: c.log, some (describe source e)⟩
    | .ok text =>
      let r ← deliver h o text
      return ⟨begun :: c.log ++ r.log, r.problem⟩

def version : String := "nanomorpho 0.1.0\n"

/-- How a run ends: its exit code, the lines of its log and the problem it ran into. -/
structure Outcome where
  exit : Nat
  log : List String
  problem : Option String
  deriving DecidableEq

/-- Without a limit of its own a run shows warnings, and with `verbose` its main steps too. -/
def Options.limit (o : Options) (given : Option Log.Limit) : Log.Limit :=
  given.getD (some (if o.verbose then .debug else .warn))

/-- Runs the command line under a log limit that may be given from outside. -/
def run (h : Host m) (given : Option Log.Limit) (args : List String) : m Outcome :=
  match Options.ofArgs args with
  | .error .usage => return ⟨2, [], none⟩
  | .error .version => do
    let _ ← h.print version
    return ⟨0, [], none⟩
  | .ok o => do
    let r ← compileFile h o
    return ⟨if r.problem.isSome then 1 else 0, Log.lines (o.limit given) r.log, r.problem⟩

end Morpho.CommandLine
