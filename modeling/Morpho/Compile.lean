import Morpho.Token.Scan
import Morpho.Phrase
import Morpho.Expr.Text
import Morpho.Assembly

/-! From source text to a program, and on to its text or its assembly. -/
namespace Morpho

/-- A result with the log of the work on it. -/
structure Logged (α : Type) where
  result : Except (Failure Diagnostic) α
  log : List Log.Event

namespace Phrase

/-- Phrases nest at most sixteen deep between two tokens. -/
def fuel (ts : List Token) : Nat := 16 * (ts.length + 1)

/-- Reads a token list as one phrase. -/
def run (p : Phrase) (ts : List Token) : Logged p.Tree :=
  match parse (fuel ts) p (.ofTokens ts) with
  | .ok tree s => ⟨.ok tree, s.log.reverse⟩
  | .error e s => ⟨.error e, s.log.reverse⟩

end Phrase

namespace Program

def loggedOfTokens (ts : List Token) : Logged Program :=
  let r := Phrase.program.run ts
  ⟨r.result.map Program.mk, r.log⟩

/-- The program that a token list stands for. Tokens after the first end of the file do not count,
and a missing one is supplied. -/
def ofTokens (ts : List Token) : Except (Failure Diagnostic) Program := (loggedOfTokens ts).result

def loggedOfSource (source : String) : Logged Program :=
  match Token.ofSource source with
  | .ok ts => loggedOfTokens ts
  | .error d => ⟨.error (.found d), []⟩

def ofSource (source : String) : Except (Failure Diagnostic) Program :=
  (loggedOfSource source).result

def assembly (p : Program) (moduleName : String) : String := Morpho.assembly moduleName p.routines

end Program

/-- What a compilation produces: assembly, or the text of the program. -/
inductive Artifact
  | asm
  | ast
  deriving DecidableEq

namespace Artifact

def text (a : Artifact) (moduleName : String) (p : Program) : String :=
  match a with
  | asm => p.assembly moduleName
  | ast => p.text

/-- What producing it adds to the log. -/
def log (a : Artifact) (p : Program) : List Log.Event :=
  match a with
  | asm => p.routines.map fun r => .generated r.name r.arity r.code.length
  | ast => []

def compile (a : Artifact) (moduleName source : String) : Logged String :=
  let r := Program.loggedOfSource source
  match r.result with
  | .ok p => ⟨.ok (a.text moduleName p), r.log ++ a.log p⟩
  | .error e => ⟨.error e, r.log⟩

end Artifact

/-- The assembly of the module that a source text stands for. -/
def compile (moduleName source : String) : Except (Failure Diagnostic) String :=
  (Artifact.asm.compile moduleName source).result

end Morpho
