import Morpho.Scopes
import Morpho.Log

/-! Steps of a parser. Its state is what is left of the tokens, the scopes that are open and the log
of its work, which outlives a failure. The end of the file is never consumed. -/
namespace Morpho

namespace Parser

structure State where
  /-- The tokens left before the end of the file. -/
  tokens : List Token
  /-- Where the end of the file stands. -/
  stop : Position
  scopes : Scopes
  /-- What happened so far, newest first. -/
  log : List Log.Event

namespace State

/-- The next token, which is the end of the file once no other is left. -/
def current (s : State) : Token := s.tokens.headD (.eof s.stop)

/-- Where the first end of the file in a token list stands; a list without one ends right after its
last token. -/
def stopOf (ts : List Token) : Position :=
  match ts.find? (·.kind = .eof), ts.getLast? with
  | some t, _ => t.pos
  | none, some t => t.stop
  | none, none => .start

def ofTokens (ts : List Token) : State :=
  ⟨ts.takeWhile (·.kind ≠ .eof), stopOf ts, .empty, []⟩

end State
end Parser

abbrev Parser := EStateM (Failure Diagnostic) Parser.State

namespace Parser

def current : Parser Token := fun s => .ok s.current s

def check (k : Token.Kind) : Parser Bool := fun s => .ok (s.current.kind = k) s

/-- Whether the token after the next one has kind `k`. -/
def checkSecond (k : Token.Kind) : Parser Bool := fun s => .ok (s.tokens[1]?.any (·.kind = k)) s

def advance : Parser Token := fun s => .ok s.current { s with tokens := s.tokens.tail }

/-- Consumes the next token if it has kind `k`. -/
def accept (k : Token.Kind) : Parser Bool := do
  if ← check k then
    let _ ← advance
    return true
  else return false

/-- Fails at the next token. -/
def unexpected {α : Type} (wanted : String) : Parser α :=
  fun s => .error (.found (s.current.diagnostic wanted)) s

/-- Consumes the next token, which has to have kind `k`. -/
def expect (k : Token.Kind) : Parser Token := do
  if ← check k then advance else unexpected k.description

def openScope : Parser Unit := fun s =>
  .ok () { s with scopes := s.scopes.push, log := .opened (s.scopes.depth + 1) :: s.log }

def closeScope : Parser Unit := fun s =>
  match s.scopes.pop with
  | .ok (held, scopes) =>
    .ok () { s with scopes, log := .closed scopes.depth held.length :: s.log }
  | .error f => .error (.fault f) s

/-- Declares the variable that `t` names. -/
def declare (t : Token) : Parser Unit := fun s =>
  match s.scopes.bind t.lexeme with
  | .ok (slot, scopes) => .ok () { s with scopes, log := .bound t.lexeme slot :: s.log }
  | .error e => .error (e.map (⟨·, t.pos⟩)) s

/-- The slot of the variable that `t` names. -/
def resolve (t : Token) : Parser Nat := fun s =>
  match s.scopes.find t.lexeme with
  | .ok slot => .ok slot s
  | .error c => .error (.found ⟨c, t.pos⟩) s

def tell (e : Log.Event) : Parser Unit := fun s => .ok () { s with log := e :: s.log }

end Parser
end Morpho
