import Morpho.Token
import Morpho.Text.Lines

/-! What is wrong with a source text, where, and how it is shown. -/
namespace Morpho

inductive Cause
  | expected (wanted found : String)
  | alreadyDeclared (name : String)
  | undeclared (name : String)
  deriving DecidableEq

namespace Cause

def message : Cause → String
  | expected wanted found => "expected " ++ wanted ++ ", found '" ++ found ++ "'"
  | alreadyDeclared name => "variable name '" ++ name ++ "' is already declared in this scope"
  | undeclared name => "variable name '" ++ name ++ "' is not declared"

/-- A name declared twice in one scope. -/
def isConflict : Cause → Bool
  | alreadyDeclared _ => true
  | _ => false

/-- A name that no open scope binds. -/
def isUndeclared : Cause → Bool
  | undeclared _ => true
  | _ => false

end Cause

structure Diagnostic where
  cause : Cause
  pos : Position
  deriving DecidableEq

namespace Diagnostic

def message (d : Diagnostic) : String :=
  d.cause.message ++ " near line " ++ toString d.pos.line ++ ", column " ++ toString d.pos.column

/-- A caret under column `column` of a line, or right after its end if it is shorter. -/
def caret (line : List Char) (column : Nat) : List Char :=
  List.replicate (min line.length (column - 1)) ' ' ++ ['^']

/-- The message, followed by the line it is about and a caret if the text has that line. -/
def render (d : Diagnostic) (source : String) : String :=
  match (Text.lines source.toList)[d.pos.line - 1]? with
  | none => d.message
  | some line =>
    d.message ++ "\n" ++ String.ofList line ++ "\n" ++ String.ofList (caret line d.pos.column)

end Diagnostic

/-- The finding that something else than `t` was wanted where it stands. -/
def Token.diagnostic (t : Token) (wanted : String) : Diagnostic :=
  ⟨.expected wanted t.description, t.pos⟩

end Morpho
