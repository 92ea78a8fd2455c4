import Morpho.Lexeme

/-! A text as its tokens, each at its place, and the end of the file last. -/
namespace Morpho.Token

/-- The tokens of a text at `p` whose first `owed` characters belong to a lexeme already read. -/
def scan : Nat → Position → List Char → Except Diagnostic (List Token)
  | _, p, [] => .ok [eof p]
  | owed + 1, p, c :: cs => scan owed (p.next c) cs
  | 0, p, c :: cs =>
    match Lexeme.read c cs with
    | .error e => .error ⟨e, p⟩
    | .ok l => (scan (l.text.length - 1) (p.next c) cs).map (l.tokens p ++ ·)

def ofText (cs : List Char) : Except Diagnostic (List Token) := scan 0 .start cs

def ofSource (source : String) : Except Diagnostic (List Token) := ofText source.toList

end Morpho.Token
