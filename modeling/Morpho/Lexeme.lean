import Morpho.Token
import Morpho.Diagnostic

/-! The lexeme at the head of a text. A lexeme is the longest start of the text that its first
character allows: a number, a quoted literal, a word, a run of operator characters or one mark.
Blanks and comments are lexemes that stand for no token. -/
namespace Morpho

def isBlank (c : Char) : Bool := c == ' ' || c == '\t' || c == '\n' || c == '\x0c' || c == '\r'
def isWordStart (c : Char) : Bool := c.isAlpha || c == '_'
def isWordChar (c : Char) : Bool := c.isAlphanum || c == '_'
def isOperatorChar (c : Char) : Bool :=
  ['+', '-', '*', '/', '!', '%', '&', '=', '>', '<', ':', '^', '~', '|', '?'].contains c
def isMark (c : Char) : Bool := ['(', ')', '{', '}', ',', ';'].contains c
def isQuote (c : Char) : Bool := c == '"' || c == '\''

/-- What stands at the head of a text: something to skip, or the text of a token. -/
inductive Lexeme
  | skipped (text : List Char)
  | token (kind : Token.Kind) (text : List Char)
  deriving DecidableEq

namespace Lexeme

def text : Lexeme → List Char
  | skipped cs => cs
  | token _ cs => cs

/-- The tokens that a lexeme at `p` stands for. -/
def tokens (p : Position) : Lexeme → List Token
  | skipped _ => []
  | token k cs => [⟨k, String.ofList cs, p⟩]

/-- A point and the digits after it, if there are any. -/
def fraction : List Char → List Char
  | '.' :: cs =>
    let digits := cs.takeWhile Char.isDigit
    if digits.isEmpty then [] else '.' :: digits
  | _ => []

def sign : List Char → List Char
  | c :: _ => if c == '+' || c == '-' then [c] else []
  | [] => []

/-- A mark, a sign or none, and digits, if there are any. -/
def exponent : List Char → List Char
  | e :: cs =>
    let s := sign cs
    let digits := (cs.drop s.length).takeWhile Char.isDigit
    if (e == 'e' || e == 'E') && !digits.isEmpty then e :: (s ++ digits) else []
  | [] => []

def number (cs : List Char) : List Char :=
  let digits := cs.takeWhile Char.isDigit
  let frac := fraction (cs.drop digits.length)
  digits ++ frac ++ exponent (cs.drop (digits.length + frac.length))

/-- What a quoted literal met in place of its closing quote. -/
inductive Unclosed
  | line
  | file
  deriving DecidableEq

def Unclosed.text : Unclosed → String
  | line => "end of line"
  | file => "end of file"

/-- The rest of a literal opened by `q`, its closing quote included. A backslash takes the
character after it along, but never a newline. -/
def quoted (q : Char) : List Char → Except Unclosed (List Char)
  | [] => .error .file
  | '\n' :: _ => .error .line
  | '\\' :: '\n' :: _ => .error .line
  | '\\' :: c :: cs => (quoted q cs).map fun ds => '\\' :: c :: ds
  | c :: cs => if c = q then .ok [c] else (quoted q cs).map (c :: ·)

def wordKind (w : List Char) : Token.Kind :=
  match Keyword.ofText? (String.ofList w) with
  | some k => .keyword k
  | none => if ["true", "false", "null"].contains (String.ofList w) then .literal else .name

/-- A lone `=` is punctuation, any other run an operator. -/
def operatorKind (c : Char) (run : List Char) : Token.Kind :=
  if run = ['='] then .punct '=' else .op (.ofFirst c)

def isCommentStart (cs : List Char) : Bool := cs.take 3 == [';', ';', ';']

/-- The lexeme at the head of the text `c :: cs`. -/
def read (c : Char) (cs : List Char) : Except Cause Lexeme :=
  if isBlank c then .ok (.skipped [c])
  else if isCommentStart (c :: cs) then .ok (.skipped ((c :: cs).takeWhile (· != '\n')))
  else if c.isDigit then .ok (.token .literal (number (c :: cs)))
  else if isQuote c then
    match quoted c cs with
    | .ok ds => .ok (.token .literal (c :: ds))
    | .error e => .error (.expected ("closing " ++ String.singleton c) e.text)
  else if isWordStart c then
    let w := (c :: cs).takeWhile isWordChar
    .ok (.token (wordKind w) w)
  else if isOperatorChar c then
    let run := (c :: cs).takeWhile isOperatorChar
    .ok (.token (operatorKind c run) run)
  else if isMark c then .ok (.token (.punct c) [c])
  else .error (.expected "a token" (String.singleton c))

end Lexeme
end Morpho
