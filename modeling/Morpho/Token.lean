import Morpho.Position

/-! Tokens of the language: nine reserved words, names, literals, seven classes of operators told
apart by their first character, and punctuation. -/
namespace Morpho

/-- The reserved words. `cond`, `alt` and `loop` are spelt `if`, `else` and `while`. -/
inductive Keyword
  | func | var | ret | cond | alt | loop | and | or | not
  deriving DecidableEq

namespace Keyword

def text : Keyword → String
  | func => "fun" | var => "var" | ret => "return" | cond => "if" | alt => "else"
  | loop => "while" | and => "and" | or => "or" | not => "not"

def all : List Keyword := [func, var, ret, cond, alt, loop, and, or, not]

def ofText? (s : String) : Option Keyword := all.find? (·.text == s)

@[simp] theorem ofText?_text (k : Keyword) : ofText? k.text = some k := by cases k <;> decide

end Keyword

/-- Classes of binary operators, from the loosest `op1` to the tightest `op7`. -/
inductive OpClass
  | op1 | op2 | op3 | op4 | op5 | op6 | op7
  deriving DecidableEq

namespace OpClass

def number : OpClass → Nat
  | op1 => 1 | op2 => 2 | op3 => 3 | op4 => 4 | op5 => 5 | op6 => 6 | op7 => 7

def ofNumber? : Nat → Option OpClass
  | 1 => some op1 | 2 => some op2 | 3 => some op3 | 4 => some op4 | 5 => some op5
  | 6 => some op6 | 7 => some op7 | _ => none

@[simp] theorem ofNumber?_number (c : OpClass) : ofNumber? c.number = some c := by cases c <;> rfl

/-- The next tighter class, none beyond `op7`. -/
def tighter? (c : OpClass) : Option OpClass := ofNumber? (c.number + 1)

/-- Operators of one class group from the left, but those of `op2` from the right. -/
def groupsRight (c : OpClass) : Bool := c == op2

/-- The class of an operator that starts with `c`. -/
def ofFirst (c : Char) : OpClass :=
  match c with
  | '^' | '?' | '~' => op1
  | ':' => op2
  | '|' => op3
  | '&' => op4
  | '!' | '=' | '<' | '>' => op5
  | '+' | '-' => op6
  | _ => op7

end OpClass

namespace Token

inductive Kind
  | eof
  | keyword (k : Keyword)
  | name
  | literal
  | op (c : OpClass)
  | punct (c : Char)
  deriving DecidableEq

namespace Kind

/-- How a diagnostic names the kind it wanted. -/
def description : Kind → String
  | eof => "end of file"
  | keyword k => "'" ++ k.text ++ "'"
  | name => "a name"
  | literal => "a literal"
  | op c => "an OP" ++ toString c.number ++ " operator"
  | punct c => "'" ++ String.singleton c ++ "'"

def isOperator : Kind → Bool
  | op _ => true
  | _ => false

end Kind
end Token

/-- A classified lexeme and the place of its first character. -/
structure Token where
  kind : Token.Kind
  lexeme : String
  pos : Position
  deriving DecidableEq

namespace Token

def eof (p : Position) : Token := ⟨.eof, "", p⟩

/-- How a diagnostic names a token it found. -/
def description (t : Token) : String := if t.kind = .eof then "end of file" else t.lexeme

/-- The place right after the token, were it written on one line. -/
def stop (t : Token) : Position := ⟨t.pos.line, t.pos.column + t.lexeme.length⟩

end Token
end Morpho
