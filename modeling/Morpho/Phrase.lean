import Morpho.Parser
import Morpho.Expr

/-! The grammar, phrase by phrase.

    program      = { function } ;
    function     = 'fun' NAME '(' params ')' '=' body ;
    params       = [ NAME { ',' NAME } ] ;
    body         = expr | '{' expr ';' { expr ';' } '}' ;
    expr         = 'return' expr | 'var' declarations | NAME '=' expr | disjunction ;
    declarations = NAME [ '=' expr ] { ',' NAME [ '=' expr ] } ;
    disjunction  = conjunction [ 'or' disjunction ] ;
    conjunction  = negation [ 'and' negation ] ;
    negation     = 'not' negation | binary 1 ;
    binary 2     = binary 3 [ OP2 binary 2 ] ;
    binary c     = binary (c + 1) { OPc binary (c + 1) } ;
    binary 8     = small ;
    small        = NAME | NAME '(' arguments ')' | LITERAL | '(' expr ')' | OP small
                 | 'if' expr body [ 'else' body ] | 'while' expr body ;
    arguments    = [ expr { ',' expr } ] ;

Variables are resolved on the way: the parameters and the outermost braces of a function share one
scope, every other pair of braces opens its own, and a variable is in scope after its initial
value. -/
namespace Morpho

inductive Phrase
  | program
  | function
  | params
  /-- One parameter or more. -/
  | paramList
  /-- A body whose braces open a scope if `opens` says so. -/
  | body (opens : Bool)
  /-- What follows an opening brace, through the closing one. -/
  | statements
  | expr
  | declarations
  | disjunction
  | conjunction
  | negation
  /-- Operators of class `c` and tighter ones; none stands for a small expression. -/
  | binary (c : Option OpClass)
  /-- What follows the first operand of a chain of operators of class `c`. -/
  | chain (c : OpClass)
  | small
  /-- What follows the parenthesis of a call, through the closing one. -/
  | arguments
  /-- One argument or more, through the closing parenthesis. -/
  | argumentList
  deriving DecidableEq

namespace Phrase

/-- What a phrase is read as. Parameters leave their number, and the rest of a chain of operators
leaves each operator with its right operand. -/
@[reducible] def Tree : Phrase → Type
  | program => List Function
  | function => Function
  | params | paramList => Nat
  | body _ | statements | declarations => Body
  | chain _ => List (String × Expr)
  | arguments | argumentList => List Expr
  | expr | disjunction | conjunction | negation | binary _ | small => Expr

/-- A chain of operators, read from the left. -/
def fromLeft (left : Expr) (chain : List (String × Expr)) : Expr :=
  chain.foldl (fun l r => .call r.1 [l, r.2]) left

open Morpho.Parser

/-- Reads one phrase. The first argument bounds how deep phrases nest. -/
def parse : Nat → (p : Phrase) → Parser p.Tree
  | 0, _ => throw (.fault .outOfFuel)
  | n + 1, program => do
    if ← check .eof then return []
    let f ← parse n function
    return f :: (← parse n program)
  | n + 1, function => do
    let _ ← expect (.keyword .func)
    let name ← expect .name
    openScope
    let _ ← expect (.punct '(')
    let arity ← parse n params
    let _ ← expect (.punct ')')
    let _ ← expect (.punct '=')
    let b ← parse n (body false)
    closeScope
    tell (.parsed name.lexeme arity)
    return ⟨name.lexeme, arity, b⟩
  | n + 1, params => do
    if ← check .name then parse n paramList else return 0
  | n + 1, paramList => do
    declare (← expect .name)
    if ← accept (.punct ',') then return (← parse n paramList) + 1 else return 1
  | n + 1, body opens => do
    if ← accept (.punct '{') then
      if opens then openScope
      let b ← parse n statements
      if opens then closeScope
      return b
    else return .last (← parse n expr)
  | n + 1, statements => do
    let e ← parse n expr
    let _ ← expect (.punct ';')
    if ← accept (.punct '}') then return .last e else return .cons e (← parse n statements)
  | n + 1, expr => do
    if ← accept (.keyword .ret) then return .ret (← parse n expr)
    else if ← accept (.keyword .var) then return .block (← parse n declarations)
    else if (← check .name) && (← checkSecond (.punct '=')) then
      let slot ← resolve (← advance)
      let _ ← advance
      return .store slot (← parse n expr)
    else parse n disjunction
  | n + 1, declarations => do
    let name ← expect .name
    let value ← if ← accept (.punct '=') then parse n expr else pure .null
    declare name
    if ← accept (.punct ',') then return .cons (.decl value) (← parse n declarations)
    else return .last (.decl value)
  | n + 1, disjunction => do
    let left ← parse n conjunction
    if ← accept (.keyword .or) then return .or left (← parse n disjunction) else return left
  | n + 1, conjunction => do
    let left ← parse n negation
    if ← accept (.keyword .and) then return .and left (← parse n negation) else return left
  | n + 1, negation => do
    if ← accept (.keyword .not) then return .not (← parse n negation) else parse n (binary (some .op1))
  | n + 1, binary none => parse n small
  | n + 1, binary (some c) => do
    let left ← parse n (binary c.tighter?)
    if c.groupsRight then
      if ← check (.op c) then
        let op ← advance
        return .call op.lexeme [left, ← parse n (binary (some c))]
      else return left
    else return fromLeft left (← parse n (chain c))
  | n + 1, chain c => do
    if ← check (.op c) then
      let op ← advance
      let right ← parse n (binary c.tighter?)
      return (op.lexeme, right) :: (← parse n (chain c))
    else return []
  | n + 1, small => do
    let t ← current
    match t.kind with
    | .name =>
      let _ ← advance
      if ← accept (.punct '(') then return .call t.lexeme (← parse n arguments)
      else return .fetch (← resolve t)
    | .literal =>
      let _ ← advance
      return .literal t.lexeme
    | .punct '(' =>
      let _ ← advance
      let e ← parse n expr
      let _ ← expect (.punct ')')
      return e
    | .op _ =>
      let _ ← advance
      return .call t.lexeme [← parse n small]
    | .keyword .cond =>
      let _ ← advance
      let c ← parse n expr
      let yes ← parse n (body true)
      if ← accept (.keyword .alt) then return .ifElse c yes (← parse n (body true))
      else return .ifThen c yes
    | .keyword .loop =>
      let _ ← advance
      let c ← parse n expr
      return .loop c (← parse n (body true))
    | .keyword .alt => unexpected "'if' before 'else'"
    | _ => unexpected "an expression"
  | n + 1, arguments => do
    if ← accept (.punct ')') then return [] else parse n argumentList
  | n + 1, argumentList => do
    let e ← parse n expr
    if ← accept (.punct ',') then return e :: (← parse n argumentList)
    let _ ← expect (.punct ')')
    return [e]

end Phrase
end Morpho
