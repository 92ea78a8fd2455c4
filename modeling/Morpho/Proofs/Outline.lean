import Morpho.Compile

/-! Programs that still have their names. The grammar is read phrase by phrase as for programs with
slots, but nothing is looked up on the way: names stay names, and braces stay where they are. -/
namespace Morpho

mutual

inductive Outline
  | literal (text : String)
  | fetch (name : String)
  | store (name : String) (value : Outline)
  | call (name : String) (args : List Outline)
  | ret (value : Outline)
  | ifThen (cond : Outline) (yes : Outline.Arm)
  | ifElse (cond : Outline) (yes no : Outline.Arm)
  | decls (list : Outline.Vars)
  | loop (cond : Outline) (body : Outline.Arm)
  | or (left right : Outline)
  | and (left right : Outline)
  | not (value : Outline)

/-- A body without braces or with them. -/
inductive Outline.Arm
  | bare (e : Outline)
  | braces (list : Outline.Block)

inductive Outline.Block
  | last (e : Outline)
  | cons (e : Outline) (rest : Outline.Block)

inductive Outline.Vars
  | last (name : String) (value : Outline)
  | cons (name : String) (value : Outline) (rest : Outline.Vars)

end

structure Outline.Proc where
  name : String
  params : List String
  body : Outline.Arm

namespace Phrase

/-- What a phrase is read as while names are kept. -/
@[reducible] def Named : Phrase → Type
  | program => List Outline.Proc
  | function => Outline.Proc
  | params | paramList => List String
  | body _ => Outline.Arm
  | statements => Outline.Block
  | declarations => Outline.Vars
  | chain _ => List (String × Outline)
  | arguments | argumentList => List Outline
  | expr | disjunction | conjunction | negation | binary _ | small => Outline

def namedFromLeft (left : Outline) (chain : List (String × Outline)) : Outline :=
  chain.foldl (fun l r => .call r.1 [l, r.2]) left

open Morpho.Parser

/-- Reads one phrase and keeps its names. -/
@[grind =] def outline : Nat → (p : Phrase) → Parser p.Named
  | 0, _ => throw (.fault .outOfFuel)
  | n + 1, program => do
    if ← check .eof then return []
    let f ← outline n function
    return f :: (← outline n program)
  | n + 1, function => do
    let _ ← expect (.keyword .func)
    let name ← expect .name
    let _ ← expect (.punct '(')
    let names ← outline n params
    let _ ← expect (.punct ')')
    let _ ← expect (.punct '=')
    let b ← outline n (body false)
    return ⟨name.lexeme, names, b⟩
  | n + 1, params => do
    if ← check .name then outline n paramList else return []
  | n + 1, paramList => do
    let name ← expect .name
    if ← accept (.punct ',') then return name.lexeme :: (← outline n paramList)
    else return [name.lexeme]
  | n + 1, body _ => do
    if ← accept (.punct '{') then return .braces (← outline n statements)
    else return .bare (← outline n expr)
  | n + 1, statements => do
    let e ← outline n expr
    let _ ← expect (.punct ';')
    if ← accept (.punct '}') then return .last e else return .cons e (← outline n statements)
  | n + 1, expr => do
    if ← accept (.keyword .ret) then return .ret (← outline n expr)
    else if ← accept (.keyword .var) then return .decls (← outline n declarations)
    else if (← check .name) && (← checkSecond (.punct '=')) then
      let name ← advance
      let _ ← advance
      return .store name.lexeme (← outline n expr)
    else outline n disjunction
  | n + 1, declarations => do
    let name ← expect .name
    let value ← if ← accept (.punct '=') then outline n expr else pure (.literal "null")
    if ← accept (.punct ',') then return .cons name.lexeme value (← outline n declarations)
    else return .last name.lexeme value
  | n + 1, disjunction => do
    let left ← outline n conjunction
    if ← accept (.keyword .or) then return .or left (← outline n disjunction) else return left
  | n + 1, conjunction => do
    let left ← outline n negation
    if ← accept (.keyword .and) then return .and left (← outline n negation) else return left
  | n + 1, negation => do
    if ← accept (.keyword .not) then return .not (← outline n negation)
    else outline n (binary (some .op1))
  | n + 1, binary none => outline n small
  | n + 1, binary (some c) => do
    let left ← outline n (binary c.tighter?)
    if c.groupsRight then
      if ← check (.op c) then
        let op ← advance
        return .call op.lexeme [left, ← outline n (binary (some c))]
      else return left
    else return namedFromLeft left (← outline n (chain c))
  | n + 1, chain c => do
    if ← check (.op c) then
      let op ← advance
      let right ← outline n (binary c.tighter?)
      return (op.lexeme, right) :: (← outline n (chain c))
    else return []
  | n + 1, small => do
    let t ← current
    match t.kind with
    | .name =>
      let _ ← advance
      if ← accept (.punct '(') then return .call t.lexeme (← outline n arguments)
      else return .fetch t.lexeme
    | .literal =>
      let _ ← advance
      return .literal t.lexeme
    | .punct '(' =>
      let _ ← advance
      let e ← outline n expr
      let _ ← expect (.punct ')')
      return e
    | .op _ =>
      let _ ← advance
      return .call t.lexeme [← outline n small]
    | .keyword .cond =>
      let _ ← advance
      let c ← outline n expr
      let yes ← outline n (body true)
      if ← accept (.keyword .alt) then return .ifElse c yes (← outline n (body true))
      else return .ifThen c yes
    | .keyword .loop =>
      let _ ← advance
      let c ← outline n expr
      return .loop c (← outline n (body true))
    | .keyword .alt => unexpected "'if' before 'else'"
    | _ => unexpected "an expression"
  | n + 1, arguments => do
    if ← accept (.punct ')') then return [] else outline n argumentList
  | n + 1, argumentList => do
    let e ← outline n expr
    if ← accept (.punct ',') then return e :: (← outline n argumentList)
    let _ ← expect (.punct ')')
    return [e]

end Phrase

namespace Outline

/-- The functions that a token list stands for, with their names. -/
def ofTokens (ts : List Token) : Except (Failure Diagnostic) (List Proc) :=
  match Phrase.outline (Phrase.fuel ts) .program (.ofTokens ts) with
  | .ok fs _ => .ok fs
  | .error e _ => .error e

end Outline
end Morpho
