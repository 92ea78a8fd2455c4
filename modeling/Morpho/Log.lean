/-! What the compiler tells about its work. -/
namespace Morpho.Log

/-- Levels, from the most to the least urgent. -/
inductive Level
  | error | warn | info | debug | trace
  deriving DecidableEq

namespace Level

def rank : Level → Nat
  | error => 1 | warn => 2 | info => 3 | debug => 4 | trace => 5

def text : Level → String
  | error => "ERROR" | warn => "WARN" | info => "INFO" | debug => "DEBUG" | trace => "TRACE"

end Level

inductive Event
  | compiling (path : String)
  | wrote (path : String)
  | parsed (name : String) (arity : Nat)
  | generated (name : String) (arity size : Nat)
  | opened (depth : Nat)
  | closed (depth dropped : Nat)
  | bound (name : String) (slot : Nat)
  deriving DecidableEq

namespace Event

def level : Event → Level
  | compiling _ | wrote _ => .info
  | parsed _ _ | generated _ _ _ => .debug
  | opened _ | closed _ _ | bound _ _ => .trace

/-- The part of the compiler that tells the event. -/
def source : Event → String
  | compiling _ | wrote _ => "nanomorpho"
  | parsed _ _ => "nanomorpho::parser"
  | generated _ _ _ => "nanomorpho::codegen"
  | opened _ | closed _ _ | bound _ _ => "nanomorpho::symtab"

def message : Event → String
  | compiling path => "compiling path=" ++ path
  | wrote path => "wrote output path=" ++ path
  | parsed name arity => "parsed function name=" ++ name ++ " arity=" ++ toString arity
  | generated name arity size =>
    "generated function name=" ++ name ++ " arity=" ++ toString arity ++
      " instructions=" ++ toString size
  | opened depth => "push scope depth=" ++ toString depth
  | closed depth dropped =>
    "pop scope depth=" ++ toString depth ++ " dropped=" ++ toString dropped
  | bound name slot => "bind variable name=\"" ++ name ++ "\" slot=" ++ toString slot

def line (e : Event) : String := e.level.text ++ " " ++ e.source ++ ": " ++ e.message

end Event

/-- The least urgent level shown; none shows nothing. -/
abbrev Limit := Option Level

def Limit.ofText? : String → Option Limit
  | "off" => some none
  | "error" => some (some .error)
  | "warn" => some (some .warn)
  | "info" => some (some .info)
  | "debug" => some (some .debug)
  | "trace" => some (some .trace)
  | _ => none

def Limit.shows (l : Limit) (e : Event) : Bool :=
  match l with
  | none => false
  | some level => e.level.rank ≤ level.rank

/-- The lines that a log shows under a limit. -/
def lines (limit : Limit) (events : List Event) : List String :=
  (events.filter limit.shows).map Event.line

end Morpho.Log
