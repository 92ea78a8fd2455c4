import Morpho.Compile

/-! Arguments of the command line, read from left to right. The first thing wrong with them decides,
and a request for the version ends the reading at its turn. -/
namespace Morpho.CommandLine

structure Options where
  source : String
  output : Option String
  moduleName : Option String
  artifact : Artifact
  verbose : Bool
  deriving DecidableEq

/-- Why there is nothing to compile. -/
inductive Stop
  | usage
  | version
  deriving DecidableEq

/-- Options that take a value. -/
inductive Setting
  | output
  | moduleName
  | artifact
  deriving DecidableEq

/-- What the arguments have said so far. -/
structure Draft where
  source : Option String
  output : Option String
  moduleName : Option String
  artifact : Option Artifact
  verbose : Bool
  deriving DecidableEq

namespace Draft

def empty : Draft := ⟨none, none, none, none, false⟩

/-- Takes an argument that belongs to no option. -/
def place (d : Draft) (v : String) : Except Stop Draft :=
  if d.source.isSome || v.isEmpty then .error .usage else .ok { d with source := some v }

/-- Gives a value to an option that has none yet. A path may not be empty. -/
def set (d : Draft) (v : String) : Setting → Except Stop Draft
  | .output =>
    if d.output.isSome || v.isEmpty then .error .usage else .ok { d with output := some v }
  | .moduleName =>
    if d.moduleName.isSome then .error .usage else .ok { d with moduleName := some v }
  | .artifact =>
    if d.artifact.isSome then .error .usage
    else if v = "asm" then .ok { d with artifact := some .asm }
    else if v = "ast" then .ok { d with artifact := some .ast }
    else .error .usage

def raiseVerbose (d : Draft) : Except Stop Draft :=
  if d.verbose then .error .usage else .ok { d with verbose := true }

def setting? : String → Option Setting
  | "output" => some .output
  | "module-name" => some .moduleName
  | "emit" => some .artifact
  | _ => none

/-- Reads a long option, given without its dashes. The second part of the result is a setting that
still waits for its value. -/
def long (d : Draft) (body : List Char) : Except Stop (Draft × Option Setting) :=
  let name := String.ofList (body.takeWhile (· != '='))
  match setting? name, body.dropWhile (· != '=') with
  | some s, _ :: v => (d.set (String.ofList v) s).map (·, none)
  | some s, [] => .ok (d, some s)
  | none, _ :: _ => .error .usage
  | none, [] =>
    if name = "verbose" then d.raiseVerbose.map (·, none)
    else if name = "version" then .error .version
    else .error .usage

/-- Reads short options written together, without their dash. Whatever follows `o` is its value. -/
def short (d : Draft) : List Char → Except Stop (Draft × Option Setting)
  | [] => .ok (d, none)
  | 'v' :: cs =>
    match d.raiseVerbose with
    | .ok d => d.short cs
    | .error e => .error e
  | 'V' :: _ => .error .version
  | ['o'] => .ok (d, some .output)
  | 'o' :: '=' :: cs => (d.set (String.ofList cs) .output).map (·, none)
  | 'o' :: cs => (d.set (String.ofList cs) .output).map (·, none)
  | _ :: _ => .error .usage

/-- Reads one argument. A lone dash is no option. -/
def argument (d : Draft) (arg : String) : Except Stop (Draft × Option Setting) :=
  match arg.toList with
  | '-' :: '-' :: body => d.long body
  | '-' :: c :: cs => d.short (c :: cs)
  | _ => (d.place arg).map (·, none)

/-- Arguments that look like options are never the value of one. -/
def isOption (arg : String) : Bool :=
  match arg.toList with
  | '-' :: _ :: _ => true
  | _ => false

/-- Takes arguments of which none is an option. -/
def placeAll (d : Draft) : List String → Except Stop Draft
  | [] => .ok d
  | v :: vs =>
    match d.place v with
    | .ok d => d.placeAll vs
    | .error e => .error e

/-- Reads all arguments. Two dashes end the options. -/
def read (d : Draft) : List String → Except Stop Draft
  | [] => .ok d
  | arg :: rest =>
    if arg = "--" then d.placeAll rest
    else match d.argument arg, rest with
      | .error e, _ => .error e
      | .ok (d, none), rest => d.read rest
      | .ok (_, some _), [] => .error .usage
      | .ok (d, some s), v :: rest =>
        if isOption v then .error .usage
        else match d.set v s with
          | .ok d => d.read rest
          | .error e => .error e

end Draft

def Options.ofArgs (args : List String) : Except Stop Options :=
  match Draft.empty.read args with
  | .error e => .error e
  | .ok d =>
    match d.source with
    | none => .error .usage
    | some source => .ok ⟨source, d.output, d.moduleName, d.artifact.getD .asm, d.verbose⟩

end Morpho.CommandLine
