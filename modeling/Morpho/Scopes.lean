import Morpho.Diagnostic
import Morpho.Failure

/-! Nested scopes of variables. A new variable takes the slot whose number is the count of all
variables in sight, so the slots of one function fill one flat frame. -/
namespace Morpho

/-- The variables of one scope with their slots, newest first. -/
abbrev Scope := List (String × Nat)

/-- The open scopes, innermost first. -/
structure Scopes where
  stack : List Scope
  deriving DecidableEq

namespace Scopes

def empty : Scopes := ⟨[]⟩

def depth (s : Scopes) : Nat := s.stack.length

/-- How many variables all open scopes hold. -/
def count (s : Scopes) : Nat := s.stack.flatten.length

def push (s : Scopes) : Scopes := ⟨[] :: s.stack⟩

/-- Closes the innermost scope; the first part is what it held. -/
def pop (s : Scopes) : Except Fault (Scope × Scopes) :=
  match s.stack with
  | [] => .error .closeWithoutScope
  | x :: rest => .ok (x, ⟨rest⟩)

/-- Declares `name` in the innermost scope; the first part is its slot. -/
def bind (s : Scopes) (name : String) : Except (Failure Cause) (Nat × Scopes) :=
  match s.stack with
  | [] => .error (.fault .bindWithoutScope)
  | x :: rest =>
    if (x.lookup name).isSome then .error (.found (.alreadyDeclared name))
    else .ok (s.count, ⟨((name, s.count) :: x) :: rest⟩)

/-- The slot of `name` in the innermost scope that has it. -/
def slot? (s : Scopes) (name : String) : Option Nat := s.stack.findSome? (·.lookup name)

def find (s : Scopes) (name : String) : Except Cause Nat :=
  match s.slot? name with
  | some n => .ok n
  | none => .error (.undeclared name)

@[simp] theorem pop_push (s : Scopes) : s.push.pop = .ok ([], s) := rfl
@[simp] theorem count_empty : empty.count = 0 := rfl
@[simp] theorem count_push (s : Scopes) : s.push.count = s.count := by simp [count, push]
@[simp] theorem depth_push (s : Scopes) : s.push.depth = s.depth + 1 := rfl

/-- Looking through the scopes from the innermost on is looking through all bindings in sight. -/
theorem slot?_eq_lookup (s : Scopes) (name : String) : s.slot? name = s.stack.flatten.lookup name := by
  rw [slot?]
  induction s.stack with
  | nil => rfl
  | cons x rest ih =>
    rw [List.flatten_cons, List.lookup_append, ← ih, List.findSome?_cons]
    cases x.lookup name <;> rfl

/-- Operations on scopes, for scripts. -/
inductive Op
  | push
  | pop
  | bind (name : String)
  | find (name : String)
  deriving DecidableEq

inductive Reply
  | done
  | slot (n : Nat)
  deriving DecidableEq

/-- Runs one operation. One that fails changes nothing. -/
def step (s : Scopes) : Op → Except (Failure Cause) Reply × Scopes
  | .push => (.ok .done, s.push)
  | .pop =>
    match s.pop with
    | .ok r => (.ok .done, r.2)
    | .error f => (.error (.fault f), s)
  | .bind name =>
    match s.bind name with
    | .ok r => (.ok (.slot r.1), r.2)
    | .error e => (.error e, s)
  | .find name => (((s.find name).map .slot).mapError .found, s)

/-- Runs a script; every reply comes with the count of variables after it. -/
def run (s : Scopes) : List Op → List (Except (Failure Cause) Reply × Nat)
  | [] => []
  | op :: ops => let r := s.step op; (r.1, r.2.count) :: r.2.run ops

end Scopes
end Morpho
