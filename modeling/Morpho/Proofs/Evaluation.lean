import Morpho.Proofs.Machine

/-! What expressions mean, read off their structure: an evaluator over the accumulator and the frame
that the machine has too, but without code, labels and jumps. A `return` leaves the function from
wherever it stands; a loop is followed for a bounded number of rounds. -/
namespace Morpho

/-- What evaluating an expression comes to: a value in the accumulator, a value handed back to the
caller, a state with no way on, or a loop that goes on past the bound. -/
inductive Ending (V W : Type)
  | value (s : Machine.State V W)
  | returned (s : Machine.State V W)
  | stuck
  | exhausted

namespace Ending

variable {V W : Type}

def ofOption : Option (Machine.State V W) → Ending V W
  | some s => value s
  | none => stuck

/-- Goes on with `k` unless the function was left, got stuck or ran past the bound. -/
def andThen (o : Ending V W) (k : Machine.State V W → Ending V W) : Ending V W :=
  match o with
  | value s => k s
  | returned s => returned s
  | stuck => stuck
  | exhausted => exhausted

/-- At most `n` rounds of a loop. Its value is the last one of the condition. -/
def rounds (holds : V → Bool) (test body : Machine.State V W → Ending V W) :
    Nat → Machine.State V W → Ending V W
  | 0, _ => exhausted
  | n + 1, s => (test s).andThen fun t =>
      if holds t.acc then (body t).andThen (rounds holds test body n) else value t

end Ending

mutual

/-- The value of an expression whose loops run for at most `bound` rounds each. -/
def Expr.eval {V W : Type} (P : Platform V W) (bound : Nat) :
    Expr → Machine.State V W → Ending V W
  | .literal t, s => .value (s.load (P.literal t))
  | .fetch n, s => .ofOption (s.fetch n)
  | .store n e, s => (e.eval P bound s).andThen fun t => .ofOption (t.store n)
  | .call f args, s =>
    (Expr.evalArgs P bound args s).andThen fun t => .ofOption (t.call P f args.length)
  | .ret e, s => (e.eval P bound s).andThen .returned
  | .ifThen c y, s => (c.eval P bound s).andThen fun t =>
      if P.holds t.acc then y.eval P bound t else .value t
  | .ifElse c y o, s => (c.eval P bound s).andThen fun t =>
      if P.holds t.acc then y.eval P bound t else o.eval P bound t
  | .block b, s => b.eval P bound s
  | .loop c b, s => Ending.rounds P.holds (c.eval P bound) (b.eval P bound) bound s
  | .or l r, s => (l.eval P bound s).andThen fun t =>
      if P.holds t.acc then .value t else r.eval P bound t
  | .and l r, s => (l.eval P bound s).andThen fun t =>
      if P.holds t.acc then r.eval P bound t else .value t
  | .not e, s => (e.eval P bound s).andThen fun t => .value (t.negate P)
  | .decl e, s => (e.eval P bound s).andThen fun t => .value t.push

/-- The value of a body is that of its last expression. -/
def Body.eval {V W : Type} (P : Platform V W) (bound : Nat) :
    Body → Machine.State V W → Ending V W
  | .last e, s => e.eval P bound s
  | .cons e rest, s => (e.eval P bound s).andThen (rest.eval P bound)

def Expr.evalArgs {V W : Type} (P : Platform V W) (bound : Nat) :
    List Expr → Machine.State V W → Ending V W
  | [], s => .value s
  | e :: es, s => (e.eval P bound s).andThen (Expr.evalOperands P bound es)

/-- Every argument after the first starts by pushing the one before it. -/
def Expr.evalOperands {V W : Type} (P : Platform V W) (bound : Nat) :
    List Expr → Machine.State V W → Ending V W
  | [], s => .value s
  | e :: es, s => (e.eval P bound s.push).andThen (Expr.evalOperands P bound es)

end

/-- How a function behaves by its structure alone. It hands back what its body returns, or the value
that its body ends with. -/
def Function.Behaves {V W : Type} (P : Platform V W) (f : Function) (s : Machine.State V W) :
    Behaviour V W → Prop
  | .returns t => ∃ n, f.body.eval P n s = .value t ∨ f.body.eval P n s = .returned t
  | .stuck => ∃ n, f.body.eval P n s = .stuck
  | .diverges => ∀ n, f.body.eval P n s = .exhausted

end Morpho
