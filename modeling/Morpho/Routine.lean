import Morpho.Expr
import Morpho.Instr

/-! Code of expressions, functions and programs. Code in tail position ends by returning; all other
code leaves its value in the accumulator and runs on. Labels are numbered in the order in which the
constructs that need them start. -/
namespace Morpho

/-- Emitted code and the first label still free. -/
structure Chunk where
  code : List Instr
  next : Label
  deriving DecidableEq

/-- Joins end with a return when they stand in tail position. -/
def Instr.closing (tail : Bool) : List Instr := if tail then [.ret] else []

/-- Code that brings the value of `e` in as one more operand: the operand so far is pushed, and a
literal does both in one step. -/
def Expr.asOperand (e : Expr) (code : List Instr) : List Instr :=
  match e with
  | .literal t => [.makeValP t]
  | _ => .push :: code

mutual

def Expr.emit : Expr → Bool → Label → Chunk
  | .literal t, tail, n => ⟨[if tail then .makeValR t else .makeVal t], n⟩
  | .fetch s, tail, n => ⟨[if tail then .fetchR s else .fetch s], n⟩
  | .store s e, tail, n =>
    let v := e.emit false n
    ⟨v.code ++ [if tail then .storeR s else .store s], v.next⟩
  | .call f args, tail, n =>
    let v := Expr.emitArgs args n
    ⟨v.code ++ [if tail then .callR f args.length else .call f args.length], v.next⟩
  | .ret e, _, n =>
    let v := e.emit e.isLeaf n
    ⟨v.code ++ Instr.closing (!e.isLeaf), v.next⟩
  | .ifThen c y, tail, n =>
    let test := c.emit false (n + 1)
    let yes := y.emit tail test.next
    ⟨test.code ++ .goFalse n :: yes.code ++ .label n :: Instr.closing tail, yes.next⟩
  | .ifElse c y o, tail, n =>
    let test := c.emit false (n + 2)
    let yes := y.emit tail test.next
    let no := o.emit tail yes.next
    ⟨test.code ++ .goFalse n :: yes.code ++ .go (n + 1) :: .label n :: no.code ++
      [.label (n + 1)], no.next⟩
  | .block b, tail, n => b.emit tail n
  | .loop c b, tail, n =>
    let test := c.emit false (n + 2)
    let body := b.emit false test.next
    ⟨.label n :: test.code ++ .goFalse (n + 1) :: body.code ++
      .go n :: .label (n + 1) :: Instr.closing tail, body.next⟩
  | .or l r, tail, n =>
    let left := l.emit false (n + 1)
    let right := r.emit tail left.next
    ⟨left.code ++ .goTrue n :: right.code ++ .label n :: Instr.closing tail, right.next⟩
  | .and l r, tail, n =>
    let left := l.emit false (n + 1)
    let right := r.emit tail left.next
    ⟨left.code ++ .goFalse n :: right.code ++ .label n :: Instr.closing tail, right.next⟩
  | .not e, tail, n =>
    let v := e.emit false n
    ⟨v.code ++ [if tail then .notR else .not], v.next⟩
  | .decl e, tail, n =>
    let v := e.emit false n
    ⟨v.code ++ .push :: Instr.closing tail, v.next⟩

/-- Only the last expression of a body can stand in tail position. -/
def Body.emit : Body → Bool → Label → Chunk
  | .last e, tail, n => e.emit tail n
  | .cons e rest, tail, n =>
    let first := e.emit false n
    let others := rest.emit tail first.next
    ⟨first.code ++ others.code, others.next⟩

def Expr.emitArgs : List Expr → Label → Chunk
  | [], n => ⟨[], n⟩
  | e :: es, n =>
    let first := e.emit false n
    let others := Expr.emitOperands es first.next
    ⟨first.code ++ others.code, others.next⟩

/-- Code for the arguments after the first. -/
def Expr.emitOperands : List Expr → Label → Chunk
  | [], n => ⟨[], n⟩
  | e :: es, n =>
    let first := e.emit false n
    let others := Expr.emitOperands es first.next
    ⟨e.asOperand first.code ++ others.code, others.next⟩

end

/-- The code of one function. -/
structure Routine where
  name : String
  arity : Nat
  code : List Instr
  deriving DecidableEq

namespace Routine

/-- The labels that its branches may go to, in order. -/
def targets (r : Routine) : List Label := r.code.filterMap Instr.target?

end Routine

/-- The code of a function whose labels start at `n`, and the first label after them. -/
def Function.routine (f : Function) (n : Label) : Routine × Label :=
  let c := f.body.emit true n
  (⟨f.name, f.arity, c.code⟩, c.next)

namespace Routine

/-- Code of functions in order; the labels run on from one to the next. -/
def ofFunctions : List Function → Label → List Routine × Label
  | [], n => ([], n)
  | f :: fs, n =>
    let r := f.routine n
    let rs := ofFunctions fs r.2
    (r.1 :: rs.1, rs.2)

end Routine

def Program.routines (p : Program) : List Routine := (Routine.ofFunctions p.functions 0).1

end Morpho
