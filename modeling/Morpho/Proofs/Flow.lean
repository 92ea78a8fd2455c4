import Morpho.Proofs.Labels
import Morpho.Proofs.Machine
import Mathlib.Algebra.Group.Int.Defs
import Mathlib.Algebra.Group.Pointwise.Set.Basic
import Mathlib.Algebra.Group.Submonoid.Basic
import Mathlib.Logic.Relation

/-! Control flow of code, with the depth of the frame. A path may take either way at a branch. What
the paths through the code of an expression can do is read off the structure of the expression: for
every instruction, the depths at which control reaches it. -/
namespace Morpho

namespace Instr

/-- What an instruction adds to the depth of the frame. -/
def delta : Instr → Int
  | push | makeValP _ => 1
  | call _ n | callR _ n => -((n - 1 : Nat) : Int)
  | _ => 0

/-- Control goes on to the next instruction, perhaps among others. -/
def falls : Instr → Bool
  | go _ => false
  | i => !i.returns

/-- The slot that an instruction reads or writes. -/
def slot? : Instr → Option Nat
  | fetch s | fetchR s | store s | storeR s => some s
  | _ => none

end Instr

namespace Flow

/-- A place in the code and the depth of the frame there. -/
structure Point where
  pc : Nat
  depth : Int

inductive Step (code : List Instr) : Point → Point → Prop
  | next {pc : Nat} {d : Int} {i : Instr} (hi : code[pc]? = some i) (hf : i.falls = true) :
    Step code ⟨pc, d⟩ ⟨pc + 1, d + i.delta⟩
  | jump {pc m : Nat} {d : Int} {i : Instr} {l : Label} (hi : code[pc]? = some i)
    (ht : i.target? = some l) (hl : code[m]? = some (.label l)) : Step code ⟨pc, d⟩ ⟨m, d⟩

abbrev Path (code : List Instr) : Point → Point → Prop := Relation.ReflTransGen (Step code)

end Flow

/-- Some path from the first instruction comes to `p`. -/
def Routine.Reaches (r : Routine) (p : Flow.Point) : Prop := Flow.Path r.code ⟨0, r.arity⟩ p

namespace Flow

/-- What an instruction has to do with the variables of the function. -/
inductive Mark
  | other
  | access (slot : Nat)
  | declare
  deriving DecidableEq

/-- Ways to speak of depths: sets of them, or descriptions of such sets. -/
structure Domain (D : Type) where
  unreached : D
  exactly : Int → D
  add : D → D → D
  join : D → D → D
  /-- Any number of rounds that add these depths each. -/
  again : D → D

/-- A piece of code: for each instruction its mark and the depths at which control comes to it, and
the depths at which control leaves at the end, all counted from the depth at the start. -/
structure Fragment (D : Type) where
  marks : List Mark
  depths : List D
  exit : D

namespace Fragment

variable {D : Type} (A : Domain D)

def nil : Fragment D := ⟨[], [], A.exactly 0⟩

/-- One instruction that adds `k` or, if `returns` says so, leaves the function. -/
def instr (m : Mark) (returns : Bool) (k : Int) : Fragment D :=
  ⟨[m], [A.exactly 0], if returns then A.unreached else A.exactly k⟩

def closing (tail : Bool) : Fragment D := if tail then instr A .other true 0 else nil A

def seq (f g : Fragment D) : Fragment D :=
  ⟨f.marks ++ g.marks, f.depths ++ g.depths.map (A.add f.exit), A.add f.exit g.exit⟩

/-- A branch past `f` to a label behind it. -/
def skip (f : Fragment D) : Fragment D :=
  let j := A.join (A.exactly 0) f.exit
  ⟨.other :: f.marks ++ [.other], A.exactly 0 :: f.depths ++ [j], j⟩

/-- A branch to `g`, which stands behind `f`, and a label where both meet. -/
def either (f g : Fragment D) : Fragment D :=
  let j := A.join f.exit g.exit
  ⟨.other :: f.marks ++ .other :: .other :: g.marks ++ [.other],
    A.exactly 0 :: f.depths ++ f.exit :: A.exactly 0 :: g.depths ++ [j], j⟩

/-- A loop with the test `f` and the body `g`. -/
def loop (f g : Fragment D) : Fragment D :=
  let start := A.again (A.add f.exit g.exit)
  let test := A.add start f.exit
  ⟨.other :: f.marks ++ .other :: g.marks ++ [.other, .other],
    start :: f.depths.map (A.add start) ++ test :: g.depths.map (A.add test) ++
      [A.add test g.exit, test], test⟩

end Fragment
end Flow

open Morpho.Flow

/-- The fragment of `e` as one more operand, given that of `e` alone. A literal is pushed for by the
instruction that loads it. -/
def Expr.operandFragment {D : Type} (A : Domain D) (e : Expr) (f : Fragment D) : Fragment D :=
  match e with
  | .literal _ => .instr A .other false 1
  | _ => .seq A (.instr A .other false 1) f

mutual

/-- The code of an expression as a fragment, instruction by instruction. -/
def Expr.fragment {D : Type} (A : Domain D) : Expr → Bool → Fragment D
  | .literal _, tail => .instr A .other tail 0
  | .fetch s, tail => .instr A (.access s) tail 0
  | .store s e, tail => .seq A (e.fragment A false) (.instr A (.access s) tail 0)
  | .call _ args, tail =>
    .seq A (Expr.fragmentArgs A args) (.instr A .other tail (-((args.length - 1 : Nat) : Int)))
  | .ret e, _ =>
    .seq A (e.fragment A e.isLeaf) (.closing A (!e.isLeaf))
  | .ifThen c y, tail =>
    .seq A (c.fragment A false) (.seq A (.skip A (y.fragment A tail)) (.closing A tail))
  | .ifElse c y o, tail =>
    .seq A (c.fragment A false) (.either A (y.fragment A tail) (o.fragment A tail))
  | .block b, tail => b.fragment A tail
  | .loop c b, tail =>
    .seq A (.loop A (c.fragment A false) (b.fragment A false)) (.closing A tail)
  | .or l r, tail | .and l r, tail =>
    .seq A (l.fragment A false) (.seq A (.skip A (r.fragment A tail)) (.closing A tail))
  | .not e, tail => .seq A (e.fragment A false) (.instr A .other tail 0)
  | .decl e, tail =>
    .seq A (e.fragment A false) (.seq A (.instr A .declare false 1) (.closing A tail))

def Body.fragment {D : Type} (A : Domain D) : Body → Bool → Fragment D
  | .last e, tail => e.fragment A tail
  | .cons e rest, tail => .seq A (e.fragment A false) (rest.fragment A tail)

def Expr.fragmentArgs {D : Type} (A : Domain D) : List Expr → Fragment D
  | [] => .nil A
  | e :: es => .seq A (e.fragment A false) (Expr.fragmentOperands A es)

def Expr.fragmentOperands {D : Type} (A : Domain D) : List Expr → Fragment D
  | [] => .nil A
  | e :: es => .seq A (e.operandFragment A (e.fragment A false)) (Expr.fragmentOperands A es)

end

end Morpho
