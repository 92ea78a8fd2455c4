import Morpho.Proofs.Flow.Reached

/-! Where control goes, apart from the depth of the frame. Code in tail position is never left at its
end, though a join of two arms stands there without a return: no arm comes to it. So control stays
inside the code of a function until it returns. -/
namespace Morpho

namespace Flow

/-- Control can go from one place to another in one step. An instruction that returns leads nowhere,
and an unconditional branch to its label only. -/
inductive Succ (code : List Instr) : Nat → Nat → Prop
  | next {pc : Nat} {i : Instr} (hi : code[pc]? = some i) (hf : i.falls = true) :
    Succ code pc (pc + 1)
  | jump {pc m : Nat} {i : Instr} {l : Label} (hi : code[pc]? = some i)
    (ht : i.target? = some l) (hl : code[m]? = some (.label l)) : Succ code pc m

/-- Every way through the code has its depths. -/
theorem exists_path_of_succ {code : List Instr} {pc m : Nat}
    (h : Relation.ReflTransGen (Succ code) pc m) (d : Int) :
    ∃ d', Path code ⟨pc, d⟩ ⟨m, d'⟩ := by
  induction h with
  | refl => exact ⟨d, .refl⟩
  | tail _ hs ih =>
    obtain ⟨d', hp⟩ := ih
    cases hs with
    | next hi hf => exact ⟨_, hp.tail (.next hi hf)⟩
    | jump hi ht hl => exact ⟨d', hp.tail (.jump hi ht hl)⟩

namespace Fragment

variable {f g : Fragment (Set Int)}

theorem exit_closing : (closing sets true).exit = ∅ := rfl

theorem exit_seq_of_left (h : f.exit = ∅) : (seq sets f g).exit = ∅ := by
  simp [seq, sets, h]

theorem exit_seq_of_right (h : g.exit = ∅) : (seq sets f g).exit = ∅ := by
  simp [seq, sets, h]

theorem exit_either (hf : f.exit = ∅) (hg : g.exit = ∅) : (either sets f g).exit = ∅ := by
  simp [either, sets, hf, hg]

end Fragment
end Flow

open Morpho.Flow

mutual

/-- No path leaves the code of an expression in tail position at its end. -/
theorem Expr.exit_tail : ∀ e : Expr, (e.fragment sets true).exit = ∅
  | .literal _ => rfl
  | .fetch _ => rfl
  | .store _ _ => Fragment.exit_seq_of_right rfl
  | .call _ _ => Fragment.exit_seq_of_right rfl
  | .ret e => by
    rw [Expr.fragment]
    cases h : e.isLeaf with
    | true => exact Fragment.exit_seq_of_left e.exit_tail
    | false => exact Fragment.exit_seq_of_right Fragment.exit_closing
  | .ifThen _ _ => Fragment.exit_seq_of_right (Fragment.exit_seq_of_right Fragment.exit_closing)
  -- the label behind the arms is the target of a branch that no path comes to
  | .ifElse _ y o => Fragment.exit_seq_of_right (Fragment.exit_either y.exit_tail o.exit_tail)
  | .block b => b.exit_tail
  | .loop _ _ => Fragment.exit_seq_of_right Fragment.exit_closing
  | .or _ _ => Fragment.exit_seq_of_right (Fragment.exit_seq_of_right Fragment.exit_closing)
  | .and _ _ => Fragment.exit_seq_of_right (Fragment.exit_seq_of_right Fragment.exit_closing)
  | .not _ => Fragment.exit_seq_of_right rfl
  | .decl _ => Fragment.exit_seq_of_right (Fragment.exit_seq_of_right Fragment.exit_closing)

theorem Body.exit_tail : ∀ b : Body, (b.fragment sets true).exit = ∅
  | .last e => e.exit_tail
  | .cons _ rest => Fragment.exit_seq_of_right rest.exit_tail

end

/-- Some way through the code from the first instruction comes to place `pc`. -/
def Routine.Visits (r : Routine) (pc : Nat) : Prop := Relation.ReflTransGen (Succ r.code) 0 pc

/-- Control never comes to the place behind the last instruction of a function. -/
theorem Function.not_visits_end (f : Function) (n : Label) :
    ¬ (f.routine n).1.Visits (f.routine n).1.code.length := by
  intro h
  obtain ⟨d, hd⟩ := exists_path_of_succ h f.arity
  have hlen : f.flow.depths.length = (f.routine n).1.code.length := (f.flow_describes n).length
  have hat : f.flow.At (f.routine n).1.code.length (d - f.arity) := (f.reaches_iff n).mp hd
  rcases hat with ⟨S, hS, -⟩ | ⟨-, hexit⟩
  · obtain ⟨hlt, -⟩ := List.getElem?_eq_some_iff.mp hS
    omega
  · rw [Function.flow, f.body.exit_tail] at hexit
    exact hexit

end Morpho
