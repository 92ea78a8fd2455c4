import Morpho.Routine

/-! Code in tail position and code in any other position. Whether an expression stands in tail position
decides which of its instructions return. It decides nothing else: not which labels there are and where
control may go, nor what is called and pushed, and in which order. -/
namespace Morpho

namespace Instr

/-- The instruction without the return that its name may end in. -/
def plain : Instr → Instr
  | makeValR t => makeVal t
  | fetchR s => fetch s
  | storeR s => store s
  | callR f n => call f n
  | notR => not
  | i => i

/-- Code of which nothing returns any more: plain instructions, and the returns left out. -/
def unreturned (code : List Instr) : List Instr := (code.filter (· ≠ ret)).map plain

@[simp] theorem unreturned_nil : unreturned [] = [] := rfl
@[simp] theorem unreturned_ret (code : List Instr) : unreturned (ret :: code) = unreturned code := rfl
theorem unreturned_cons {i : Instr} (h : i ≠ ret) (code : List Instr) :
    unreturned (i :: code) = i.plain :: unreturned code := by
  simp [unreturned, h]
@[simp] theorem unreturned_append (a b : List Instr) :
    unreturned (a ++ b) = unreturned a ++ unreturned b := by
  simp [unreturned]
@[simp] theorem unreturned_closing (tail : Bool) : unreturned (closing tail) = [] := by
  cases tail <;> rfl

end Instr

/-- The chunk without its returns. -/
def Chunk.unreturned (c : Chunk) : Chunk := { c with code := Instr.unreturned c.code }

/-- Two chunks that differ in returns only. -/
theorem Chunk.unreturned_eq_iff {c d : Chunk} : c.unreturned = d.unreturned ↔
    c.next = d.next ∧ Instr.unreturned c.code = Instr.unreturned d.code := by
  simp [Chunk.unreturned, and_comm]

mutual

theorem Expr.emit_unreturned : ∀ (e : Expr) (tail : Bool) (n : Label),
    (e.emit tail n).unreturned = (e.emit false n).unreturned
  | .literal t, tail, n | .fetch s, tail, n => by cases tail <;> rfl
  | .store s e, tail, n | .call f args, tail, n | .not e, tail, n => by
    cases tail <;> simp [Expr.emit, Chunk.unreturned, Instr.unreturned_cons, Instr.plain]
  -- what a return hands over is in the same position either way
  | .ret e, tail, n => by simp [Expr.emit]
  | .ifThen c y, tail, n => by
    have hy := y.emit_unreturned tail (c.emit false (n + 1)).next
    obtain ⟨hnext, hcode⟩ := Chunk.unreturned_eq_iff.mp hy
    simp [Expr.emit, Chunk.unreturned, Instr.unreturned_cons, hnext, hcode]
  | .ifElse c y o, tail, n => by
    have hy := y.emit_unreturned tail (c.emit false (n + 2)).next
    have ho := o.emit_unreturned tail (y.emit false (c.emit false (n + 2)).next).next
    obtain ⟨hnext, hcode⟩ := Chunk.unreturned_eq_iff.mp hy
    obtain ⟨hnext', hcode'⟩ := Chunk.unreturned_eq_iff.mp ho
    simp [Expr.emit, Chunk.unreturned, Instr.unreturned_cons, hnext, hcode, hnext', hcode']
  | .block b, tail, n => b.emit_unreturned tail n
  | .loop c b, tail, n => by simp [Expr.emit, Chunk.unreturned, Instr.unreturned_cons]
  | .or l r, tail, n | .and l r, tail, n => by
    have hr := r.emit_unreturned tail (l.emit false (n + 1)).next
    obtain ⟨hnext, hcode⟩ := Chunk.unreturned_eq_iff.mp hr
    simp [Expr.emit, Chunk.unreturned, Instr.unreturned_cons, hnext, hcode]
  | .decl e, tail, n => by simp [Expr.emit, Chunk.unreturned, Instr.unreturned_cons]

theorem Body.emit_unreturned : ∀ (b : Body) (tail : Bool) (n : Label),
    (b.emit tail n).unreturned = (b.emit false n).unreturned
  | .last e, tail, n => e.emit_unreturned tail n
  | .cons e rest, tail, n => by
    have hrest := rest.emit_unreturned tail (e.emit false n).next
    obtain ⟨hnext, hcode⟩ := Chunk.unreturned_eq_iff.mp hrest
    simp [Body.emit, Chunk.unreturned, hnext, hcode]

end

/-- In tail position and in any other, an expression takes the same labels, and its code is the same but
for what returns; and so it is with a body. -/
theorem emit_tail_eq_unreturned :
    (∀ (e : Expr) (n : Label), (e.emit true n).next = (e.emit false n).next ∧
      Instr.unreturned (e.emit true n).code = Instr.unreturned (e.emit false n).code) ∧
    (∀ (b : Body) (n : Label), (b.emit true n).next = (b.emit false n).next ∧
      Instr.unreturned (b.emit true n).code = Instr.unreturned (b.emit false n).code) := by
  constructor
  · intro e n
    exact Chunk.unreturned_eq_iff.mp (e.emit_unreturned true n)
  · intro b n
    exact Chunk.unreturned_eq_iff.mp (b.emit_unreturned true n)

end Morpho
