import Morpho.Proofs.Labels

/-! Code whose labels are counted from a later number on. The code of an expression does not depend on
the number that its labels start at, but for the labels themselves. -/
namespace Morpho

namespace Instr

/-- The instruction with its label moved up by `k`. -/
def raise (k : Nat) : Instr → Instr
  | go l => go (k + l)
  | goFalse l => goFalse (k + l)
  | goTrue l => goTrue (k + l)
  | label l => label (k + l)
  | i => i

@[simp] theorem map_raise_closing (k : Nat) (tail : Bool) :
    (closing tail).map (raise k) = closing tail := by
  cases tail <;> rfl

end Instr

/-- The chunk with all its labels moved up by `k`. -/
def Chunk.raise (k : Nat) (c : Chunk) : Chunk := ⟨c.code.map (Instr.raise k), k + c.next⟩

@[simp] theorem Chunk.raise_code (k : Nat) (c : Chunk) :
    (c.raise k).code = c.code.map (Instr.raise k) := rfl
@[simp] theorem Chunk.raise_next (k : Nat) (c : Chunk) : (c.raise k).next = k + c.next := rfl

theorem Expr.asOperand_map_raise (k : Nat) (e : Expr) (code : List Instr) :
    e.asOperand (code.map (Instr.raise k)) = (e.asOperand code).map (Instr.raise k) := by
  cases e <;> rfl

mutual

theorem Expr.emit_raise (k : Nat) : ∀ (e : Expr) (tail : Bool) (n : Label),
    e.emit tail (k + n) = (e.emit tail n).raise k
  | .literal t, tail, n => by cases tail <;> rfl
  | .fetch s, tail, n => by cases tail <;> rfl
  | .store s e, tail, n => by
    have h := e.emit_raise k false n
    cases tail <;> simp [Expr.emit, Chunk.raise, Instr.raise, h]
  | .call f args, tail, n => by
    have h := Expr.emitArgs_raise k args n
    cases tail <;> simp [Expr.emit, Chunk.raise, Instr.raise, h]
  | .ret e, _, n => by
    have h := e.emit_raise k e.isLeaf n
    simp [Expr.emit, Chunk.raise, h]
  | .ifThen c y, tail, n => by
    have hc := c.emit_raise k false (n + 1)
    have hy := y.emit_raise k tail (c.emit false (n + 1)).next
    simp [Expr.emit, Chunk.raise, Instr.raise, Nat.add_assoc, hc, hy]
  | .ifElse c y o, tail, n => by
    have hc := c.emit_raise k false (n + 2)
    have hy := y.emit_raise k tail (c.emit false (n + 2)).next
    have ho := o.emit_raise k tail (y.emit tail (c.emit false (n + 2)).next).next
    simp [Expr.emit, Chunk.raise, Instr.raise, Nat.add_assoc, hc, hy, ho]
  | .block b, tail, n => by simpa [Expr.emit] using b.emit_raise k tail n
  | .loop c b, tail, n => by
    have hc := c.emit_raise k false (n + 2)
    have hb := b.emit_raise k false (c.emit false (n + 2)).next
    simp [Expr.emit, Chunk.raise, Instr.raise, Nat.add_assoc, hc, hb]
  | .or l r, tail, n => by
    have hl := l.emit_raise k false (n + 1)
    have hr := r.emit_raise k tail (l.emit false (n + 1)).next
    simp [Expr.emit, Chunk.raise, Instr.raise, Nat.add_assoc, hl, hr]
  | .and l r, tail, n => by
    have hl := l.emit_raise k false (n + 1)
    have hr := r.emit_raise k tail (l.emit false (n + 1)).next
    simp [Expr.emit, Chunk.raise, Instr.raise, Nat.add_assoc, hl, hr]
  | .not e, tail, n => by
    have h := e.emit_raise k false n
    cases tail <;> simp [Expr.emit, Chunk.raise, Instr.raise, h]
  | .decl e, tail, n => by
    have h := e.emit_raise k false n
    simp [Expr.emit, Chunk.raise, Instr.raise, h]

theorem Body.emit_raise (k : Nat) : ∀ (b : Body) (tail : Bool) (n : Label),
    b.emit tail (k + n) = (b.emit tail n).raise k
  | .last e, tail, n => by simpa [Body.emit] using e.emit_raise k tail n
  | .cons e rest, tail, n => by
    have he := e.emit_raise k false n
    have hr := rest.emit_raise k tail (e.emit false n).next
    simp [Body.emit, Chunk.raise, he, hr]

theorem Expr.emitArgs_raise (k : Nat) : ∀ (es : List Expr) (n : Label),
    Expr.emitArgs es (k + n) = (Expr.emitArgs es n).raise k
  | [], n => rfl
  | e :: es, n => by
    have he := e.emit_raise k false n
    have hes := Expr.emitOperands_raise k es (e.emit false n).next
    simp [Expr.emitArgs, Chunk.raise, he, hes]

theorem Expr.emitOperands_raise (k : Nat) : ∀ (es : List Expr) (n : Label),
    Expr.emitOperands es (k + n) = (Expr.emitOperands es n).raise k
  | [], n => rfl
  | e :: es, n => by
    have he := e.emit_raise k false n
    have hes := Expr.emitOperands_raise k es (e.emit false n).next
    simp [Expr.emitOperands, Chunk.raise, he, hes, Expr.asOperand_map_raise]

end

/-- How long the code of an expression is does not depend on its labels. -/
theorem Expr.length_emit (e : Expr) (tail : Bool) (n : Label) :
    (e.emit tail n).code.length = (e.emit tail 0).code.length := by
  have h := e.emit_raise n tail 0
  rw [Nat.add_zero] at h
  simp [h]

theorem Body.length_emit (b : Body) (tail : Bool) (n : Label) :
    (b.emit tail n).code.length = (b.emit tail 0).code.length := by
  have h := b.emit_raise n tail 0
  rw [Nat.add_zero] at h
  simp [h]

namespace Routine

/-- The routine with all its labels moved up by `k`. -/
def raise (k : Nat) (r : Routine) : Routine := { r with code := r.code.map (Instr.raise k) }

theorem ofFunctions_raise (k : Nat) : ∀ (fs : List Function) (n : Label),
    ofFunctions fs (k + n) = ((ofFunctions fs n).1.map (raise k), k + (ofFunctions fs n).2)
  | [], n => rfl
  | f :: fs, n => by
    have hf := f.body.emit_raise k true n
    have hfs := ofFunctions_raise k fs (f.body.emit true n).next
    simp [ofFunctions, Function.routine, raise, hf, hfs]

theorem ofFunctions_append : ∀ (fs gs : List Function) (n : Label),
    ofFunctions (fs ++ gs) n =
      ((ofFunctions fs n).1 ++ (ofFunctions gs (ofFunctions fs n).2).1,
        (ofFunctions gs (ofFunctions fs n).2).2)
  | [], gs, n => rfl
  | f :: fs, gs, n => by simp [ofFunctions, ofFunctions_append fs gs]

end Routine
end Morpho
