import Morpho.Proofs.Flow.Sets
import Mathlib.Data.List.Forall2

/-! Emitted code is the fragment of its expression, wherever it stands. So the points that the paths
through a routine reach are those that the body of its function says. -/
namespace Morpho

namespace Flow

/-- The mark says which slot the instruction accesses, and only pushes declare. -/
structure Mark.Fits (m : Mark) (i : Instr) : Prop where
  access : ∀ s, m = .access s ↔ i.slot? = some s
  declare : m = .declare → i = .push

theorem Mark.Fits.other {i : Instr} (h : i.slot? = none) : Mark.Fits .other i :=
  ⟨fun s => by simp [h], fun h => by cases h⟩

theorem Mark.Fits.of_slot {i : Instr} {s : Nat} (h : i.slot? = some s) : Mark.Fits (.access s) i :=
  ⟨fun t => by simp [h], fun h => by cases h⟩

theorem Mark.Fits.push : Mark.Fits .declare .push := ⟨fun s => by simp [Instr.slot?], fun _ => rfl⟩

namespace Fragment

/-- The fragment says, instruction by instruction, what the paths through the code `c` do. -/
structure Describes (f : Fragment (Set Int)) (c : List Instr) : Prop where
  length : f.depths.length = c.length
  marks : List.Forall₂ Mark.Fits f.marks c
  exact : ∀ {code pc}, (Instr.labels code).Nodup → Placed code pc c → Exact code pc f

namespace Describes

variable {f g : Fragment (Set Int)} {c c' : List Instr}

theorem nil : Describes (.nil sets) [] := ⟨rfl, .nil, fun _ _ => .nil _ _⟩

theorem instr {m : Mark} {i : Instr} {k : Int} {r : Bool} (hm : m.Fits i) (ht : i.target? = none)
    (hr : i.returns = r) (hk : r = false → i.delta = k) : Describes (.instr sets m r k) [i] := by
  have h : Fragment.instr sets m r k = .instr sets m i.returns i.delta := by
    cases r with
    | true => simp [Fragment.instr, hr]
    | false => rw [hr, hk rfl]
  rw [h]
  exact ⟨rfl, .cons hm .nil, fun _ hp => .instr m hp.1 ht⟩

theorem closing (tail : Bool) : Describes (.closing sets tail) (Instr.closing tail) := by
  cases tail with
  | true => exact instr (.other rfl) rfl rfl (fun h => by cases h)
  | false => exact nil

theorem seq (hf : f.Describes c) (hg : g.Describes c') :
    Describes (.seq sets f g) (c ++ c') where
  length := by simp [Fragment.seq, hf.length, hg.length]
  marks := List.rel_append hf.marks hg.marks
  exact hn hp := by
    obtain ⟨hc, hc'⟩ := (Placed.append_iff ..).mp hp
    rw [← hf.length] at hc'
    exact (hf.exact hn hc).seq (hg.exact hn hc')

theorem skip {b : Instr} {l : Label} (hf : f.Describes c) (ht : b.target? = some l)
    (hb : b.falls = true) : Describes (.skip sets f) (b :: c ++ [.label l]) where
  length := by simp [Fragment.skip, hf.length]
  marks := by
    have hs : b.slot? = none := by cases b <;> first | rfl | cases ht
    exact List.rel_append (.cons (.other hs) hf.marks) (.cons (.other rfl) .nil)
  exact hn hp := by
    simp only [List.cons_append, Placed.cons_iff, Placed.append_iff, ← hf.length] at hp
    obtain ⟨hb', hc, hl, -⟩ := hp
    exact .skip hn hb' ht hb (hf.exact hn hc) rfl hl

theorem either (l r : Label) (hf : f.Describes c) (hg : g.Describes c') :
    Describes (.either sets f g)
      (.goFalse l :: c ++ .go r :: .label l :: c' ++ [.label r]) where
  length := by simp [Fragment.either, hf.length, hg.length]
  marks := by
    have h := List.rel_append hg.marks (.cons (Mark.Fits.other (i := .label r) rfl) .nil)
    have h' := List.rel_append hf.marks
      (.cons (Mark.Fits.other (i := .go r) rfl) (.cons (.other (i := .label l) rfl) h))
    simpa [Fragment.either] using List.Forall₂.cons (Mark.Fits.other (i := .goFalse l) rfl) h'
  exact hn hp := by
    simp only [List.cons_append, List.append_assoc, Placed.cons_iff, Placed.append_iff,
      ← hf.length, ← hg.length] at hp
    obtain ⟨hb, hc, hgo, hl, hc', hl', -⟩ := hp
    exact .either hn hb (hf.exact hn hc) rfl hgo hl (hg.exact hn hc') rfl hl'

theorem loop (l r : Label) (hf : f.Describes c) (hg : g.Describes c') :
    Describes (.loop sets f g)
      (.label l :: c ++ .goFalse r :: c' ++ [.go l, .label r]) where
  length := by simp [Fragment.loop, hf.length, hg.length]
  marks := by
    have h := List.rel_append hg.marks
      (.cons (Mark.Fits.other (i := .go l) rfl) (.cons (.other (i := .label r) rfl) .nil))
    have h' := List.rel_append hf.marks (.cons (Mark.Fits.other (i := .goFalse r) rfl) h)
    simpa [Fragment.loop] using List.Forall₂.cons (Mark.Fits.other (i := .label l) rfl) h'
  exact hn hp := by
    simp only [List.cons_append, List.append_assoc, Placed.cons_iff, Placed.append_iff,
      ← hf.length, ← hg.length] at hp
    obtain ⟨hs, hc, hb, hc', hgo, hl', -⟩ := hp
    exact .loop hn hs (hf.exact hn hc) rfl hb (hg.exact hn hc') rfl hgo hl'

end Describes
end Fragment
end Flow

open Morpho.Flow

theorem Expr.operand_describes {e : Expr} {f : Fragment (Set Int)} {c : List Instr}
    (h : f.Describes c) : (e.operandFragment sets f).Describes (e.asOperand c) := by
  have hp := (Fragment.Describes.instr (i := .push) (k := 1) (.other rfl) rfl rfl
    (fun _ => rfl)).seq h
  cases e with
  | literal t => exact .instr (.other rfl) rfl rfl (fun _ => rfl)
  | _ => exact hp

mutual

theorem Expr.emit_describes : ∀ (e : Expr) (tail : Bool) (n : Label),
    (e.fragment sets tail).Describes (e.emit tail n).code
  | .literal t, tail, n => by
    cases tail <;> exact .instr (.other rfl) rfl rfl (fun _ => rfl)
  | .fetch s, tail, n => by
    cases tail <;> exact .instr (.of_slot rfl) rfl rfl (fun _ => rfl)
  | .store s e, tail, n => by
    have h := e.emit_describes false n
    cases tail <;> exact h.seq (.instr (.of_slot rfl) rfl rfl (fun _ => rfl))
  | .call f args, tail, n => by
    have h := Expr.emitArgs_describes args n
    cases tail <;> exact h.seq (.instr (.other rfl) rfl rfl (fun _ => rfl))
  | .ret e, tail, n => (e.emit_describes e.isLeaf n).seq (.closing _)
  | .ifThen c y, tail, n => by
    have hc := c.emit_describes false (n + 1)
    have hy := y.emit_describes tail (c.emit false (n + 1)).next
    have h := hc.seq ((hy.skip (b := .goFalse n) rfl rfl).seq (.closing tail))
    simpa [Expr.fragment, Expr.emit] using h
  | .ifElse c y o, tail, n => by
    have hc := c.emit_describes false (n + 2)
    have hy := y.emit_describes tail (c.emit false (n + 2)).next
    have ho := o.emit_describes tail (y.emit tail (c.emit false (n + 2)).next).next
    have h := hc.seq (hy.either n (n + 1) ho)
    simpa [Expr.fragment, Expr.emit] using h
  | .block b, tail, n => b.emit_describes tail n
  | .loop c b, tail, n => by
    have hc := c.emit_describes false (n + 2)
    have hb := b.emit_describes false (c.emit false (n + 2)).next
    have h := (hc.loop n (n + 1) hb).seq (.closing tail)
    simpa [Expr.fragment, Expr.emit] using h
  | .or l r, tail, n => by
    have hl := l.emit_describes false (n + 1)
    have hr := r.emit_describes tail (l.emit false (n + 1)).next
    have h := hl.seq ((hr.skip (b := .goTrue n) rfl rfl).seq (.closing tail))
    simpa [Expr.fragment, Expr.emit] using h
  | .and l r, tail, n => by
    have hl := l.emit_describes false (n + 1)
    have hr := r.emit_describes tail (l.emit false (n + 1)).next
    have h := hl.seq ((hr.skip (b := .goFalse n) rfl rfl).seq (.closing tail))
    simpa [Expr.fragment, Expr.emit] using h
  | .not e, tail, n => by
    have h := e.emit_describes false n
    cases tail <;> exact h.seq (.instr (.other rfl) rfl rfl (fun _ => rfl))
  | .decl e, tail, n => by
    have h := e.emit_describes false n
    exact h.seq ((Fragment.Describes.instr .push rfl rfl (fun _ => rfl)).seq (.closing tail))

theorem Body.emit_describes : ∀ (b : Body) (tail : Bool) (n : Label),
    (b.fragment sets tail).Describes (b.emit tail n).code
  | .last e, tail, n => e.emit_describes tail n
  | .cons e rest, tail, n =>
    (e.emit_describes false n).seq (rest.emit_describes tail (e.emit false n).next)

theorem Expr.emitArgs_describes : ∀ (es : List Expr) (n : Label),
    (Expr.fragmentArgs sets es).Describes (Expr.emitArgs es n).code
  | [], _ => .nil
  | e :: es, n =>
    (e.emit_describes false n).seq (Expr.emitOperands_describes es (e.emit false n).next)

theorem Expr.emitOperands_describes : ∀ (es : List Expr) (n : Label),
    (Expr.fragmentOperands sets es).Describes (Expr.emitOperands es n).code
  | [], _ => .nil
  | e :: es, n =>
    (Expr.operand_describes (e.emit_describes false n)).seq
      (Expr.emitOperands_describes es (e.emit false n).next)

end

namespace Function

/-- What the paths through the code of a function do. -/
def flow (f : Function) : Fragment (Set Int) := f.body.fragment sets true

theorem flow_describes (f : Function) (n : Label) : f.flow.Describes (f.routine n).1.code :=
  f.body.emit_describes true n

/-- The depths at which control comes to a place of a routine are those that the body of the
function gives for it. -/
theorem reaches_iff (f : Function) (n : Label) {pc : Nat} {d : Int} :
    (f.routine n).1.Reaches ⟨pc, d⟩ ↔ f.flow.At pc (d - f.arity) := by
  have hd := f.flow_describes n
  have hx := hd.exact (f.labels_nodup n) (Placed.self _)
  have hz : ∀ q : Point, Path (f.routine n).1.code ⟨0, f.arity⟩ q →
      f.flow.At q.pc (q.depth - f.arity) := by
    intro q hq
    induction hq with
    | refl => simpa using hx.entry
    | @tail p q _ hs ih =>
      obtain ih | ⟨hend, -⟩ := ih
      · have hp : Step (f.routine n).1.code ⟨p.pc, f.arity + (p.depth - f.arity)⟩ q := by
          rwa [show f.arity + (p.depth - f.arity) = p.depth by omega]
        obtain ⟨j, m, hj, hpc, hdepth⟩ := hx.closed ih (Nat.zero_add _).symm hp
        rwa [hpc, hdepth, Nat.zero_add, show f.arity + m - f.arity = m by omega]
      · -- nothing stands behind the last instruction
        have hnone : (f.routine n).1.code[p.pc]? = none := by simp [hend, hd.length]
        obtain ⟨hi, -⟩ | ⟨hi, -⟩ := hs <;> cases hi.symm.trans hnone
  constructor
  · intro h
    exact hz _ h
  · intro h
    have hp := hx.attained f.arity h (Nat.zero_add pc).symm
    rwa [show f.arity + (d - f.arity) = d by omega] at hp

theorem reaches_iff_mem (f : Function) (n : Label) {pc : Nat} {S : Set Int} {k : Int}
    (hS : f.flow.depths[pc]? = some S) :
    (f.routine n).1.Reaches ⟨pc, f.arity + k⟩ ↔ k ∈ S := by
  obtain ⟨hpc, -⟩ := List.getElem?_eq_some_iff.mp hS
  rw [f.reaches_iff n, show (f.arity : Int) + k - f.arity = k by omega]
  constructor
  · rintro (⟨T, hT, hk⟩ | ⟨hend, -⟩)
    · obtain rfl := Option.some.inj (hS.symm.trans hT)
      exact hk
    · omega
  · intro hk
    exact .inl ⟨S, hS, hk⟩

end Function
end Morpho
