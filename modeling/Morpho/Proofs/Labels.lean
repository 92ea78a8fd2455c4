import Morpho.Routine
import Mathlib.Data.List.Perm.Basic
import Mathlib.Data.List.Nodup

/-! The labels of emitted code, and code that stands inside other code. An expression whose labels
start at `n` defines every label from `n` up to the next free one, each at one place. -/
namespace Morpho

namespace Instr

/-- The label that an instruction defines. -/
def label? : Instr → Option Label
  | label l => some l
  | _ => none

/-- The labels that code defines, in order. -/
def labels (code : List Instr) : List Label := code.filterMap label?

@[simp] theorem labels_nil : labels [] = [] := rfl
@[simp] theorem labels_cons (i : Instr) (code : List Instr) :
    labels (i :: code) = i.label?.toList ++ labels code := by
  cases h : i.label? <;> simp [labels, h]
@[simp] theorem labels_append (a b : List Instr) : labels (a ++ b) = labels a ++ labels b :=
  List.filterMap_append
@[simp] theorem labels_closing (tail : Bool) : labels (closing tail) = [] := by
  cases tail <;> rfl

end Instr

/-- An argument after the first is a literal, or is pushed for. -/
theorem Expr.asOperand_cases (e : Expr) (code : List Instr) :
    (∃ t, e = .literal t ∧ e.asOperand code = [.makeValP t]) ∨
      e.asOperand code = .push :: code := by
  cases e <;> simp [Expr.asOperand]

/-- The labels `ls` are those from `n` on below `m`, each once. -/
structure Fills (ls : List Nat) (n m : Nat) : Prop where
  le : n ≤ m
  perm : ls.Perm (List.range' n (m - n))

namespace Fills

variable {a b : List Nat} {n m k : Nat}

theorem nil (n : Nat) : Fills [] n n := ⟨Nat.le_refl n, by simp⟩

theorem single (n : Nat) : Fills [n] n (n + 1) := ⟨by omega, by simp⟩

theorem append (ha : Fills a n m) (hb : Fills b m k) : Fills (a ++ b) n k := by
  have h₁ := ha.le
  have h₂ := hb.le
  refine ⟨by omega, ?_⟩
  have h := ha.perm.append hb.perm
  have hm : m = n + (m - n) := by omega
  have hk : k - n = (m - n) + (k - m) := by omega
  rw [hk, ← List.range'_append_1, ← hm]
  exact h

theorem of_perm (h : a.Perm b) (hb : Fills b n m) : Fills a n m := ⟨hb.le, h.trans hb.perm⟩

/-- A label taken first and placed last. -/
theorem around (ha : Fills a (n + 1) m) : Fills (a ++ [n]) n m :=
  .of_perm List.perm_append_comm ((single n).append ha)

theorem nodup (h : Fills a n m) : a.Nodup := h.perm.nodup_iff.mpr List.nodup_range'

theorem mem_iff (h : Fills a n m) {l : Nat} : l ∈ a ↔ n ≤ l ∧ l < m := by
  have hle := h.le
  rw [h.perm.mem_iff, List.mem_range'_1]
  omega

end Fills

mutual

theorem Expr.emit_fills : ∀ (e : Expr) (tail : Bool) (n : Label),
    Fills (Instr.labels (e.emit tail n).code) n (e.emit tail n).next
  | .literal t, tail, n => by cases tail <;> exact .nil n
  | .fetch s, tail, n => by cases tail <;> exact .nil n
  | .store s e, tail, n => by
    have h := e.emit_fills false n
    cases tail <;> simpa [Expr.emit, Instr.label?] using h
  | .call f args, tail, n => by
    have h := Expr.emitArgs_fills args n
    cases tail <;> simpa [Expr.emit, Instr.label?] using h
  | .ret e, tail, n => by
    have h := e.emit_fills e.isLeaf n
    simpa [Expr.emit] using h
  | .ifThen c y, tail, n => by
    have h := ((c.emit_fills false (n + 1)).append
      (y.emit_fills tail (c.emit false (n + 1)).next)).around
    simpa [Expr.emit, Instr.label?] using h
  | .ifElse c y o, tail, n => by
    have h := ((Fills.single n).append (.single (n + 1))).append
      ((c.emit_fills false (n + 2)).append ((y.emit_fills tail (c.emit false (n + 2)).next).append
        (o.emit_fills tail (y.emit tail (c.emit false (n + 2)).next).next)))
    refine .of_perm ?_ h
    simp [Expr.emit, Instr.label?, List.perm_iff_count, List.count_append, List.count_cons]
    omega
  | .block b, tail, n => by simpa [Expr.emit] using b.emit_fills tail n
  | .loop c b, tail, n => by
    have h := ((Fills.single n).append (.single (n + 1))).append
      ((c.emit_fills false (n + 2)).append (b.emit_fills false (c.emit false (n + 2)).next))
    refine .of_perm ?_ h
    simp [Expr.emit, Instr.label?, List.perm_iff_count, List.count_append, List.count_cons]
    omega
  | .or l r, tail, n => by
    have h := ((l.emit_fills false (n + 1)).append
      (r.emit_fills tail (l.emit false (n + 1)).next)).around
    simpa [Expr.emit, Instr.label?] using h
  | .and l r, tail, n => by
    have h := ((l.emit_fills false (n + 1)).append
      (r.emit_fills tail (l.emit false (n + 1)).next)).around
    simpa [Expr.emit, Instr.label?] using h
  | .not e, tail, n => by
    have h := e.emit_fills false n
    cases tail <;> simpa [Expr.emit, Instr.label?] using h
  | .decl e, tail, n => by
    have h := e.emit_fills false n
    simpa [Expr.emit, Instr.label?] using h

theorem Body.emit_fills : ∀ (b : Body) (tail : Bool) (n : Label),
    Fills (Instr.labels (b.emit tail n).code) n (b.emit tail n).next
  | .last e, tail, n => by simpa [Body.emit] using e.emit_fills tail n
  | .cons e rest, tail, n => by
    have h := (e.emit_fills false n).append (rest.emit_fills tail (e.emit false n).next)
    simpa [Body.emit] using h

theorem Expr.emitArgs_fills : ∀ (es : List Expr) (n : Label),
    Fills (Instr.labels (Expr.emitArgs es n).code) n (Expr.emitArgs es n).next
  | [], n => .nil n
  | e :: es, n => by
    have h := (e.emit_fills false n).append (Expr.emitOperands_fills es (e.emit false n).next)
    simpa [Expr.emitArgs] using h

theorem Expr.emitOperands_fills : ∀ (es : List Expr) (n : Label),
    Fills (Instr.labels (Expr.emitOperands es n).code) n (Expr.emitOperands es n).next
  | [], n => .nil n
  | e :: es, n => by
    have h := (e.emit_fills false n).append (Expr.emitOperands_fills es (e.emit false n).next)
    have ho : Instr.labels (e.asOperand (e.emit false n).code) =
        Instr.labels (e.emit false n).code := by
      obtain ⟨t, rfl, ht⟩ | hp := e.asOperand_cases (e.emit false n).code
      · rw [ht]
        rfl
      · simp [hp, Instr.label?]
    simpa [Expr.emitOperands, ho] using h

end

/-- No label of a routine stands at two places. -/
theorem Function.labels_nodup (f : Function) (n : Label) :
    (Instr.labels (f.routine n).1.code).Nodup :=
  (f.body.emit_fills true n).nodup

/-- Where a partial function takes no value twice along a list, it takes each at one place. -/
theorem place_unique {α β : Type} {f : α → Option β} {xs : List α} (hn : (xs.filterMap f).Nodup)
    {x y : α} {b : β} {i j : Nat} (hi : xs[i]? = some x) (hx : f x = some b)
    (hj : xs[j]? = some y) (hy : f y = some b) : i = j := by
  induction xs generalizing i j with
  | nil => simp at hi
  | cons a xs ih =>
    have hn' : (xs.filterMap f).Nodup := hn.sublist ((List.sublist_cons_self a xs).filterMap f)
    -- the first value would come again further on
    have hfirst : ∀ {z : α} {k : Nat}, f a = some b → xs[k]? = some z → f z = some b → False := by
      intro z k ha hz hb
      have hmem : b ∈ xs.filterMap f := List.mem_filterMap.mpr ⟨z, List.mem_of_getElem? hz, hb⟩
      rw [List.filterMap_cons_some ha, List.nodup_cons] at hn
      exact hn.1 hmem
    cases i with
    | zero =>
      cases j with
      | zero => rfl
      | succ j =>
        obtain rfl : a = x := by simpa using hi
        exact (hfirst hx (by simpa using hj) hy).elim
    | succ i =>
      cases j with
      | zero =>
        obtain rfl : a = y := by simpa using hj
        exact (hfirst hy (by simpa using hi) hx).elim
      | succ j =>
        have h : i = j := ih hn' (by simpa using hi) (by simpa using hj)
        rw [h]

/-- A label that is defined once stands at one place. -/
theorem Instr.label_unique {code : List Instr} (hn : (labels code).Nodup) {l : Label} {i j : Nat}
    (hi : code[i]? = some (.label l)) (hj : code[j]? = some (.label l)) : i = j :=
  place_unique hn hi rfl hj rfl

/-- The code `c` stands in `code` from place `pc` on. -/
def Placed (code : List Instr) : Nat → List Instr → Prop
  | _, [] => True
  | pc, i :: c => code[pc]? = some i ∧ Placed code (pc + 1) c

namespace Placed

variable {code : List Instr}

@[simp] theorem nil_iff (pc : Nat) : Placed code pc [] ↔ True := Iff.rfl

@[simp] theorem cons_iff (pc : Nat) (i : Instr) (c : List Instr) :
    Placed code pc (i :: c) ↔ code[pc]? = some i ∧ Placed code (pc + 1) c := Iff.rfl

@[simp] theorem append_iff (pc : Nat) (a b : List Instr) :
    Placed code pc (a ++ b) ↔ Placed code pc a ∧ Placed code (pc + a.length) b := by
  induction a generalizing pc with
  | nil => simp
  | cons i a ih =>
    have h : pc + 1 + a.length = pc + (a.length + 1) := by omega
    simp [ih, h, and_assoc]

theorem suffix (pre c : List Instr) : Placed (pre ++ c) pre.length c := by
  induction c generalizing pre with
  | nil => simp
  | cons i c ih =>
    have h := ih (pre ++ [i])
    simpa using h

theorem self (code : List Instr) : Placed code 0 code := suffix [] code

theorem getElem? {part : List Instr} {pc : Nat} (h : Placed code pc part) {i : Nat}
    (hi : i < part.length) : code[pc + i]? = part[i]? := by
  induction part generalizing pc i with
  | nil => simp at hi
  | cons a part ih =>
    cases i with
    | zero => simpa using h.1
    | succ i =>
      have hpart := ih h.2 (by simpa using hi)
      rw [List.getElem?_cons_succ, ← hpart]
      congr 1
      omega

end Placed
end Morpho
