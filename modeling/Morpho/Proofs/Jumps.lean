import Morpho.Proofs.Labels

/-! Where the branches of emitted code go: every label in the code of an expression is the target of one
branch in that code. -/
namespace Morpho

namespace Instr

/-- The labels that the branches in code go to, in order. -/
def targets (code : List Instr) : List Label := code.filterMap target?

@[simp] theorem targets_nil : targets [] = [] := rfl
@[simp] theorem targets_cons (i : Instr) (code : List Instr) :
    targets (i :: code) = i.target?.toList ++ targets code := by
  cases h : i.target? <;> simp [targets, h]
@[simp] theorem targets_append (a b : List Instr) : targets (a ++ b) = targets a ++ targets b :=
  List.filterMap_append
@[simp] theorem targets_closing (tail : Bool) : targets (closing tail) = [] := by
  cases tail <;> rfl

theorem label?_of_target? {i : Instr} {l : Label} (h : i.target? = some l) : i.label? = none := by
  cases i <;> first | rfl | cases h

/-- As many branches go to a label as define it. -/
def Matched (c : List Instr) : Prop := (targets c).Perm (labels c)

namespace Matched

variable {c c' : List Instr}

theorem nil : Matched [] := List.Perm.nil

theorem instr {i : Instr} (ht : i.target? = none) (hl : i.label? = none) : Matched [i] := by
  simp [Matched, ht, hl]

theorem closing (tail : Bool) : Matched (closing tail) := by simp [Matched]

theorem append (h : Matched c) (h' : Matched c') : Matched (c ++ c') := by
  simpa [Matched] using List.Perm.append h h'

theorem skip {b : Instr} {l : Label} (hb : b.target? = some l) (h : Matched c) :
    Matched (b :: c ++ [.label l]) := by
  have hp : (l :: targets c).Perm (labels c ++ [l]) :=
    (List.Perm.cons l h).trans (List.perm_append_singleton l _).symm
  rw [Matched, List.cons_append, targets_cons, labels_cons, hb, label?_of_target? hb]
  simpa [label?, target?] using hp

theorem either (l r : Label) (h : Matched c) (h' : Matched c') :
    Matched (.goFalse l :: c ++ .go r :: .label l :: c' ++ [.label r]) := by
  rw [Matched, List.perm_iff_count] at *
  intro a
  simp [label?, target?, List.count_cons, h a, h' a]
  omega

theorem loop (l r : Label) (h : Matched c) (h' : Matched c') :
    Matched (.label l :: c ++ .goFalse r :: c' ++ [.go l, .label r]) := by
  rw [Matched, List.perm_iff_count] at *
  intro a
  simp [label?, target?, List.count_cons, h a, h' a]
  omega

end Matched
end Instr

open Morpho.Instr

theorem Expr.asOperand_matched {e : Expr} {c : List Instr} (h : Matched c) :
    Matched (e.asOperand c) := by
  obtain ⟨t, -, ht⟩ | hp := e.asOperand_cases c
  · rw [ht]
    exact .instr rfl rfl
  · rw [hp]
    exact Matched.append (c := [.push]) (.instr rfl rfl) h

mutual

theorem Expr.emit_matched : ∀ (e : Expr) (tail : Bool) (n : Label), Matched (e.emit tail n).code
  | .literal t, tail, n => by cases tail <;> exact .instr rfl rfl
  | .fetch s, tail, n => by cases tail <;> exact .instr rfl rfl
  | .store s e, tail, n => by
    cases tail <;> exact .append (e.emit_matched false n) (.instr rfl rfl)
  | .call f args, tail, n => by
    cases tail <;> exact .append (Expr.emitArgs_matched args n) (.instr rfl rfl)
  | .ret e, _, n => .append (e.emit_matched e.isLeaf n) (.closing _)
  | .ifThen c y, tail, n => by
    have hy := y.emit_matched tail (c.emit false (n + 1)).next
    have h := ((c.emit_matched false (n + 1)).append (hy.skip (b := .goFalse n) rfl)).append
      (.closing tail)
    simpa [Expr.emit] using h
  | .ifElse c y o, tail, n => by
    have hy := y.emit_matched tail (c.emit false (n + 2)).next
    have ho := o.emit_matched tail (y.emit tail (c.emit false (n + 2)).next).next
    have h := (c.emit_matched false (n + 2)).append (hy.either n (n + 1) ho)
    simpa [Expr.emit] using h
  | .block b, tail, n => b.emit_matched tail n
  | .loop c b, tail, n => by
    have hb := b.emit_matched false (c.emit false (n + 2)).next
    have h := ((c.emit_matched false (n + 2)).loop n (n + 1) hb).append (.closing tail)
    simpa [Expr.emit] using h
  | .or l r, tail, n => by
    have hr := r.emit_matched tail (l.emit false (n + 1)).next
    have h := ((l.emit_matched false (n + 1)).append (hr.skip (b := .goTrue n) rfl)).append
      (.closing tail)
    simpa [Expr.emit] using h
  | .and l r, tail, n => by
    have hr := r.emit_matched tail (l.emit false (n + 1)).next
    have h := ((l.emit_matched false (n + 1)).append (hr.skip (b := .goFalse n) rfl)).append
      (.closing tail)
    simpa [Expr.emit] using h
  | .not e, tail, n => by
    cases tail <;> exact .append (e.emit_matched false n) (.instr rfl rfl)
  | .decl e, tail, n => by
    have h := ((e.emit_matched false n).append (.instr (i := .push) rfl rfl)).append (.closing tail)
    simpa [Expr.emit] using h

theorem Body.emit_matched : ∀ (b : Body) (tail : Bool) (n : Label), Matched (b.emit tail n).code
  | .last e, tail, n => e.emit_matched tail n
  | .cons e rest, tail, n => .append (e.emit_matched false n) (rest.emit_matched tail _)

theorem Expr.emitArgs_matched : ∀ (es : List Expr) (n : Label), Matched (Expr.emitArgs es n).code
  | [], _ => .nil
  | e :: es, n => .append (e.emit_matched false n) (Expr.emitOperands_matched es _)

theorem Expr.emitOperands_matched : ∀ (es : List Expr) (n : Label),
    Matched (Expr.emitOperands es n).code
  | [], _ => .nil
  | e :: es, n =>
    .append (Expr.asOperand_matched (e.emit_matched false n)) (Expr.emitOperands_matched es _)

end

namespace Instr

/-- The branch at place `i` goes to place `j`. -/
def Goes (code : List Instr) (i j : Nat) : Prop :=
  ∃ b l, code[i]? = some b ∧ b.target? = some l ∧ code[j]? = some (.label l)

/-- The branch at place `i` goes to a place before it. -/
def Backward (code : List Instr) (i : Nat) : Prop := ∃ j, Goes code i j ∧ j < i

theorem mem_labels_of_getElem? {code : List Instr} {i : Nat} {l : Label}
    (h : code[i]? = some (.label l)) : l ∈ labels code :=
  List.mem_filterMap.mpr ⟨.label l, List.mem_of_getElem? h, rfl⟩

theorem mem_targets_of_getElem? {code : List Instr} {i : Nat} {b : Instr} {l : Label}
    (h : code[i]? = some b) (ht : b.target? = some l) : l ∈ targets code :=
  List.mem_filterMap.mpr ⟨b, List.mem_of_getElem? h, ht⟩

theorem not_backward_of_targets {c : List Instr} (h : targets c = []) (i : Nat) :
    ¬ Backward c i := by
  rintro ⟨j, ⟨b, l, hb, ht, -⟩, -⟩
  have hl := mem_targets_of_getElem? hb ht
  simp [h] at hl

theorem not_backward_single (b : Instr) (i : Nat) : ¬ Backward [b] i := by
  rintro ⟨j, ⟨b', l, hb, -, hl⟩, hj⟩
  have hi : i < 1 := (List.getElem?_eq_some_iff.mp hb).1
  omega

/-- A last instruction goes back if it branches to a label before it. -/
theorem backward_snoc {c : List Instr} {b : Instr} {i : Nat} :
    Backward (c ++ [b]) i ↔
      Backward c i ∨ i = c.length ∧ ∃ l, b.target? = some l ∧ l ∈ labels c := by
  constructor
  · rintro ⟨j, ⟨b', l, hb, ht, hl⟩, hj⟩
    have hi : i < (c ++ [b]).length := (List.getElem?_eq_some_iff.mp hb).1
    rw [List.length_append, List.length_singleton] at hi
    rw [List.getElem?_append_left (by omega)] at hl
    by_cases hic : i < c.length
    · rw [List.getElem?_append_left hic] at hb
      exact .inl ⟨j, ⟨b', l, hb, ht, hl⟩, hj⟩
    · have hic : i = c.length := by omega
      subst hic
      rw [List.getElem?_concat_length, Option.some.injEq] at hb
      subst hb
      exact .inr ⟨rfl, l, ht, mem_labels_of_getElem? hl⟩
  · rintro (⟨j, ⟨b', l, hb, ht, hl⟩, hj⟩ | ⟨rfl, l, ht, hl⟩)
    · have hi : i < c.length := (List.getElem?_eq_some_iff.mp hb).1
      refine ⟨j, ⟨b', l, ?_, ht, ?_⟩, hj⟩
      · rw [List.getElem?_append_left hi, hb]
      · rw [List.getElem?_append_left (by omega), hl]
    · obtain ⟨a, ha, hal⟩ := List.mem_filterMap.mp hl
      obtain ⟨j, hj⟩ := List.mem_iff_getElem?.mp ha
      have hjc : j < c.length := (List.getElem?_eq_some_iff.mp hj).1
      have ha' : a = .label l := by cases a <;> simp_all [label?]
      refine ⟨j, ⟨b, l, List.getElem?_concat_length, ht, ?_⟩, hjc⟩
      rw [List.getElem?_append_left hjc, hj, ha']

/-- Behind `c`, code that branches to no label of `c` goes back within itself only. -/
theorem backward_append {c c' : List Instr} (h : ∀ l : Nat, l ∈ targets c' → l ∉ labels c) {i : Nat} :
    Backward (c ++ c') i ↔ Backward c i ∨ ∃ k, i = c.length + k ∧ Backward c' k := by
  constructor
  · rintro ⟨j, ⟨b, l, hb, ht, hl⟩, hj⟩
    by_cases hi : i < c.length
    · rw [List.getElem?_append_left hi] at hb
      rw [List.getElem?_append_left (by omega)] at hl
      exact .inl ⟨j, ⟨b, l, hb, ht, hl⟩, hj⟩
    · rw [List.getElem?_append_right (by omega)] at hb
      have htc : l ∈ targets c' := mem_targets_of_getElem? hb ht
      by_cases hjc : j < c.length
      · rw [List.getElem?_append_left hjc] at hl
        exact absurd (mem_labels_of_getElem? hl) (h l htc)
      · rw [List.getElem?_append_right (by omega)] at hl
        exact .inr ⟨i - c.length, by omega, j - c.length, ⟨b, l, hb, ht, hl⟩, by omega⟩
  · rintro (⟨j, ⟨b, l, hb, ht, hl⟩, hj⟩ | ⟨k, rfl, j, ⟨b, l, hb, ht, hl⟩, hj⟩)
    · have hi : i < c.length := (List.getElem?_eq_some_iff.mp hb).1
      refine ⟨j, ⟨b, l, ?_, ht, ?_⟩, hj⟩
      · rw [List.getElem?_append_left hi, hb]
      · rw [List.getElem?_append_left (by omega), hl]
    · refine ⟨c.length + j, ⟨b, l, ?_, ht, ?_⟩, by omega⟩
      · rw [List.getElem?_append_right (by omega), Nat.add_sub_cancel_left, hb]
      · rw [List.getElem?_append_right (by omega), Nat.add_sub_cancel_left, hl]

/-- Where no label is defined twice, a branch that goes to `j` goes nowhere else. -/
theorem lt_iff_backward {code : List Instr} (hn : (labels code).Nodup) {i j : Nat}
    (h : Goes code i j) : j < i ↔ Backward code i := by
  constructor
  · intro hlt
    exact ⟨j, h, hlt⟩
  · rintro ⟨j', ⟨b', l', hb', ht', hl'⟩, hlt⟩
    obtain ⟨b, l, hb, ht, hl⟩ := h
    obtain rfl : b = b' := by simpa [hb] using hb'
    obtain rfl : l = l' := by simpa [ht] using ht'
    rw [label_unique hn hl hl']
    exact hlt

theorem ne_of_goes {code : List Instr} {i j : Nat} (h : Goes code i j) : i ≠ j := by
  rintro rfl
  obtain ⟨b, l, hb, ht, hl⟩ := h
  obtain rfl : b = .label l := by simpa [hb] using hl
  cases ht

end Instr
end Morpho
