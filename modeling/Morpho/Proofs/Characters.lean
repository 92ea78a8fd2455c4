import Morpho.Lexeme

/-! Classes of characters. The character that a lexeme starts with tells what kind of lexeme it is, for
no character starts two kinds. -/
namespace Morpho

theorem eq_of_isBlank {b : Char} (h : isBlank b = true) :
    b = ' ' ∨ b = '\t' ∨ b = '\n' ∨ b = '\x0c' ∨ b = '\r' := by
  simpa [isBlank, or_assoc] using h

theorem eq_of_isQuote {c : Char} (h : isQuote c = true) : c = '"' ∨ c = '\'' := by
  simpa [isQuote] using h

namespace Lexeme

theorem le_val_of_isWordStart {c : Char} (h : isWordStart c = true) : 'A'.val ≤ c.val := by
  rcases (Bool.or_eq_true _ _).mp h with hletter | hunderscore
  · rcases (Bool.or_eq_true _ _).mp hletter with hupper | hlower
    · exact (of_decide_eq_true hupper).1
    · have hle : 'a'.val ≤ c.val := of_decide_eq_true ((Bool.and_eq_true _ _).mp hlower).1
      exact UInt32.le_trans (by decide) hle
  · rw [beq_iff_eq.mp hunderscore]
    decide

/-- A character that starts a word starts no other lexeme. -/
theorem of_isWordStart {c : Char} (h : isWordStart c = true) :
    isBlank c = false ∧ c ≠ ';' ∧ c.isDigit = false ∧ isQuote c = false := by
  refine ⟨?_, ?_, ?_, ?_⟩
  · cases hb : isBlank c with
    | false => rfl
    | true =>
      rcases eq_of_isBlank hb with rfl | rfl | rfl | rfl | rfl <;> exact absurd h (by decide)
  · rintro rfl
    exact absurd h (by decide)
  · cases hd : c.isDigit with
    | false => rfl
    | true =>
      have hle : c.val ≤ '9'.val := of_decide_eq_true ((Bool.and_eq_true _ _).mp hd).2
      exact absurd (UInt32.le_trans (le_val_of_isWordStart h) hle) (by decide)
  · cases hq : isQuote c with
    | false => rfl
    | true =>
      simp only [isQuote, Bool.or_eq_true, beq_iff_eq] at hq
      rcases hq with rfl | rfl <;> exact absurd h (by decide)

/-- A character of an operator starts no other lexeme. -/
theorem of_isOperatorChar {c : Char} (h : isOperatorChar c = true) :
    isBlank c = false ∧ c ≠ ';' ∧ c.isDigit = false ∧ isQuote c = false ∧ isWordStart c = false := by
  simp only [isOperatorChar, List.contains_eq_mem, List.mem_cons, List.not_mem_nil, or_false,
    decide_eq_true_iff] at h
  rcases h with rfl | rfl | rfl | rfl | rfl | rfl | rfl | rfl | rfl | rfl | rfl | rfl | rfl | rfl |
    rfl <;> decide

theorem isWordChar_of_isWordStart {c : Char} (h : isWordStart c = true) : isWordChar c = true := by
  simp only [isWordStart, isWordChar, Char.isAlphanum, Bool.or_eq_true] at h ⊢
  rcases h with h | h
  · exact .inl (.inl h)
  · exact .inr h

theorem isWordChar_of_isDigit {c : Char} (h : c.isDigit = true) : isWordChar c = true := by
  simp [isWordChar, Char.isAlphanum, h]

theorem isCommentStart_of_ne {c : Char} (h : c ≠ ';') (cs : List Char) :
    isCommentStart (c :: cs) = false := by
  simp [isCommentStart, h]

/-- A quote starts no other lexeme. -/
theorem of_isQuote {c : Char} (h : isQuote c = true) :
    c.isDigit = false ∧ isWordStart c = false ∧ isOperatorChar c = false ∧ isMark c = false := by
  rcases eq_of_isQuote h with rfl | rfl <;> decide

/-- A mark starts no other lexeme. -/
theorem of_isMark {c : Char} (h : isMark c = true) :
    isBlank c = false ∧ c.isDigit = false ∧ isQuote c = false ∧ isWordStart c = false ∧
      isOperatorChar c = false := by
  simp only [isMark, List.contains_eq_mem, List.mem_cons, List.not_mem_nil, or_false,
    decide_eq_true_iff] at h
  rcases h with rfl | rfl | rfl | rfl | rfl | rfl <;> decide

end Lexeme
end Morpho
