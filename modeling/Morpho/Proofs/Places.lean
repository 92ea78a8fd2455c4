import Morpho.Proofs.Lines
import Morpho.Proofs.LongestMatch

/-! Where the lexemes of a text stand. Each is written out at its place, on one line. -/
namespace Morpho

namespace Lexical

open scoped Computability

/-- The texts of the language do not have the character in them. -/
def Lacks (b : Char) (l : Language Char) : Prop := ∀ cs ∈ l, b ∉ cs

namespace Lacks

variable {b : Char} {p : Char → Bool} {l m : Language Char}

theorem char (h : p b = false) : Lacks b (char p) := by
  rintro _ ⟨c, hc, rfl⟩ hb
  rw [← List.mem_singleton.mp hb, h] at hc
  cases hc

theorem mul (hl : Lacks b l) (hm : Lacks b m) : Lacks b (l * m) := by
  intro cs hcs
  obtain ⟨as, has, bs, hbs, rfl⟩ := Language.mem_mul.mp hcs
  exact List.not_mem_append (hl as has) (hm bs hbs)

theorem kstar (hl : Lacks b l) : Lacks b l∗ := by
  intro cs hcs
  refine kstar_induction (P := fun ds => b ∉ ds) hcs List.not_mem_nil ?_
  intro as bs has hbs
  exact List.not_mem_append (hl as has) hbs

theorem opt (hl : Lacks b l) : Lacks b (opt l) := by
  intro cs hcs
  rcases mem_opt.mp hcs with rfl | hcs
  · exact List.not_mem_nil
  · exact hl cs hcs

theorem run (h : p b = false) : Lacks b (run p) := mul (char h) (kstar (char h))

theorem number (hb : Lexeme.Ends b) : Lacks b number := by
  have hdigits : Lacks b (Lexical.run Char.isDigit) := run hb.digit
  have hpoint : Lacks b (Lexical.char (· == '.')) := char (by simp [hb.point])
  have hmark : Lacks b (Lexical.char fun c => c == 'e' || c == 'E') := char (by simp [hb.exponent])
  have hsign : Lacks b (Lexical.char fun c => c == '+' || c == '-') := char (by simp [hb.sign])
  refine mul hdigits (mul (opt ?_) (opt ?_))
  · exact mul hpoint hdigits
  · exact mul hmark (mul (opt hsign) hdigits)

theorem word (hb : Lexeme.Ends b) : Lacks b word := by
  refine mul (char ?_) (kstar (char hb.word))
  cases h : isWordStart b with
  | false => exact h
  | true => exact absurd (Lexeme.isWordChar_of_isWordStart h) (by simp [hb.word])

theorem language {a : Class} (ha : a ≠ .quoted) (hm : a ≠ .mark) (hb : Lexeme.Ends b) (c : Char) :
    Lacks b (a.language c) := by
  cases a with
  | number => exact number hb
  | quoted => exact absurd rfl ha
  | word => exact word hb
  | operator =>
    rw [Class.language, operator_eq_run]
    exact run hb.operator
  | mark => exact absurd rfl hm

end Lacks

/-- The texts of the language have no blanks. -/
def Solid (l : Language Char) : Prop := ∀ cs ∈ l, ∀ c ∈ cs, isBlank c = false

theorem Solid.language {a : Class} {c : Char} (hc : a.starts c = true) (ha : a ≠ .quoted) :
    Solid (a.language c) := by
  intro cs hcs d hd
  by_cases hm : a = .mark
  · subst hm
    obtain ⟨e, he, rfl⟩ := mem_char.mp hcs
    rw [List.mem_singleton.mp hd, eq_of_beq he]
    exact (Lexeme.of_isMark hc).1
  · cases hb : isBlank d with
    | false => rfl
    | true => exact absurd hd (Lacks.language ha hm (Lexeme.ends_of_isBlank hb) c cs hcs)

theorem newline_not_mem_body {q : Char} {body : List Char} (h : body ∈ (piece q)∗) : '\n' ∉ body := by
  refine kstar_induction (P := fun ds => '\n' ∉ ds) h List.not_mem_nil ?_
  intro as bs has hbs
  rcases mem_piece.mp has with ⟨c, hc, -, -, rfl⟩ | ⟨c, hc, rfl⟩
  · simp [hbs, hc.symm]
  · simp [hbs, hc.symm]

theorem inline_of_not_blank {cs : List Char} (hne : cs ≠ []) (h : ∀ c ∈ cs, isBlank c = false) :
    Text.Inline cs := by
  refine ⟨hne, fun hmem => ?_, fun hlast => ?_⟩
  · exact absurd (h _ hmem) (by decide)
  · exact absurd (h _ (List.mem_of_getLast? hlast)) (by decide)

/-- A lexeme stands on one line. -/
theorem Matches.inline {k : Token.Kind} {l : List Char} (h : Matches k l) : Text.Inline l := by
  obtain ⟨a, c, cs, rfl, hc, hl, -⟩ := h.exists_class
  by_cases ha : a = .quoted
  · -- a literal in quotes may hold blanks, but its last character is the quote
    subst ha
    have hq := eq_of_isQuote hc
    obtain ⟨body, hbody, heq⟩ := mem_quoted.mp hl
    have hmem := newline_not_mem_body hbody
    rw [heq]
    refine ⟨by simp, ?_, ?_⟩
    · rcases hq with rfl | rfl <;> simp [hmem]
    · rw [← List.cons_append, List.getLast?_concat]
      rcases hq with rfl | rfl <;> simp
  · exact inline_of_not_blank (by simp) (Solid.language hc ha _ hl)

theorem Matches.ne_eof {k : Token.Kind} {l : List Char} (h : Matches k l) : k ≠ .eof := by
  cases h <;> exact nofun

/-- The lexeme of `t` is written in the text, which starts at `p`, where `t` says. -/
def WrittenIn (p : Position) (text : List Char) (t : Token) : Prop :=
  ∃ before after, text = before ++ t.lexeme.toList ++ after ∧ t.pos = p.after before

variable {p q : Position} {text rest : List Char} {ts : List Token}

/-- What a text splits into ends where the rest starts. -/
theorem Splits.append (h : Splits p text ts q rest) :
    ∃ before, text = before ++ rest ∧ q = p.after before := by
  induction h with
  | done hgap => exact ⟨_, hgap.append, rfl⟩
  | @lexeme p q text gap l after rest k ts hgap _ _ ih =>
    obtain ⟨before, hafter, hq⟩ := ih
    refine ⟨gap ++ l ++ before, ?_, ?_⟩
    · rw [hgap.append, hafter]
      simp
    · rw [hq, Position.after_append, Position.after_append]

theorem Splits.fits (h : Splits p text ts q rest) {t : Token} (ht : t ∈ ts) :
    Matches t.kind t.lexeme.toList := by
  induction h with
  | done => cases ht
  | lexeme _ hl _ ih =>
    rcases List.mem_cons.mp ht with rfl | ht
    · rw [String.toList_ofList]
      exact hl.fits
    · exact ih ht

theorem Splits.writtenIn (h : Splits p text ts q rest) {t : Token} (ht : t ∈ ts) :
    WrittenIn p text t := by
  induction h with
  | done => cases ht
  | @lexeme p q text gap l after rest k ts hgap _ _ ih =>
    rcases List.mem_cons.mp ht with rfl | ht
    · refine ⟨gap, after, ?_, rfl⟩
      rw [hgap.append, String.toList_ofList, List.append_assoc]
    · obtain ⟨before, behind, hafter, hpos⟩ := ih ht
      refine ⟨gap ++ l ++ before, behind, ?_, ?_⟩
      · rw [hgap.append, hafter]
        simp
      · rw [hpos, Position.after_append, Position.after_append]

end Lexical
end Morpho
