import Morpho.Proofs.Scanning
import Mathlib.Computability.Language

/-! The lexical grammar. Lexemes are given as languages of characters and by tables of reserved words
and operators, with no word on how they are read; a text splits into lexemes if each is the longest that
the text starts with once blanks and comments are skipped. What reading tests of a character or a word
is then found to agree with the tables. -/
namespace Morpho.Lexical

open scoped Computability

/-- One character of a class. -/
def char (p : Char → Bool) : Language Char := {cs | ∃ c, p c = true ∧ cs = [c]}

/-- One character of a class or more. -/
def run (p : Char → Bool) : Language Char := char p * (char p)∗

def opt (l : Language Char) : Language Char := 1 + l

/-- A point and digits. -/
def fraction : Language Char := char (· == '.') * run Char.isDigit

/-- A mark, perhaps a sign, and digits. -/
def exponent : Language Char :=
  char (fun c => c == 'e' || c == 'E') * (opt (char fun c => c == '+' || c == '-') * run Char.isDigit)

def number : Language Char := run Char.isDigit * (opt fraction * opt exponent)

/-- A piece of a literal in quotes `q`: a character, or a backslash with the character after it. Neither
is a newline. -/
def piece (q : Char) : Language Char :=
  char (fun c => c != '\n' && c != '\\' && c != q) + char (· == '\\') * char (· != '\n')

def quoted (q : Char) : Language Char := char (· == q) * ((piece q)∗ * char (· == q))

/-- A letter or `_`, and then letters, digits and `_`. -/
def word : Language Char :=
  char (fun c => c.isAlpha || c == '_') * (char fun c => c.isAlphanum || c == '_')∗

def keywords : List (String × Keyword) :=
  [("fun", .func), ("var", .var), ("return", .ret), ("if", .cond), ("else", .alt), ("while", .loop),
    ("and", .and), ("or", .or), ("not", .not)]

/-- Words that are literals. -/
def constants : List String := ["true", "false", "null"]

def operatorChars : List Char :=
  ['+', '-', '*', '/', '!', '%', '&', '=', '>', '<', ':', '^', '~', '|', '?']

def operator : Language Char := run (· ∈ operatorChars)

/-- The characters that the operators of a class start with. -/
def firsts : OpClass → List Char
  | .op1 => ['^', '?', '~']
  | .op2 => [':']
  | .op3 => ['|']
  | .op4 => ['&']
  | .op5 => ['!', '=', '<', '>']
  | .op6 => ['+', '-']
  | .op7 => ['*', '/', '%']

def quotes : List Char := ['"', '\'']

def marks : List Char := ['(', ')', '{', '}', ',', ';']

def blanks : List Char := [' ', '\t', '\n', '\x0c', '\r']

/-- The text is a lexeme of kind `k`. -/
inductive Matches : Token.Kind → List Char → Prop
  | number {cs : List Char} (h : cs ∈ number) : Matches .literal cs
  | quoted {q : Char} {cs : List Char} (hq : q ∈ quotes) (h : cs ∈ quoted q) : Matches .literal cs
  | keyword {s : String} {k : Keyword} (h : (s, k) ∈ keywords) : Matches (.keyword k) s.toList
  | constant {s : String} (h : s ∈ constants) : Matches .literal s.toList
  | name {cs : List Char} (h : cs ∈ word) (hk : ∀ w ∈ keywords, cs ≠ w.1.toList)
    (hc : ∀ s ∈ constants, cs ≠ s.toList) : Matches .name cs
  | assign : Matches (.punct '=') ['=']
  | operator {a : OpClass} {c : Char} {cs : List Char} (ha : c ∈ firsts a) (h : c :: cs ∈ operator)
    (hne : c :: cs ≠ ['=']) : Matches (.op a) (c :: cs)
  | mark {c : Char} (h : c ∈ marks) : Matches (.punct c) [c]

/-- The lexeme `l` of kind `k` is the longest that the text starts with. -/
structure Longest (k : Token.Kind) (l text : List Char) : Prop where
  fits : Matches k l
  starts : l <+: text
  longest : ∀ {k' l'}, Matches k' l' → l' <+: text → l'.length ≤ l.length

/-- No lexeme starts the text. -/
def NoLexeme (text : List Char) : Prop := ∀ k l, Matches k l → ¬ l <+: text

/-- Neither a blank nor a comment starts the text. -/
structure Bare (text : List Char) : Prop where
  blank : ∀ c ∈ text.head?, c ∉ blanks
  comment : ¬ [';', ';', ';'] <+: text

/-- Skipping all blanks and comments at the start of the text, which are `gap`, leaves `rest`. A comment
ends in front of a newline or with the text. -/
inductive Skips : (text gap rest : List Char) → Prop
  | stop {text : List Char} (h : Bare text) : Skips text [] text
  | blank {b : Char} {text gap rest : List Char} (hb : b ∈ blanks) (h : Skips text gap rest) :
    Skips (b :: text) (b :: gap) rest
  | comment {body text gap rest : List Char} (hbody : '\n' ∉ body)
    (hend : ∀ c ∈ text.head?, c = '\n') (h : Skips text gap rest) :
    Skips (';' :: ';' :: ';' :: body ++ text) (';' :: ';' :: ';' :: body ++ gap) rest

/-- The text at `p` splits from the left into the lexemes of `ts`, each at its place, and what is left
behind them and the blanks that follow is `rest` at `q`. -/
inductive Splits : (p : Position) → (text : List Char) → (ts : List Token) → (q : Position) →
    (rest : List Char) → Prop
  | done {p : Position} {text gap rest : List Char} (h : Skips text gap rest) :
    Splits p text [] (p.after gap) rest
  | lexeme {p q : Position} {text gap l after rest : List Char} {k : Token.Kind} {ts : List Token}
    (hgap : Skips text gap (l ++ after)) (hl : Longest k l (l ++ after))
    (h : Splits ((p.after gap).after l) after ts q rest) :
    Splits p text (⟨k, String.ofList l, p.after gap⟩ :: ts) q rest

/-- What is wrong in front of a text `c :: rest` that no lexeme starts: a quote is not closed on its
line, or the character means nothing. -/
def mismatch (c : Char) (rest : List Char) : Cause :=
  if c ∈ quotes then
    .expected ("closing " ++ String.singleton c)
      (if '\n' ∈ rest then "end of line" else "end of file")
  else .expected "a token" (String.singleton c)

theorem Skips.bare {text gap rest : List Char} (h : Skips text gap rest) : Bare rest := by
  induction h with
  | stop h => exact h
  | blank _ _ ih => exact ih
  | comment _ _ _ ih => exact ih

theorem Splits.bare {p q : Position} {text rest : List Char} {ts : List Token}
    (h : Splits p text ts q rest) : Bare rest := by
  induction h with
  | done h => exact h.bare
  | lexeme _ _ _ ih => exact ih

section Tables

variable {c : Char} {s : String} {k : Keyword} {a : OpClass}

theorem mem_blanks : c ∈ blanks ↔ isBlank c = true := by simp [blanks, isBlank, or_assoc]

theorem mem_quotes : c ∈ quotes ↔ isQuote c = true := by simp [quotes, isQuote]

theorem mem_marks : c ∈ marks ↔ isMark c = true := by simp [marks, isMark]

theorem mem_operatorChars : c ∈ operatorChars ↔ isOperatorChar c = true := by
  simp [operatorChars, isOperatorChar]

/-- Every operator character is in the row of its class and in no other. -/
theorem mem_firsts : c ∈ firsts a ↔ c ∈ operatorChars ∧ .ofFirst c = a := by
  -- a row is gone through by `all`: a for-all over characters would be decided for every one of them
  constructor
  · have hrow : (firsts a).all fun d => d ∈ operatorChars ∧ .ofFirst d = a := by cases a <;> decide
    exact fun hc => of_decide_eq_true (List.all_eq_true.mp hrow c hc)
  · have hclass : operatorChars.all fun d => d ∈ firsts (.ofFirst d) := by decide
    rintro ⟨hc, rfl⟩
    exact of_decide_eq_true (List.all_eq_true.mp hclass c hc)

theorem mem_keywords : (s, k) ∈ keywords ↔ s = k.text := by
  cases k <;> simp [keywords, Keyword.text]

theorem Bare.isBlank {cs : List Char} (h : Bare (c :: cs)) : isBlank c = false := by
  rw [← Bool.not_eq_true, ← mem_blanks]
  exact h.blank c rfl

end Tables

section Languages

variable {p : Char → Bool} {l : Language Char} {cs : List Char}

theorem mem_char : cs ∈ char p ↔ ∃ c, p c = true ∧ cs = [c] := Iff.rfl

theorem mem_opt : cs ∈ opt l ↔ cs = [] ∨ cs ∈ l := Iff.rfl

theorem mem_char_mul : cs ∈ char p * l ↔ ∃ c ds, cs = c :: ds ∧ p c = true ∧ ds ∈ l := by
  rw [Language.mem_mul]
  constructor
  · rintro ⟨_, ⟨c, hc, rfl⟩, ds, hds, rfl⟩
    exact ⟨c, ds, rfl, hc, hds⟩
  · rintro ⟨c, ds, rfl, hc, hds⟩
    exact ⟨[c], ⟨c, hc, rfl⟩, ds, hds, rfl⟩

theorem append_mem_kstar {as bs : List Char} (ha : as ∈ l) (hb : bs ∈ l∗) : as ++ bs ∈ l∗ :=
  mul_kstar_le_kstar (a := l) (Language.append_mem_mul ha hb)

/-- What holds of nothing, and of more if it held before, holds of all repetitions. -/
theorem kstar_induction {P : List Char → Prop} (h : cs ∈ l∗) (nil : P [])
    (append : ∀ as bs, as ∈ l → P bs → P (as ++ bs)) : P cs := by
  obtain ⟨parts, rfl, hparts⟩ := Language.mem_kstar.mp h
  induction parts with
  | nil => exact nil
  | cons as parts ih =>
    obtain ⟨has, hrest⟩ := List.forall_mem_cons.mp hparts
    exact append as parts.flatten has (ih hrest (Language.join_mem_kstar hrest))

theorem mem_kstar_char : cs ∈ (char p)∗ ↔ ∀ c ∈ cs, p c = true := by
  constructor
  · intro h
    refine kstar_induction (P := fun ds => ∀ c ∈ ds, p c = true) h nofun ?_
    rintro _ bs ⟨c, hc, rfl⟩ hbs
    exact List.forall_mem_cons.mpr ⟨hc, hbs⟩
  · intro h
    induction cs with
    | nil => exact Language.nil_mem_kstar _
    | cons c cs ih =>
      obtain ⟨hc, hcs⟩ := List.forall_mem_cons.mp h
      exact append_mem_kstar (mem_char.mpr ⟨c, hc, rfl⟩) (ih hcs)

theorem mem_run : cs ∈ run p ↔ cs ≠ [] ∧ ∀ c ∈ cs, p c = true := by
  rw [run, mem_char_mul]
  constructor
  · rintro ⟨c, ds, rfl, hc, hds⟩
    exact ⟨by simp, List.forall_mem_cons.mpr ⟨hc, mem_kstar_char.mp hds⟩⟩
  · rintro ⟨hne, h⟩
    cases cs with
    | nil => exact absurd rfl hne
    | cons c ds =>
      obtain ⟨hc, hds⟩ := List.forall_mem_cons.mp h
      exact ⟨c, ds, rfl, hc, mem_kstar_char.mpr hds⟩

theorem mem_word : cs ∈ word ↔ ∃ c ds, cs = c :: ds ∧ isWordStart c = true ∧
    ∀ d ∈ ds, isWordChar d = true := by
  simp only [word, mem_char_mul, mem_kstar_char, isWordStart, isWordChar]

theorem operator_eq_run : operator = run isOperatorChar := by
  have hchars : (fun c => decide (c ∈ operatorChars)) = isOperatorChar := by
    funext c
    rw [Bool.eq_iff_iff, decide_eq_true_iff, mem_operatorChars]
  rw [operator, hchars]

theorem mem_operator : cs ∈ operator ↔ cs ≠ [] ∧ ∀ c ∈ cs, isOperatorChar c = true := by
  rw [operator_eq_run, mem_run]

theorem mem_quoted {q : Char} : cs ∈ quoted q ↔ ∃ body ∈ (piece q)∗, cs = q :: (body ++ [q]) := by
  rw [quoted, mem_char_mul]
  constructor
  · rintro ⟨c, ds, rfl, hc, hds⟩
    obtain ⟨body, hbody, _, ⟨d, hd, rfl⟩, rfl⟩ := Language.mem_mul.mp hds
    rw [eq_of_beq hc, eq_of_beq hd]
    exact ⟨body, hbody, rfl⟩
  · rintro ⟨body, hbody, rfl⟩
    exact ⟨q, _, rfl, beq_self_eq_true q,
      Language.append_mem_mul hbody ⟨q, beq_self_eq_true q, rfl⟩⟩

theorem mem_piece {q : Char} : cs ∈ piece q ↔
    (∃ c, c ≠ '\n' ∧ c ≠ '\\' ∧ c ≠ q ∧ cs = [c]) ∨ ∃ c, c ≠ '\n' ∧ cs = ['\\', c] := by
  simp only [piece, Language.mem_add, mem_char_mul, mem_char]
  constructor
  · rintro (⟨c, hc, rfl⟩ | ⟨b, ds, rfl, hb, c, hc, rfl⟩)
    · exact .inl ⟨c, by simpa [and_assoc] using hc⟩
    · exact .inr ⟨c, by simpa using hc, by rw [eq_of_beq hb]⟩
  · rintro (⟨c, hnewline, hslash, hq, rfl⟩ | ⟨c, hc, rfl⟩)
    · exact .inl ⟨c, by simp [hnewline, hslash, hq], rfl⟩
    · exact .inr ⟨'\\', [c], rfl, rfl, c, by simpa using hc, rfl⟩

end Languages

section Kinds

theorem keyword_mem_word {s : String} {k : Keyword} (h : (s, k) ∈ keywords) : s.toList ∈ word := by
  rw [mem_word, mem_keywords.mp h]
  cases k <;> exact ⟨_, _, rfl, by decide, List.all_eq_true.mp (by decide)⟩

theorem constant_mem_word {s : String} (h : s ∈ constants) : s.toList ∈ word := by
  rw [mem_word]
  simp only [constants, List.mem_cons, List.not_mem_nil, or_false] at h
  rcases h with rfl | rfl | rfl <;> exact ⟨_, _, rfl, by decide, List.all_eq_true.mp (by decide)⟩

theorem eq_text_of_ofText? {s : String} {k : Keyword} (h : Keyword.ofText? s = some k) :
    s = k.text := by
  have hk := List.find?_some h
  exact (eq_of_beq hk).symm

theorem wordKind_keyword {s : String} {k : Keyword} (h : (s, k) ∈ keywords) :
    Lexeme.wordKind s.toList = .keyword k := by
  simp [mem_keywords.mp h, Lexeme.wordKind]

theorem wordKind_constant {s : String} (h : s ∈ constants) : Lexeme.wordKind s.toList = .literal := by
  simp only [constants, List.mem_cons, List.not_mem_nil, or_false] at h
  rcases h with rfl | rfl | rfl <;> decide

theorem wordKind_name {cs : List Char} (hk : ∀ w ∈ keywords, cs ≠ w.1.toList)
    (hc : ∀ s ∈ constants, cs ≠ s.toList) : Lexeme.wordKind cs = .name := by
  have hkeyword : Keyword.ofText? (String.ofList cs) = none := by
    cases h : Keyword.ofText? (String.ofList cs) with
    | none => rfl
    | some k =>
      exact absurd String.toList_ofList.symm (hk _ (mem_keywords.mpr (eq_text_of_ofText? h)))
  have hconstant : constants.contains (String.ofList cs) = false := by
    rw [List.contains_eq_mem, decide_eq_false_iff_not]
    intro h
    exact hc _ h (String.toList_ofList).symm
  rw [constants] at hconstant
  rw [Lexeme.wordKind, hkeyword, hconstant]
  rfl

/-- Every word is a lexeme. -/
theorem Matches.word {cs : List Char} (h : cs ∈ word) : Matches (Lexeme.wordKind cs) cs := by
  by_cases hk : ∃ w ∈ keywords, cs = w.1.toList
  · obtain ⟨⟨s, k⟩, hw, rfl⟩ := hk
    rw [wordKind_keyword hw]
    exact .keyword hw
  · by_cases hc : ∃ s ∈ constants, cs = s.toList
    · obtain ⟨s, hs, rfl⟩ := hc
      rw [wordKind_constant hs]
      exact .constant hs
    · simp only [not_exists, not_and] at hk hc
      rw [wordKind_name hk hc]
      exact .name h hk hc

/-- Every run of operator characters is a lexeme. -/
theorem Matches.run {c : Char} {cs : List Char} (h : c :: cs ∈ Lexical.operator) :
    Matches (Lexeme.operatorKind c (c :: cs)) (c :: cs) := by
  by_cases hne : c :: cs = ['=']
  · cases hne
    exact .assign
  · have hc := (mem_operator.mp h).2 c List.mem_cons_self
    rw [Lexeme.operatorKind, if_neg hne]
    exact .operator (mem_firsts.mpr ⟨mem_operatorChars.mpr hc, rfl⟩) h hne

end Kinds

/-- Classes of lexemes, told apart by the first character. -/
inductive Class
  | number | quoted | word | operator | mark
  deriving DecidableEq

namespace Class

/-- Whether a lexeme of the class can start with `c`. -/
def starts (c : Char) : Class → Bool
  | number => c.isDigit
  | quoted => isQuote c
  | word => isWordStart c
  | operator => isOperatorChar c
  | mark => isMark c

/-- The lexemes of the class that start with `c`. -/
def language (c : Char) : Class → Language Char
  | number => Lexical.number
  | quoted => Lexical.quoted c
  | word => Lexical.word
  | operator => Lexical.operator
  | mark => char (· == c)

def kind (c : Char) (l : List Char) : Class → Token.Kind
  | number | quoted => .literal
  | word => Lexeme.wordKind l
  | operator => Lexeme.operatorKind c l
  | mark => .punct c

/-- The class of lexemes that start with `c`. -/
def ofFirst? (c : Char) : Option Class :=
  if c.isDigit then some number
  else if isQuote c then some quoted
  else if isWordStart c then some word
  else if isOperatorChar c then some operator
  else if isMark c then some mark
  else none

theorem ofFirst?_of_starts {c : Char} {a : Class} (h : a.starts c = true) :
    ofFirst? c = some a := by
  cases a with
  | number => exact if_pos h
  | quoted =>
    obtain ⟨hdigit, -⟩ := Lexeme.of_isQuote h
    simp [ofFirst?, hdigit, show isQuote c = true from h]
  | word =>
    obtain ⟨-, -, hdigit, hquote⟩ := Lexeme.of_isWordStart h
    simp [ofFirst?, hdigit, hquote, show isWordStart c = true from h]
  | operator =>
    obtain ⟨-, -, hdigit, hquote, hword⟩ := Lexeme.of_isOperatorChar h
    simp [ofFirst?, hdigit, hquote, hword, show isOperatorChar c = true from h]
  | mark =>
    obtain ⟨-, hdigit, hquote, hword, hoperator⟩ := Lexeme.of_isMark h
    simp [ofFirst?, hdigit, hquote, hword, hoperator, show isMark c = true from h]

theorem ne_nil {a : Class} {c : Char} {l : List Char} (h : l ∈ a.language c) : l ≠ [] := by
  rintro rfl
  cases a with
  | number =>
    obtain ⟨ds, hds, rest, -, heq⟩ := Language.mem_mul.mp h
    exact (mem_run.mp hds).1 (List.append_eq_nil_iff.mp heq).1
  | quoted =>
    obtain ⟨body, -, heq⟩ := mem_quoted.mp h
    cases heq
  | word =>
    obtain ⟨d, ds, heq, -⟩ := mem_word.mp h
    cases heq
  | operator => exact (mem_operator.mp h).1 rfl
  | mark =>
    obtain ⟨d, -, heq⟩ := mem_char.mp h
    cases heq

theorem matches_kind {a : Class} {c : Char} {cs : List Char} (hc : a.starts c = true)
    (h : c :: cs ∈ a.language c) : Matches (a.kind c (c :: cs)) (c :: cs) := by
  cases a with
  | number => exact .number h
  | quoted => exact .quoted (mem_quotes.mpr hc) h
  | word => exact .word h
  | operator => exact .run h
  | mark =>
    obtain ⟨d, hd, heq⟩ := mem_char.mp h
    cases heq
    exact .mark (mem_marks.mpr hc)

end Class

/-- A lexeme belongs to the class of its first character. -/
theorem Matches.exists_class {k : Token.Kind} {l : List Char} (h : Matches k l) :
    ∃ (a : Class) (c : Char) (cs : List Char), l = c :: cs ∧ a.starts c = true ∧ l ∈ a.language c ∧
      k = a.kind c l := by
  have hword : ∀ {cs : List Char}, cs ∈ Lexical.word → k = Lexeme.wordKind cs →
      ∃ (a : Class) (c : Char) (ds : List Char), cs = c :: ds ∧ a.starts c = true ∧
        cs ∈ a.language c ∧ k = a.kind c cs := by
    intro cs h hk
    obtain ⟨c, ds, rfl, hc, -⟩ := mem_word.mp h
    exact ⟨.word, c, ds, rfl, hc, h, hk⟩
  cases h with
  | number h =>
    obtain ⟨ds, hds, rest, -, rfl⟩ := Language.mem_mul.mp h
    obtain ⟨hne, hdigits⟩ := mem_run.mp hds
    cases ds with
    | nil => exact absurd rfl hne
    | cons c ds => exact ⟨.number, c, ds ++ rest, rfl, hdigits c List.mem_cons_self, h, rfl⟩
  | @quoted q _ hq h =>
    obtain ⟨body, -, rfl⟩ := mem_quoted.mp h
    exact ⟨.quoted, q, _, rfl, mem_quotes.mp hq, h, rfl⟩
  | keyword h => exact hword (keyword_mem_word h) (wordKind_keyword h).symm
  | constant h => exact hword (constant_mem_word h) (wordKind_constant h).symm
  | name h hk hc => exact hword h (wordKind_name hk hc).symm
  | assign =>
    have hrun : ['='] ∈ Lexical.operator := mem_operator.mpr ⟨by simp, List.all_eq_true.mp rfl⟩
    exact ⟨.operator, '=', [], rfl, rfl, hrun, rfl⟩
  | operator ha h hne =>
    obtain ⟨hc, rfl⟩ := mem_firsts.mp ha
    exact ⟨.operator, _, _, rfl, mem_operatorChars.mp hc, h, (if_neg hne).symm⟩
  | @mark c hc =>
    exact ⟨.mark, c, [], rfl, mem_marks.mp hc, mem_char.mpr ⟨c, beq_self_eq_true c, rfl⟩, rfl⟩

/-- So its first character says what else it can be. -/
theorem Matches.of_starts {k : Token.Kind} {a : Class} {c : Char} {cs : List Char}
    (h : Matches k (c :: cs)) (hc : a.starts c = true) :
    c :: cs ∈ a.language c ∧ k = a.kind c (c :: cs) := by
  obtain ⟨b, d, ds, heq, hd, hl, hk⟩ := h.exists_class
  cases heq
  have hab : some a = some b := by
    rw [← Class.ofFirst?_of_starts hc, Class.ofFirst?_of_starts hd]
  cases hab
  exact ⟨hl, hk⟩

theorem Matches.kind_unique {k k' : Token.Kind} {l : List Char} (h : Matches k l)
    (h' : Matches k' l) : k = k' := by
  obtain ⟨a, c, cs, rfl, hc, -, hk⟩ := h.exists_class
  rw [hk, (h'.of_starts hc).2]

/-- There is one longest lexeme at most. -/
theorem Longest.unique {k k' : Token.Kind} {l l' text : List Char} (h : Longest k l text)
    (h' : Longest k' l' text) : k = k' ∧ l = l' := by
  have hle := h.longest h'.fits h'.starts
  have hge := h'.longest h.fits h.starts
  have hl : l = l' := List.prefix_of_prefix_length_le h.starts h'.starts hge |>.eq_of_length (by omega)
  subst hl
  exact ⟨h.fits.kind_unique h'.fits, rfl⟩

end Morpho.Lexical
