import Morpho.Proofs.LexicalGrammar

/-! Reading takes the longest lexeme. Numbers give back a point or a mark that no digits follow, and a
literal in quotes can end at one place only. So the tokens of a text are those of its split by the
lexical grammar, and reading fails where the split comes to an end before the text does. -/
namespace Morpho

/-- The text `g` is the longest of the language that `text` starts with. -/
structure LongestIn (L : Language Char) (g text : List Char) : Prop where
  mem : g ∈ L
  starts : g <+: text
  longest : ∀ {l}, l ∈ L → l <+: text → l.length ≤ g.length

open Morpho.Lexical

section Runs

variable {p : Char → Bool} {text : List Char}

theorem length_le_takeWhile {ds : List Char} (hds : ∀ c ∈ ds, p c = true) (h : ds <+: text) :
    ds.length ≤ (text.takeWhile p).length := by
  obtain ⟨rest, rfl⟩ := h
  rw [List.takeWhile_append_of_pos hds, List.length_append]
  omega

/-- Characters of a class with another character behind them are all that the text starts with. -/
theorem eq_takeWhile {ds r : List Char} {x : Char} (hds : ∀ c ∈ ds, p c = true) (hx : p x = false)
    (h : ds ++ x :: r <+: text) :
    ds = text.takeWhile p ∧ x :: r <+: text.drop (text.takeWhile p).length := by
  obtain ⟨rest, rfl⟩ := h
  have htake : (ds ++ x :: (r ++ rest)).takeWhile p = ds := by
    rw [takeWhile_append_stop hx, List.takeWhile_eq_self_iff]
    exact hds
  rw [List.append_assoc, List.cons_append, htake, List.drop_left, ← List.cons_append]
  exact ⟨rfl, List.prefix_append ..⟩

theorem takeWhile_mem_run (h : ∃ c ∈ text.head?, p c = true) : text.takeWhile p ∈ run p := by
  rw [mem_run]
  refine ⟨?_, fun c => List.mem_takeWhile_imp⟩
  obtain ⟨c, hc, hp⟩ := h
  cases text with
  | nil => simp at hc
  | cons d ds =>
    obtain rfl : d = c := by simpa using hc
    simp [hp]

namespace LongestIn

theorem run (h : ∃ c ∈ text.head?, p c = true) : LongestIn (run p) (text.takeWhile p) text where
  mem := takeWhile_mem_run h
  starts := List.takeWhile_prefix p
  longest hl := length_le_takeWhile (mem_run.mp hl).2

/-- The longest run of a class and then the longest of a language none of whose texts starts in the
class. -/
theorem run_mul {L : Language Char} {g : List Char} (h : ∃ c ∈ text.head?, p c = true)
    (hL : ∀ c cs, c :: cs ∈ L → p c = false)
    (hg : LongestIn L g (text.drop (text.takeWhile p).length)) :
    LongestIn (Lexical.run p * L) (text.takeWhile p ++ g) text where
  mem := Language.append_mem_mul (takeWhile_mem_run h) hg.mem
  starts := by
    have htext := List.prefix_iff_eq_append.mp (List.takeWhile_prefix p (l := text))
    have happend := (List.prefix_append_right_inj (text.takeWhile p)).mpr hg.starts
    rwa [htext] at happend
  longest := by
    intro l hl hstart
    obtain ⟨ds, hds, r, hr, rfl⟩ := Language.mem_mul.mp hl
    have hclass := (mem_run.mp hds).2
    rw [List.length_append, List.length_append]
    cases r with
    | nil =>
      rw [List.append_nil] at hstart
      have hle := length_le_takeWhile hclass hstart
      simp only [List.length_nil]
      omega
    | cons x r =>
      obtain ⟨heq, hrest⟩ := eq_takeWhile hclass (hL x r hr) hstart
      have hle := hg.longest hr hrest
      rw [← heq]
      omega

end LongestIn
end Runs

section Numbers

theorem not_isDigit_of_mem_exponent {c : Char} {cs : List Char} (h : c :: cs ∈ opt Lexical.exponent) :
    (c = 'e' ∨ c = 'E') ∧ c.isDigit = false := by
  rcases mem_opt.mp h with h | h
  · cases h
  · obtain ⟨d, ds, heq, hd, -⟩ := mem_char_mul.mp h
    cases heq
    have hc : c = 'e' ∨ c = 'E' := by simpa using hd
    refine ⟨hc, ?_⟩
    rcases hc with rfl | rfl <;> decide

/-- A sign in front of digits is the one that reading finds. -/
theorem sign_of_starts {s ds cs : List Char} (hs : s ∈ opt (char fun c => c == '+' || c == '-'))
    (hds : ds ∈ Lexical.run Char.isDigit) (h : s ++ ds <+: cs) :
    Lexeme.sign cs = s ∧ ds <+: cs.drop s.length := by
  obtain ⟨rest, rfl⟩ := h
  refine ⟨?_, by simp⟩
  rcases mem_opt.mp hs with rfl | ⟨c, hc, rfl⟩
  · obtain ⟨hne, hdigits⟩ := mem_run.mp hds
    cases ds with
    | nil => exact absurd rfl hne
    | cons d ds =>
      have hd := hdigits d List.mem_cons_self
      have hsign : (d == '+' || d == '-') = false := by
        rw [Bool.or_eq_false_iff]
        constructor
        · rw [beq_eq_false_iff_ne]
          rintro rfl
          exact absurd hd (by decide)
        · rw [beq_eq_false_iff_ne]
          rintro rfl
          exact absurd hd (by decide)
      simp [Lexeme.sign, hsign]
  · simp only [List.cons_append, Lexeme.sign, if_pos hc]

theorem sign_mem (cs : List Char) :
    Lexeme.sign cs ∈ opt (char fun c => c == '+' || c == '-') ∧ Lexeme.sign cs <+: cs := by
  cases cs with
  | nil => exact ⟨.inl rfl, List.nil_prefix⟩
  | cons c cs =>
    by_cases hc : (c == '+' || c == '-') = true
    · simp only [Lexeme.sign, if_pos hc]
      exact ⟨.inr ⟨c, hc, rfl⟩, ⟨cs, rfl⟩⟩
    · simp only [Lexeme.sign, if_neg hc]
      exact ⟨.inl rfl, List.nil_prefix⟩

theorem exponent_cons (e : Char) (cs : List Char) : Lexeme.exponent (e :: cs) =
    if (e == 'e' || e == 'E') = true ∧
        (cs.drop (Lexeme.sign cs).length).takeWhile Char.isDigit ≠ [] then
      e :: (Lexeme.sign cs ++ (cs.drop (Lexeme.sign cs).length).takeWhile Char.isDigit)
    else [] := by
  simp [Lexeme.exponent]

/-- Whatever exponent a text starts with, it has the sign that reading finds and no more digits. -/
theorem exponent_of_starts {l : List Char} {e : Char} {cs : List Char} (hl : l ∈ Lexical.exponent)
    (h : l <+: e :: cs) : (e == 'e' || e == 'E') = true ∧
      (cs.drop (Lexeme.sign cs).length).takeWhile Char.isDigit ≠ [] ∧ l.length ≤
        1 + ((Lexeme.sign cs).length +
          ((cs.drop (Lexeme.sign cs).length).takeWhile Char.isDigit).length) := by
  obtain ⟨m, rest, rfl, hm, hrest⟩ := mem_char_mul.mp hl
  obtain ⟨s, hs, ds, hds, rfl⟩ := Language.mem_mul.mp hrest
  obtain ⟨rfl, hstart⟩ := List.cons_prefix_cons.mp h
  obtain ⟨hsign, hdigits⟩ := sign_of_starts hs hds hstart
  obtain ⟨hne, hall⟩ := mem_run.mp hds
  rw [hsign]
  have hle := length_le_takeWhile hall hdigits
  have hpos := List.length_pos_iff.mpr hne
  refine ⟨hm, List.length_pos_iff.mp (by omega), ?_⟩
  simp only [List.length_cons, List.length_append]
  omega

theorem longestIn_exponent (text : List Char) :
    LongestIn (opt Lexical.exponent) (Lexeme.exponent text) text := by
  cases text with
  | nil => exact ⟨.inl rfl, List.nil_prefix, fun _ h => h.length_le⟩
  | cons e cs =>
    rw [exponent_cons]
    split_ifs with h
    · obtain ⟨hs, hstart⟩ := sign_mem cs
      refine ⟨.inr (mem_char_mul.mpr ⟨e, _, rfl, h.1, ?_⟩), ?_, ?_⟩
      · exact Language.append_mem_mul hs (mem_run.mpr ⟨h.2, fun c => List.mem_takeWhile_imp⟩)
      · have hcs := List.prefix_iff_eq_append.mp hstart
        have happend := (List.prefix_append_right_inj (Lexeme.sign cs)).mpr
          (List.takeWhile_prefix Char.isDigit (l := cs.drop (Lexeme.sign cs).length))
        rw [hcs] at happend
        exact List.cons_prefix_cons.mpr ⟨rfl, happend⟩
      · intro l hl hstart
        rcases mem_opt.mp hl with rfl | hl
        · simp
        · have hle := (exponent_of_starts hl hstart).2.2
          simp only [List.length_cons, List.length_append]
          omega
    · refine ⟨.inl rfl, List.nil_prefix, ?_⟩
      intro l hl hstart
      rcases mem_opt.mp hl with rfl | hl
      · simp
      · obtain ⟨hm, hne, -⟩ := exponent_of_starts hl hstart
        exact absurd ⟨hm, hne⟩ h

/-- A point counts only with a digit behind it. -/
theorem fraction_cases (text : List Char) :
    (∃ cs, text = '.' :: cs ∧ (∃ c ∈ cs.head?, c.isDigit = true) ∧
      Lexeme.fraction text = '.' :: cs.takeWhile Char.isDigit) ∨
    (Lexeme.fraction text = [] ∧ ∀ f ∈ Lexical.fraction, ¬ f <+: text) := by
  by_cases h : ∃ cs, text = '.' :: cs ∧ ∃ c ∈ cs.head?, c.isDigit = true
  · obtain ⟨cs, rfl, hc⟩ := h
    have hne := (mem_run.mp (takeWhile_mem_run hc)).1
    exact .inl ⟨cs, rfl, hc, by simp [Lexeme.fraction, hne]⟩
  · refine .inr ⟨?_, ?_⟩
    · fun_cases Lexeme.fraction text with
      | case1 => rfl
      | case2 cs digits hdigits =>
        exfalso
        apply h
        cases cs with
        | nil => simp [digits] at hdigits
        | cons c cs =>
          refine ⟨_, rfl, c, rfl, ?_⟩
          by_contra hc
          simp [digits, hc] at hdigits
      | case3 => rfl
    · intro f hf hstart
      apply h
      obtain ⟨c, ds, rfl, hc, hds⟩ := mem_char_mul.mp hf
      obtain ⟨rest, rfl⟩ := hstart
      obtain ⟨hne, hdigits⟩ := mem_run.mp hds
      cases ds with
      | nil => exact absurd rfl hne
      | cons d ds =>
        rw [eq_of_beq hc]
        exact ⟨_, rfl, d, rfl, hdigits d List.mem_cons_self⟩

theorem longestIn_fraction_exponent (text : List Char) :
    LongestIn (opt Lexical.fraction * opt Lexical.exponent)
      (Lexeme.fraction text ++ Lexeme.exponent (text.drop (Lexeme.fraction text).length)) text := by
  rcases fraction_cases text with ⟨cs, rfl, hc, heq⟩ | ⟨heq, hnone⟩
  · have hrest : LongestIn (Lexical.run Char.isDigit * opt Lexical.exponent) _ cs :=
      .run_mul hc (fun _ _ h => (not_isDigit_of_mem_exponent h).2) (longestIn_exponent _)
    rw [heq, List.length_cons, List.drop_succ_cons, List.cons_append]
    refine ⟨?_, List.cons_prefix_cons.mpr ⟨rfl, hrest.starts⟩, ?_⟩
    · rw [← List.cons_append]
      refine Language.append_mem_mul (.inr ?_) (longestIn_exponent _).mem
      exact mem_char_mul.mpr ⟨'.', _, rfl, rfl, takeWhile_mem_run hc⟩
    · intro l hl hstart
      obtain ⟨f, hf, e, he, rfl⟩ := Language.mem_mul.mp hl
      rcases mem_opt.mp hf with rfl | hf
      · cases e with
        | nil => simp
        | cons m e =>
          obtain ⟨rfl, -⟩ := List.cons_prefix_cons.mp hstart
          exact absurd (not_isDigit_of_mem_exponent he).1 (by decide)
      · obtain ⟨d, ds, rfl, -, hds⟩ := mem_char_mul.mp hf
        obtain ⟨-, hstart⟩ := List.cons_prefix_cons.mp hstart
        have hle := hrest.longest (Language.append_mem_mul hds he) hstart
        simpa using hle
  · have hexponent := longestIn_exponent text
    rw [heq, List.length_nil, List.drop_zero, List.nil_append]
    refine ⟨Language.append_mem_mul (mem_opt.mpr (.inl rfl)) hexponent.mem, hexponent.starts, ?_⟩
    intro l hl hstart
    obtain ⟨f, hf, e, he, rfl⟩ := Language.mem_mul.mp hl
    rcases mem_opt.mp hf with rfl | hf
    · exact hexponent.longest he hstart
    · exact absurd ((List.prefix_append f e).trans hstart) (hnone f hf)

theorem longestIn_number {text : List Char} (h : ∃ c ∈ text.head?, c.isDigit = true) :
    LongestIn Lexical.number (Lexeme.number text) text := by
  have hnumber : Lexeme.number text = text.takeWhile Char.isDigit ++
      (Lexeme.fraction (text.drop (text.takeWhile Char.isDigit).length) ++
        Lexeme.exponent ((text.drop (text.takeWhile Char.isDigit).length).drop
          (Lexeme.fraction (text.drop (text.takeWhile Char.isDigit).length)).length)) := by
    rw [Lexeme.number, List.append_assoc, List.drop_drop]
  rw [hnumber]
  refine .run_mul h ?_ (longestIn_fraction_exponent _)
  intro c cs hcs
  obtain ⟨f, hf, e, he, heq⟩ := Language.mem_mul.mp hcs
  rcases mem_opt.mp hf with rfl | hf
  · rw [List.nil_append] at heq
    rw [heq] at he
    exact (not_isDigit_of_mem_exponent he).2
  · obtain ⟨d, ds, rfl, hd, -⟩ := mem_char_mul.mp hf
    cases heq
    rw [eq_of_beq hd]
    rfl

end Numbers

section Quotes

variable {q : Char} {cs ds : List Char}

theorem quoted_sound (h : Lexeme.quoted q cs = .ok ds) :
    ∃ body ∈ KStar.kstar (piece q), ds = body ++ [q] ∧ ds <+: cs := by
  fun_induction Lexeme.quoted q cs generalizing ds with
  | case1 => cases h
  | case2 => cases h
  | case3 => cases h
  | case4 c cs hc ih =>
    obtain ⟨es, hes, rfl⟩ := map_eq_ok.mp h
    obtain ⟨body, hbody, rfl, hstart⟩ := ih hes
    have hpiece : ['\\', c] ∈ piece q := mem_piece.mpr (.inr ⟨c, hc, rfl⟩)
    refine ⟨['\\', c] ++ body, append_mem_kstar hpiece hbody, rfl, ?_⟩
    simpa using hstart
  | case5 cs =>
    cases h
    exact ⟨[], Language.nil_mem_kstar _, rfl, ⟨cs, rfl⟩⟩
  | case6 c cs hnewline h₁ h₂ hne ih =>
    obtain ⟨es, hes, rfl⟩ := map_eq_ok.mp h
    obtain ⟨body, hbody, rfl, hstart⟩ := ih hes
    have hslash : c ≠ '\\' := by
      rintro rfl
      cases cs with
      | nil => cases hes
      | cons d cs => exact h₂ d cs rfl rfl
    have hpiece : [c] ∈ piece q := mem_piece.mpr (.inl ⟨c, hnewline, hslash, hne, rfl⟩)
    refine ⟨[c] ++ body, append_mem_kstar hpiece hbody, rfl, ?_⟩
    simpa using hstart

theorem quoted_complete (hq : isQuote q = true) {body rest : List Char}
    (h : body ∈ KStar.kstar (piece q)) :
    Lexeme.quoted q (body ++ q :: rest) = .ok (body ++ [q]) := by
  refine kstar_induction (P := fun body => Lexeme.quoted q (body ++ q :: rest) = .ok (body ++ [q]))
    h ?_ ?_
  · rcases eq_of_isQuote hq with rfl | rfl <;> simp [Lexeme.quoted]
  · intro as bs has ih
    rcases mem_piece.mp has with ⟨c, hnewline, hslash, hne, rfl⟩ | ⟨c, hnewline, rfl⟩
    · simp [Lexeme.quoted, hslash, hne, ih, Except.map]
    · simp [Lexeme.quoted, ih, Except.map]

/-- A literal that is not closed meets the first newline, or else the end of the text. -/
theorem text_of_unclosed {e : Lexeme.Unclosed} (h : Lexeme.quoted q cs = .error e) :
    e.text = if '\n' ∈ cs then "end of line" else "end of file" := by
  fun_induction Lexeme.quoted q cs with
  | case1 =>
    cases h
    rfl
  | case2 =>
    cases h
    simp [Lexeme.Unclosed.text]
  | case3 =>
    cases h
    simp [Lexeme.Unclosed.text]
  | case4 c cs hc ih =>
    have hne : '\n' ≠ c := fun heq => hc heq.symm
    rw [ih (map_eq_error.mp h)]
    simp [hne]
  | case5 => cases h
  | case6 c cs hnewline _ _ _ ih =>
    have hne : '\n' ≠ c := fun heq => hnewline heq.symm
    rw [ih (map_eq_error.mp h)]
    simp [hne]

theorem longestIn_quoted (hq : isQuote q = true) (h : Lexeme.quoted q cs = .ok ds) :
    LongestIn (Lexical.quoted q) (q :: ds) (q :: cs) := by
  obtain ⟨body, hbody, rfl, hstart⟩ := quoted_sound h
  refine ⟨mem_quoted.mpr ⟨body, hbody, rfl⟩, List.cons_prefix_cons.mpr ⟨rfl, hstart⟩, ?_⟩
  intro l hl hl'
  obtain ⟨body', hbody', rfl⟩ := mem_quoted.mp hl
  obtain ⟨-, rest, rfl⟩ := List.cons_prefix_cons.mp hl'
  -- both literals are what is read
  rw [List.append_assoc, List.singleton_append, quoted_complete hq hbody'] at h
  rw [Except.ok.inj h]

/-- If the literal is not closed, no lexeme starts at the quote. -/
theorem not_starts_of_unclosed (hq : isQuote q = true) {e : Lexeme.Unclosed}
    (h : Lexeme.quoted q cs = .error e) {l : List Char} (hl : l ∈ Lexical.quoted q) :
    ¬ l <+: q :: cs := by
  intro hstart
  obtain ⟨body, hbody, rfl⟩ := mem_quoted.mp hl
  obtain ⟨-, rest, rfl⟩ := List.cons_prefix_cons.mp hstart
  rw [List.append_assoc, List.singleton_append, quoted_complete hq hbody] at h
  cases h

end Quotes

section Reading

variable {c : Char} {cs : List Char}

theorem isCommentStart_iff {text : List Char} :
    Lexeme.isCommentStart text = true ↔ [';', ';', ';'] <+: text := by
  rw [Lexeme.isCommentStart, beq_iff_eq, List.prefix_iff_eq_take]
  exact eq_comm

/-- A comment goes up to the newline behind it. -/
theorem takeWhile_comment {body text : List Char} (hbody : '\n' ∉ body)
    (hend : ∀ c ∈ text.head?, c = '\n') :
    (';' :: ';' :: ';' :: body ++ text).takeWhile (· != '\n') = ';' :: ';' :: ';' :: body := by
  have hall : ∀ c ∈ ';' :: ';' :: ';' :: body, (c != '\n') = true := by
    intro c hc
    rw [bne_iff_ne]
    rintro rfl
    simp [hbody] at hc
  rw [List.takeWhile_append_of_pos hall]
  cases text with
  | nil => simp
  | cons c text => simp [hend c rfl]

theorem Lexical.Bare.isCommentStart {text : List Char} (h : Bare text) :
    Lexeme.isCommentStart text = false := by
  rw [← Bool.not_eq_true, isCommentStart_iff]
  exact h.comment

theorem longestIn_word (h : isWordStart c = true) :
    LongestIn Lexical.word ((c :: cs).takeWhile isWordChar) (c :: cs) := by
  have hc := Lexeme.isWordChar_of_isWordStart h
  refine ⟨?_, List.takeWhile_prefix _, ?_⟩
  · rw [mem_word, List.takeWhile_cons, if_pos hc]
    exact ⟨c, _, rfl, h, fun d => List.mem_takeWhile_imp⟩
  · intro l hl
    obtain ⟨d, ds, rfl, hd, hds⟩ := mem_word.mp hl
    exact length_le_takeWhile
      (List.forall_mem_cons.mpr ⟨Lexeme.isWordChar_of_isWordStart hd, hds⟩)

theorem longestIn_operator (h : isOperatorChar c = true) :
    LongestIn Lexical.operator ((c :: cs).takeWhile isOperatorChar) (c :: cs) := by
  rw [operator_eq_run]
  exact .run ⟨c, rfl, h⟩

theorem longestIn_mark : LongestIn (char (· == c)) [c] (c :: cs) := by
  refine ⟨mem_char.mpr ⟨c, beq_self_eq_true c, rfl⟩, ⟨cs, rfl⟩, ?_⟩
  rintro l ⟨d, -, rfl⟩ -
  exact Nat.le_refl 1

/-- The longest lexeme of the class that the first character belongs to is the longest of all. -/
theorem Lexical.Longest.of_class {a : Class} {l : List Char} (hc : a.starts c = true)
    (h : LongestIn (a.language c) l (c :: cs)) : Longest (a.kind c l) l (c :: cs) := by
  have hl : ∃ ds, l = c :: ds := by
    rcases List.prefix_cons_iff.mp h.starts with rfl | ⟨ds, rfl, -⟩
    · exact absurd rfl (Class.ne_nil h.mem)
    · exact ⟨ds, rfl⟩
  obtain ⟨ds, rfl⟩ := hl
  refine ⟨Class.matches_kind hc h.mem, h.starts, ?_⟩
  intro k' l' hl' hstart
  obtain ⟨b, d, ds', rfl, -⟩ := hl'.exists_class
  obtain ⟨rfl, -⟩ := List.cons_prefix_cons.mp hstart
  exact h.longest (hl'.of_starts hc).1 hstart

/-- Where no class of lexemes starts, no lexeme does. -/
theorem Lexical.NoLexeme.of_class (hc : Class.ofFirst? c = none) : NoLexeme (c :: cs) := by
  intro k l hl hstart
  obtain ⟨a, d, ds, rfl, hd, -⟩ := hl.exists_class
  obtain ⟨rfl, -⟩ := List.cons_prefix_cons.mp hstart
  rw [Class.ofFirst?_of_starts hd] at hc
  cases hc

/-- Reading finds the longest lexeme or there is none. -/
theorem read_cases (h : Bare (c :: cs)) :
    (∃ k l, Lexeme.read c cs = .ok (.token k l) ∧ Longest k l (c :: cs)) ∨
      (Lexeme.read c cs = .error (mismatch c cs) ∧ NoLexeme (c :: cs)) := by
  simp only [Lexeme.read, h.isBlank, h.isCommentStart, Bool.false_eq_true, if_false]
  split_ifs with hdigit hquote hword hoperator hmark
  · exact .inl ⟨_, _, rfl, .of_class (a := .number) hdigit (longestIn_number ⟨c, rfl, hdigit⟩)⟩
  · cases hq : Lexeme.quoted c cs with
    | ok ds => exact .inl ⟨_, _, rfl, .of_class (a := .quoted) hquote (longestIn_quoted hquote hq)⟩
    | error e =>
      refine .inr ⟨?_, ?_⟩
      · simp only [mismatch, if_pos (mem_quotes.mpr hquote), text_of_unclosed hq]
      · intro k l hl hstart
        obtain ⟨a, d, ds, rfl, -⟩ := hl.exists_class
        obtain ⟨rfl, -⟩ := List.cons_prefix_cons.mp hstart
        exact not_starts_of_unclosed hquote hq (hl.of_starts (a := .quoted) hquote).1 hstart
  · exact .inl ⟨_, _, rfl, .of_class (a := .word) hword (longestIn_word hword)⟩
  · exact .inl ⟨_, _, rfl, .of_class (a := .operator) hoperator (longestIn_operator hoperator)⟩
  · exact .inl ⟨_, _, rfl, .of_class (a := .mark) hmark longestIn_mark⟩
  · refine .inr ⟨by rw [mismatch, if_neg (mt mem_quotes.mp hquote)], .of_class ?_⟩
    simp [Class.ofFirst?, hdigit, hquote, hword, hoperator, hmark]

theorem read_eq_token {k : Token.Kind} {l : List Char} (hbare : Bare (c :: cs))
    (h : Longest k l (c :: cs)) : Lexeme.read c cs = .ok (.token k l) := by
  rcases read_cases hbare with ⟨k', l', hread, hl'⟩ | ⟨-, hnone⟩
  · obtain ⟨rfl, rfl⟩ := h.unique hl'
    exact hread
  · exact absurd h.starts (hnone k l h.fits)

end Reading

namespace Token

/-- The characters of a lexeme are passed over once it is read. -/
theorem scan_read {c : Char} {ds rest : List Char} {l : Lexeme}
    (h : Lexeme.read c (ds ++ rest) = .ok l) (htext : l.text = c :: ds) (p : Position) :
    scan 0 p (c :: (ds ++ rest)) = (scan 0 (p.after (c :: ds)) rest).map (l.tokens p ++ ·) := by
  rw [scan, h]
  simp only [htext, List.length_cons, Nat.add_sub_cancel, scan_owed, Position.after_cons]

theorem scan_skipped {c : Char} {ds rest : List Char}
    (h : Lexeme.read c (ds ++ rest) = .ok (.skipped (c :: ds))) (p : Position) :
    scan 0 p (c :: (ds ++ rest)) = scan 0 (p.after (c :: ds)) rest := by
  rw [scan_read h rfl]
  cases scan 0 (p.after (c :: ds)) rest with
  | ok ts => rfl
  | error e => rfl

theorem scan_skips {text gap rest : List Char} (h : Skips text gap rest) (p : Position) :
    scan 0 p text = scan 0 (p.after gap) rest := by
  induction h generalizing p with
  | stop => rfl
  | blank hb _ ih => rw [scan_blank (mem_blanks.mp hb), ih, Position.after_cons]
  | @comment body text gap rest hbody hend _ ih =>
    have hstart : Lexeme.isCommentStart (';' :: (';' :: ';' :: body ++ text)) = true :=
      isCommentStart_iff.mpr ⟨body ++ text, rfl⟩
    have hread : Lexeme.read ';' (';' :: ';' :: body ++ text) =
        .ok (.skipped (';' :: ';' :: ';' :: body)) := by
      rw [Lexeme.read, if_neg (by decide), if_pos hstart, ← takeWhile_comment hbody hend]
      rfl
    rw [Position.after_append, ← ih]
    exact scan_skipped hread p

theorem scan_splits {p q : Position} {text rest : List Char} {ts : List Token}
    (h : Splits p text ts q rest) : scan 0 p text = (scan 0 q rest).map (ts ++ ·) := by
  induction h with
  | @done p text gap rest h =>
    rw [scan_skips h]
    cases scan 0 (p.after gap) rest with
    | ok ts => rfl
    | error e => rfl
  | @lexeme p q text gap l after rest k ts hgap hl _ ih =>
    obtain ⟨a, c, ds, rfl, -⟩ := hl.fits.exists_class
    have hread : Lexeme.read c (ds ++ after) = .ok (.token k (c :: ds)) :=
      read_eq_token hgap.bare hl
    rw [scan_skips hgap, List.cons_append, scan_read hread rfl, ih]
    cases scan 0 q rest with
    | ok us => rfl
    | error e => rfl

end Token

namespace Lexical

theorem exists_skips (text : List Char) : ∃ gap rest, Skips text gap rest := by
  induction hn : text.length using Nat.strong_induction_on generalizing text with
  | _ n ih =>
    subst hn
    by_cases hblank : ∃ b ∈ text.head?, b ∈ blanks
    · obtain ⟨b, hb, hblank⟩ := hblank
      obtain ⟨cs, rfl⟩ := List.head?_eq_some_iff.mp hb
      obtain ⟨gap, rest, h⟩ := ih cs.length (by simp) cs rfl
      exact ⟨b :: gap, rest, .blank hblank h⟩
    · by_cases hcomment : [';', ';', ';'] <+: text
      · obtain ⟨cs, rfl⟩ := hcomment
        -- the comment goes up to the next newline
        let body := cs.takeWhile (· != '\n')
        let more := cs.dropWhile (· != '\n')
        have hcs : body ++ more = cs := List.takeWhile_append_dropWhile
        have hlen : more.length ≤ cs.length := (List.dropWhile_sublist _).length_le
        have hbody : '\n' ∉ body := fun hmem => by simpa using List.mem_takeWhile_imp hmem
        have hend : ∀ c ∈ more.head?, c = '\n' := by
          intro c hc
          have hstop := List.head?_dropWhile_not (· != '\n') cs
          rw [show (cs.dropWhile (· != '\n')).head? = some c from hc] at hstop
          simpa using hstop
        obtain ⟨gap, rest, h⟩ := ih more.length (by simp; omega) more rfl
        have hskip : Skips (';' :: ';' :: ';' :: body ++ more) (';' :: ';' :: ';' :: body ++ gap) rest :=
          .comment hbody hend h
        rw [← hcs]
        exact ⟨_, rest, hskip⟩
      · refine ⟨[], text, .stop ⟨?_, hcomment⟩⟩
        exact fun c hc h => hblank ⟨c, hc, h⟩

theorem Skips.append {text gap rest : List Char} (h : Skips text gap rest) : text = gap ++ rest := by
  induction h with
  | stop => rfl
  | blank _ _ ih => rw [ih, List.cons_append]
  | comment _ _ _ ih => rw [ih, List.append_assoc]

/-- Every text splits up to its end, or to a place where no lexeme starts. -/
theorem exists_splits (text : List Char) (p : Position) :
    ∃ ts q rest, Splits p text ts q rest ∧ (rest = [] ∨ NoLexeme rest) := by
  induction hn : text.length using Nat.strong_induction_on generalizing text p with
  | _ n ih =>
    subst hn
    obtain ⟨gap, more, hgap⟩ := exists_skips text
    cases more with
    | nil => exact ⟨[], _, [], .done hgap, .inl rfl⟩
    | cons c cs =>
      rcases read_cases hgap.bare with ⟨k, l, -, hl⟩ | ⟨-, hnone⟩
      · obtain ⟨after, hafter⟩ := hl.starts
        have hlen : after.length < text.length := by
          obtain ⟨a, d, ds, rfl, -⟩ := hl.fits.exists_class
          rw [hgap.append, ← hafter]
          simp
          omega
        rw [← hafter] at hgap hl
        obtain ⟨ts, q, rest, hsplit, hrest⟩ := ih _ hlen after ((p.after gap).after l) rfl
        exact ⟨_, q, rest, .lexeme hgap hl hsplit, hrest⟩
      · exact ⟨[], _, c :: cs, .done hgap, .inr hnone⟩

end Lexical

namespace Token

theorem scan_lost {c : Char} {cs : List Char} (h : Bare (c :: cs)) (hnone : NoLexeme (c :: cs))
    (p : Position) : scan 0 p (c :: cs) = .error ⟨mismatch c cs, p⟩ := by
  rcases read_cases h with ⟨k, l, -, hl⟩ | ⟨hread, -⟩
  · exact absurd hl.starts (hnone k l hl.fits)
  · rw [scan, hread]

variable {source : String}

theorem ofSource_of_splits {init : List Token} {p : Position}
    (h : Splits .start source.toList init p []) : ofSource source = .ok (init ++ [eof p]) := by
  rw [ofSource, ofText, scan_splits h]
  rfl

theorem ofSource_of_lost {init : List Token} {p : Position} {c : Char} {rest : List Char}
    (h : Splits .start source.toList init p (c :: rest)) (hnone : NoLexeme (c :: rest)) :
    ofSource source = .error ⟨mismatch c rest, p⟩ := by
  rw [ofSource, ofText, scan_splits h, scan_lost h.bare hnone]
  rfl

theorem exists_splits_of_ok {ts : List Token} (h : ofSource source = .ok ts) :
    ∃ init p, Splits .start source.toList init p [] ∧ ts = init ++ [eof p] := by
  obtain ⟨init, q, rest, hsplit, hrest⟩ := exists_splits source.toList .start
  cases rest with
  | nil => exact ⟨init, q, hsplit, Except.ok.inj (h.symm.trans (ofSource_of_splits hsplit))⟩
  | cons c rest =>
    have hnone : NoLexeme (c :: rest) := hrest.resolve_left nofun
    cases h.symm.trans (ofSource_of_lost hsplit hnone)

theorem exists_splits_of_error {d : Diagnostic} (h : ofSource source = .error d) :
    ∃ init c rest, Splits .start source.toList init d.pos (c :: rest) ∧ NoLexeme (c :: rest) ∧
      d.cause = mismatch c rest := by
  obtain ⟨init, q, rest, hsplit, hrest⟩ := exists_splits source.toList .start
  cases rest with
  | nil => cases h.symm.trans (ofSource_of_splits hsplit)
  | cons c rest =>
    have hnone : NoLexeme (c :: rest) := hrest.resolve_left nofun
    cases h.symm.trans (ofSource_of_lost hsplit hnone)
    exact ⟨init, c, rest, hsplit, hnone, rfl⟩

/-- The tokens of a text are the lexemes that it splits into and the end of the file behind them. If
something else is left, no lexeme starts it, and that is what is reported there. -/
theorem ofSource_iff_splits (source : String) :
    (∀ ts, ofSource source = .ok ts ↔
      ∃ init p, Splits .start source.toList init p [] ∧ ts = init ++ [⟨.eof, "", p⟩]) ∧
    (∀ d, ofSource source = .error d ↔
      ∃ init c rest, Splits .start source.toList init d.pos (c :: rest) ∧ NoLexeme (c :: rest) ∧
        d.cause = mismatch c rest) := by
  constructor
  · intro ts
    refine ⟨exists_splits_of_ok, ?_⟩
    rintro ⟨init, p, h, rfl⟩
    exact ofSource_of_splits h
  · intro d
    refine ⟨exists_splits_of_error, ?_⟩
    rintro ⟨init, c, rest, h, hnone, hd⟩
    rw [ofSource_of_lost h hnone, ← hd]

end Token
end Morpho
