import Morpho.Proofs.Characters
import Morpho.Proofs.Steps
import Mathlib.Data.List.TakeWhile

/-! Lexemes in front of a blank. A blank ends every lexeme of a token, and a newline ends comments as
well, so a text and a newline are scanned without regard to what follows. -/
namespace Morpho

theorem takeWhile_append_stop {α : Type} {p : α → Bool} {b : α} (hb : p b = false)
    (xs rest : List α) : (xs ++ b :: rest).takeWhile p = xs.takeWhile p := by
  induction xs with
  | nil => simp [hb]
  | cons x xs ih => simp only [List.cons_append, List.takeWhile_cons, ih]

theorem length_takeWhile_le {α : Type} (p : α → Bool) (xs : List α) :
    (xs.takeWhile p).length ≤ xs.length :=
  (List.takeWhile_sublist p).length_le

theorem map_eq_ok {ε α β : Type} {f : α → β} {x : Except ε α} {b : β} :
    x.map f = .ok b ↔ ∃ a, x = .ok a ∧ f a = b := by
  cases x with
  | ok a => simp [Except.map]
  | error e => simp [Except.map]

theorem map_eq_error {ε α β : Type} {f : α → β} {x : Except ε α} {e : ε} :
    x.map f = .error e ↔ x = .error e := by
  cases x with
  | ok a => simp [Except.map]
  | error e => simp [Except.map]

namespace Lexeme

/-- A character that ends every token. -/
structure Ends (b : Char) : Prop where
  digit : b.isDigit = false
  word : isWordChar b = false
  operator : isOperatorChar b = false
  point : b ≠ '.'
  exponent : b ≠ 'e' ∧ b ≠ 'E'
  sign : b ≠ '+' ∧ b ≠ '-'
  semicolon : b ≠ ';'

theorem ends_of_isBlank {b : Char} (h : isBlank b = true) : Ends b := by
  rcases eq_of_isBlank h with rfl | rfl | rfl | rfl | rfl <;> constructor <;> decide

variable {b : Char}

theorem length_fraction_le (cs : List Char) : (fraction cs).length ≤ cs.length := by
  fun_cases fraction cs with
  | case1 => simp
  | case2 cs digits _ => simpa using length_takeWhile_le Char.isDigit cs
  | case3 => simp

theorem length_sign_le (cs : List Char) : (sign cs).length ≤ cs.length := by
  fun_cases sign cs <;> simp

theorem length_exponent_le (cs : List Char) : (exponent cs).length ≤ cs.length := by
  fun_cases exponent cs with
  | case1 e cs s digits _ =>
    have hs : s.length ≤ cs.length := length_sign_le cs
    have hd : digits.length ≤ (cs.drop s.length).length := length_takeWhile_le _ _
    simp only [List.length_drop] at hd
    simp
    omega
  | case2 => simp
  | case3 => simp

theorem length_number_le (cs : List Char) : (number cs).length ≤ cs.length := by
  have h₁ := length_takeWhile_le Char.isDigit cs
  have h₂ := length_fraction_le (cs.drop (cs.takeWhile Char.isDigit).length)
  have h₃ := length_exponent_le (cs.drop ((cs.takeWhile Char.isDigit).length +
    (fraction (cs.drop (cs.takeWhile Char.isDigit).length)).length))
  simp only [List.length_drop] at h₂ h₃
  simp only [number, List.length_append]
  omega

theorem fraction_append (hb : Ends b) (cs rest : List Char) :
    fraction (cs ++ b :: rest) = fraction cs := by
  cases cs with
  | nil => simp [fraction, hb.point]
  | cons c cs =>
    by_cases hc : c = '.'
    · subst hc
      simp only [List.cons_append, fraction, takeWhile_append_stop hb.digit]
    · simp [fraction, hc]

theorem sign_append (hb : Ends b) (cs rest : List Char) : sign (cs ++ b :: rest) = sign cs := by
  cases cs with
  | nil => simp [sign, hb.sign]
  | cons c cs => rfl

theorem exponent_append (hb : Ends b) (cs rest : List Char) :
    exponent (cs ++ b :: rest) = exponent cs := by
  cases cs with
  | nil => simp [exponent, hb.exponent]
  | cons e cs =>
    have hdrop : (cs ++ b :: rest).drop (sign cs).length = cs.drop (sign cs).length ++ b :: rest :=
      List.drop_append_of_le_length (length_sign_le cs)
    simp only [List.cons_append, exponent, sign_append hb, hdrop, takeWhile_append_stop hb.digit]

theorem number_append (hb : Ends b) (cs rest : List Char) :
    number (cs ++ b :: rest) = number cs := by
  have h₁ := length_takeWhile_le Char.isDigit cs
  have h₂ := length_fraction_le (cs.drop (cs.takeWhile Char.isDigit).length)
  rw [List.length_drop] at h₂
  simp only [number, takeWhile_append_stop hb.digit]
  rw [List.drop_append_of_le_length h₁, fraction_append hb, List.drop_append_of_le_length (by omega),
    exponent_append hb]

theorem isCommentStart_append (hb : Ends b) (cs rest : List Char) :
    isCommentStart (cs ++ b :: rest) = isCommentStart cs := by
  match cs with
  | [] => simp [isCommentStart, hb.semicolon]
  | [c] => simp [isCommentStart, hb.semicolon]
  | [c, d] => simp [isCommentStart, hb.semicolon]
  | c :: d :: e :: cs => simp [isCommentStart]

theorem quoted_append {q : Char} (hq : isQuote q = true) {cs ds : List Char}
    (h : quoted q cs = .ok ds) (rest : List Char) : quoted q (cs ++ rest) = .ok ds := by
  fun_induction quoted q cs generalizing ds with
  | case1 => cases h
  | case2 => cases h
  | case3 => cases h
  | case4 c cs hc ih =>
    obtain ⟨es, hes, rfl⟩ := map_eq_ok.mp h
    simp [quoted, ih hes, Except.map]
  | case5 cs hnewline _ _ =>
    have hslash : q ≠ '\\' := by
      rintro rfl
      exact absurd hq (by decide)
    simpa [quoted, hnewline, hslash] using h
  | case6 c cs hnewline h₁ h₂ hne ih =>
    obtain ⟨es, hes, rfl⟩ := map_eq_ok.mp h
    have hslash : c ≠ '\\' := by
      rintro rfl
      cases cs with
      | nil => cases hes
      | cons d cs => exact h₂ d cs rfl rfl
    simp [quoted, hslash, hne, ih hes, Except.map]

theorem length_quoted_le {q : Char} {cs ds : List Char} (h : quoted q cs = .ok ds) :
    ds.length ≤ cs.length := by
  fun_induction quoted q cs generalizing ds with
  | case1 => cases h
  | case2 => cases h
  | case3 => cases h
  | case4 c cs hc ih =>
    obtain ⟨es, hes, rfl⟩ := map_eq_ok.mp h
    simpa using ih hes
  | case5 cs =>
    cases h
    simp
  | case6 c cs _ _ _ _ ih =>
    obtain ⟨es, hes, rfl⟩ := map_eq_ok.mp h
    simpa using ih hes

theorem wordKind_ne_eof (w : List Char) : wordKind w ≠ .eof := by
  unfold wordKind
  split
  · simp
  · split <;> simp

theorem operatorKind_ne_eof (c : Char) (run : List Char) : operatorKind c run ≠ .eof := by
  unfold operatorKind
  split <;> simp

/-- A lexeme is no longer than the text it heads, and none stands for the end of the file. -/
theorem of_read {c : Char} {cs : List Char} {l : Lexeme} (h : read c cs = .ok l) :
    l.text.length ≤ (c :: cs).length ∧ ∀ p, ∀ t ∈ l.tokens p, t.kind ≠ .eof := by
  simp only [read] at h
  split_ifs at h with hblank hcomment hdigit hquote hword hoperator hmark
  · cases h
    simp [text, tokens]
  · cases h
    exact ⟨length_takeWhile_le _ _, by simp [tokens]⟩
  · cases h
    exact ⟨length_number_le _, by simp [tokens]⟩
  · cases hq : quoted c cs with
    | ok ds =>
      rw [hq] at h
      cases h
      exact ⟨Nat.succ_le_succ (length_quoted_le hq), by simp [tokens]⟩
    | error e =>
      rw [hq] at h
      cases h
  · cases h
    exact ⟨length_takeWhile_le _ _, by simp [tokens, wordKind_ne_eof]⟩
  · cases h
    exact ⟨length_takeWhile_le _ _, by simp [tokens, operatorKind_ne_eof]⟩
  · cases h
    simp [text, tokens]

/-- Lexemes that a character `b` ends, whatever follows. -/
def EndsAt (l : Lexeme) (b : Char) : Prop :=
  match l with
  | skipped _ => b = '\n'
  | token _ _ => isBlank b = true

theorem endsAt_newline (l : Lexeme) : l.EndsAt '\n' := by
  cases l with
  | skipped cs => rfl
  | token k cs => rfl

theorem read_append {c : Char} {cs : List Char} {l : Lexeme} (h : read c cs = .ok l)
    (hl : l.EndsAt b) (rest : List Char) : read c (cs ++ b :: rest) = .ok l := by
  have hb : Ends b := by
    cases l with
    | skipped _ =>
      cases hl
      exact ends_of_isBlank rfl
    | token k _ => exact ends_of_isBlank hl
  have happend : c :: (cs ++ b :: rest) = (c :: cs) ++ b :: rest := rfl
  simp only [read] at h ⊢
  rw [happend, isCommentStart_append hb]
  split_ifs at h ⊢ with hblank hcomment hdigit hquote hword hoperator hmark
  · exact h
  · cases h
    cases hl
    rw [takeWhile_append_stop rfl]
  · rw [number_append hb]
    exact h
  · cases hq : quoted c cs with
    | ok ds =>
      rw [quoted_append hquote hq]
      rwa [hq] at h
    | error e =>
      rw [hq] at h
      cases h
  · rw [takeWhile_append_stop hb.word]
    exact h
  · rw [takeWhile_append_stop hb.operator]
    exact h
  · exact h

theorem tokens_down (d : Nat) (p : Position) (l : Lexeme) :
    l.tokens (p.down d) = (l.tokens p).map (Token.down d) := by
  cases l with
  | skipped cs => rfl
  | token k cs => rfl

end Lexeme

namespace Position

theorem down_next (d : Nat) (p : Position) (c : Char) : (p.next c).down d = (p.down d).next c := by
  unfold next down
  split
  · simp only [Nat.add_right_comm]
  · rfl

theorem line_after (p : Position) (cs : List Char) : (p.after cs).line = p.line + cs.count '\n' := by
  induction cs generalizing p with
  | nil => rfl
  | cons c cs ih =>
    rw [after_cons, ih, next, List.count_cons]
    by_cases hc : c = '\n'
    · simp [hc]
      omega
    · simp [hc]

end Position

namespace Token

/-- The characters of a lexeme already read are passed over. -/
theorem scan_owed (cs : List Char) (p : Position) (rest : List Char) :
    scan cs.length p (cs ++ rest) = scan 0 (p.after cs) rest := by
  induction cs generalizing p with
  | nil => rfl
  | cons c cs ih =>
    rw [List.length_cons, List.cons_append, scan, ih]
    rfl

/-- A blank is passed over. -/
theorem scan_blank {b : Char} (hb : isBlank b = true) (p : Position) (rest : List Char) :
    scan 0 p (b :: rest) = scan 0 (p.next b) rest := by
  have hread : Lexeme.read b rest = .ok (.skipped [b]) := by rw [Lexeme.read, if_pos hb]
  rw [scan, hread]
  change (scan 0 (p.next b) rest).map id = _
  cases scan 0 (p.next b) rest with
  | ok ts => rfl
  | error e => rfl

/-- Text further down gives the same tokens further down. -/
theorem scan_down (d : Nat) {owed : Nat} {p : Position} {cs : List Char} {ts : List Token}
    (h : scan owed p cs = .ok ts) : scan owed (p.down d) cs = .ok (ts.map (down d)) := by
  fun_induction scan owed p cs generalizing ts with
  | case1 owed p =>
    cases h
    rw [scan]
    rfl
  | case2 owed p c cs ih => 
    rw [scan, ← Position.down_next, ih h]
  | case3 p c cs e he => cases h
  | case4 p c cs l hl ih =>
    obtain ⟨us, hus, rfl⟩ := map_eq_ok.mp h
    simp only [scan, hl, ← Position.down_next, ih hus, Lexeme.tokens_down, List.map_append]
    rfl

/-- Scanning starts anew behind a newline. The tokens of the text before it are followed by the end of
the file if nothing else comes. -/
theorem scan_append {owed : Nat} {p : Position} {cs : List Char} {ts : List Token}
    (h : scan owed p cs = .ok ts) (howed : owed ≤ cs.length) :
    ∃ init, ts = init ++ [eof (p.after cs)] ∧ (∀ t ∈ init, t.kind ≠ .eof) ∧
      ∀ rest, scan owed p (cs ++ '\n' :: rest) =
        (scan 0 ((p.after cs).next '\n') rest).map (init ++ ·) := by
  fun_induction scan owed p cs generalizing ts with
  | case1 owed p =>
    cases h
    obtain rfl : owed = 0 := by simpa using howed
    refine ⟨[], rfl, by simp, fun rest => ?_⟩
    rw [List.nil_append, scan_blank rfl, Position.after_nil]
    cases scan 0 (p.next '\n') rest with
    | ok ts => rfl
    | error e => rfl
  | case2 owed p c cs ih => 
    obtain ⟨init, hinit, hkinds, hrest⟩ := ih h (by simpa using howed)
    exact ⟨init, hinit, hkinds, hrest⟩
  | case3 p c cs e he => cases h
  | case4 p c cs l hl ih =>
    obtain ⟨us, hus, rfl⟩ := map_eq_ok.mp h
    obtain ⟨hlength, hkinds⟩ := Lexeme.of_read hl
    rw [List.length_cons] at hlength
    obtain ⟨init, rfl, hinit, hrest⟩ := ih hus (by omega)
    refine ⟨l.tokens p ++ init, by simp, ?_, fun rest => ?_⟩
    · intro t ht
      exact (List.mem_append.mp ht).elim (hkinds p t) (hinit t)
    · simp only [List.cons_append, scan, Lexeme.read_append hl l.endsAt_newline, hrest,
        Position.after_cons]
      cases scan 0 (((p.next c).after cs).next '\n') rest with
      | ok vs => simp [Except.map]
      | error e => rfl

end Token
end Morpho
