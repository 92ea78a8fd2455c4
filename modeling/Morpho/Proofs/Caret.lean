import Morpho.Proofs.Blame
import Morpho.Proofs.Places

/-! A finding is shown under the text that it is about. Its place was counted character by character
while the source was scanned, and only a newline ended a line there. The caret is put below one of the
lines of the source, which take the carriage return before a newline for a part of their end. -/
namespace Morpho

/-- The text that a finding is about: what was found, the name, or the quote that is not closed. -/
def Cause.culprit : Cause → String
  | expected wanted found =>
    if wanted = "closing \"" then "\"" else if wanted = "closing '" then "'" else found
  | alreadyDeclared name | undeclared name => name

namespace Diagnostic

/-- The token that stands for the end of the file was found where something else was wanted. -/
def AtEof (d : Diagnostic) (source : String) : Prop :=
  ∃ ts p wanted, Token.ofSource source = .ok ts ∧ Token.eof p ∈ ts ∧
    d = (Token.eof p).diagnostic wanted

/-- The message, a line and a caret behind some spaces. -/
def shown (d : Diagnostic) (line : List Char) (spaces : Nat) : String :=
  d.message ++ "\n" ++ String.ofList line ++ "\n" ++ String.ofList (List.replicate spaces ' ' ++ ['^'])

/-- The finding is shown with the line of the source that it names, and the caret is below the first
character of the text that it is about. -/
structure PointsInto (d : Diagnostic) (source : String) (line : List Char) : Prop where
  counted : 1 ≤ d.pos.line ∧ 1 ≤ d.pos.column
  named : (Text.lines source.toList)[d.pos.line - 1]? = some line
  inside : d.pos.column ≤ line.length
  rendered : d.render source = d.shown line (d.pos.column - 1)
  under : d.cause.culprit ≠ "" ∧ d.cause.culprit.toList <+: line.drop (d.pos.column - 1)

variable {d : Diagnostic} {source : String}

theorem render_eq_shown {line : List Char}
    (hline : (Text.lines source.toList)[d.pos.line - 1]? = some line)
    (h : d.pos.column - 1 ≤ line.length) : d.render source = d.shown line (d.pos.column - 1) := by
  rw [Diagnostic.render, hline, shown]
  simp only [caret, Nat.min_eq_right h]

/-- A finding about a text that stands on one line points at it. -/
theorem pointsInto_of_inline {before after : List Char}
    (htext : source.toList = before ++ d.cause.culprit.toList ++ after)
    (hpos : d.pos = Position.start.after before) (h : Text.Inline d.cause.culprit.toList) :
    ∃ line, d.PointsInto source line := by
  obtain ⟨line, hline, hinside, hstarts⟩ := Text.exists_line_of_inline h before after
  have hcounted := Text.one_le_after before
  rw [← htext, ← hpos] at hline
  rw [← hpos] at hinside hstarts hcounted
  refine ⟨line, ⟨hcounted, hline, hinside, render_eq_shown hline (by omega), ?_, hstarts⟩⟩
  intro hempty
  exact h.ne_nil (by simp [hempty])

end Diagnostic

theorem Parser.Wanted.culprit {wanted : String} (h : Wanted wanted) (found : String) :
    (Cause.expected wanted found).culprit = found := by
  have hfirst : wanted.toList.head? ≠ some 'c' := by
    cases h with
    | kind k => cases k <;> simp [Token.Kind.description]
    | expression => decide
    | cond => decide
  have hne : wanted ≠ "closing \"" ∧ wanted ≠ "closing '" := by
    constructor <;> rintro rfl <;> exact hfirst rfl
  simp [Cause.culprit, hne]

/-- What no lexeme starts is reported by its first character. -/
theorem Lexical.culprit_mismatch (c : Char) (rest : List Char) :
    (mismatch c rest).culprit = String.singleton c := by
  by_cases hq : c ∈ quotes
  · rcases eq_of_isQuote (mem_quotes.mp hq) with rfl | rfl <;> rfl
  · simp [mismatch, hq, Cause.culprit]

theorem Lexical.Bare.inline {c : Char} {rest : List Char} (h : Bare (c :: rest)) :
    Text.Inline [c] := by
  refine inline_of_not_blank (by simp) fun d hd => ?_
  rw [List.mem_singleton.mp hd]
  exact h.isBlank

theorem Program.found_of_compile {moduleName source : String} {d : Diagnostic}
    (h : compile moduleName source = .error (.found d)) :
    Token.ofSource source = .error d ∨
      ∃ ts, Token.ofSource source = .ok ts ∧ ofTokens ts = .error (.found d) := by
  have hsource : ofSource source = .error (.found d) := by
    rw [compile, Artifact.compile] at h
    rw [ofSource]
    cases hr : (loggedOfSource source).result with
    | ok p => simp [hr] at h
    | error e => simpa [hr] using h
  cases hts : Token.ofSource source with
  | ok ts => exact .inr ⟨ts, rfl, ofSource_of_tokens hts ▸ hsource⟩
  | error d' =>
    rw [ofSource, loggedOfSource, hts] at hsource
    cases hsource
    exact .inl rfl

namespace Diagnostic

variable {d : Diagnostic} {source : String}

theorem pointsInto_of_lost (h : Token.ofSource source = .error d) :
    ∃ line, d.PointsInto source line := by
  obtain ⟨init, c, rest, hsplit, -, hcause⟩ := Token.exists_splits_of_error h
  obtain ⟨before, htext, hpos⟩ := hsplit.append
  have hculprit : d.cause.culprit.toList = [c] := by
    rw [hcause, Lexical.culprit_mismatch, String.toList_singleton]
  have hwritten : source.toList = before ++ d.cause.culprit.toList ++ rest := by
    rw [htext, hculprit, List.append_cons]
  refine pointsInto_of_inline hwritten hpos ?_
  rw [hculprit]
  exact hsplit.bare.inline

theorem pointsInto_of_token {ts : List Token} {p : Position} {t : Token}
    (h : Lexical.Splits .start source.toList ts p []) (ht : t ∈ ts) (hpos : d.pos = t.pos)
    (hculprit : d.cause.culprit = t.lexeme) : ∃ line, d.PointsInto source line := by
  obtain ⟨before, after, htext, htpos⟩ := h.writtenIn ht
  have hinline := (h.fits ht).inline
  rw [← hculprit] at htext hinline
  exact pointsInto_of_inline htext (hpos.trans htpos) hinline

/-- What is reported about some token points at it; nothing else is but the end of the file. -/
theorem pointsInto_or_eof {ts : List Token} {p : Position}
    (h : Lexical.Splits .start source.toList ts p []) (hd : Parser.Blame (· ∈ ts) p d) :
    (∃ line, d.PointsInto source line) ∨ ∃ wanted, d = (Token.eof p).diagnostic wanted := by
  cases hd with
  | token ht hw =>
    refine .inl (pointsInto_of_token h ht rfl ?_)
    rw [Token.diagnostic, hw.culprit, Token.description, if_neg (h.fits ht).ne_eof]
  | alreadyDeclared ht => exact .inl (pointsInto_of_token h ht rfl rfl)
  | undeclared ht => exact .inl (pointsInto_of_token h ht rfl rfl)
  | eof => exact .inr ⟨_, rfl⟩

/-- The end of the file stands right behind the text. -/
theorem AtEof.pos (h : d.AtEof source) : d.pos = Position.start.after source.toList := by
  obtain ⟨_, p, wanted, hts, hp, rfl⟩ := h
  obtain ⟨init, q, hsplit, rfl⟩ := Token.exists_splits_of_ok hts
  obtain ⟨before, htext, hq⟩ := hsplit.append
  rw [List.append_nil] at htext
  have hpq : p = q := by
    rcases List.mem_append.mp hp with hmem | hmem
    · exact absurd rfl (hsplit.fits hmem).ne_eof
    · exact congrArg Token.pos (List.mem_singleton.mp hmem)
  rw [htext, ← hq, ← hpq]
  rfl

/-- The caret points at the culprit. Where nothing of the source is to blame but its end, it is right
behind the last line, and there is none if no line goes on up to there. -/
theorem caret_under_culprit {moduleName : String}
    (h : compile moduleName source = .error (.found d)) :
    (¬ d.AtEof source → ∃ line, d.PointsInto source line) ∧
    (d.AtEof source →
      ((source = "" ∨ source.toList.getLast? = some '\n') → d.render source = d.message) ∧
      (¬ (source = "" ∨ source.toList.getLast? = some '\n') →
        ∃ line, (Text.lines source.toList).getLast? = some line ∧
          d.render source = d.shown line line.length)) := by
  constructor
  · intro hend
    rcases Program.found_of_compile h with hscan | ⟨ts, hts, hparse⟩
    · exact pointsInto_of_lost hscan
    · obtain ⟨init, p, hsplit, rfl⟩ := Token.exists_splits_of_ok hts
      have hblame := Program.blame_of_ofTokens (fun t ht => (hsplit.fits ht).ne_eof) hparse
      refine (pointsInto_or_eof hsplit hblame).resolve_right ?_
      rintro ⟨wanted, hd⟩
      exact hend ⟨_, p, wanted, hts, by simp, hd⟩
  · intro hend
    have hpos := hend.pos
    constructor
    · intro hnewline
      have hnone := Text.lines_at_end_of_newline (hnewline.imp_left fun h => by simp [h])
      rw [← hpos] at hnone
      rw [render, hnone]
    · intro hnewline
      obtain ⟨hne, hlast⟩ := not_or.mp hnewline
      obtain ⟨line, hgetLast, hline, hcolumn⟩ := Text.lines_at_end (by simpa using hne) hlast
      rw [← hpos] at hline hcolumn
      refine ⟨line, hgetLast, ?_⟩
      rw [render_eq_shown hline (by omega), hcolumn, Nat.add_sub_cancel]

/-- The first text declares a parameter again, behind a character of two bytes and on lines that end with
two characters. The second breaks off. -/
theorem caret_under_redeclaration :
    let again := "fun f(x) = \x7b\r\n  ;;; \u00f8\r\n  \"\u00e9\"; var x = 1;\r\n\x7d"
    let conflict : Diagnostic := ⟨.alreadyDeclared "x", ⟨3, 12⟩⟩
    let half := "fun f() ="
    let missing : Diagnostic := ⟨.expected "an expression" "end of file", ⟨1, 10⟩⟩
    compile "m" again = .error (.found conflict) ∧ ¬ conflict.AtEof again ∧
    (∃ line, conflict.PointsInto again line) ∧
    compile "m" half = .error (.found missing) ∧ missing.AtEof half ∧
    ∃ line, (Text.lines half.toList).getLast? = some line ∧
      missing.render half = missing.shown line line.length := by
  intro again conflict half missing
  have hagain : compile "m" again = .error (.found conflict) := by decide +kernel
  have hhalf : compile "m" half = .error (.found missing) := by decide +kernel
  have hconflict : ¬ conflict.AtEof again := by
    rintro ⟨ts, p, wanted, -, -, h⟩
    have hcause : Cause.alreadyDeclared "x" = .expected wanted (Token.eof p).description :=
      congrArg cause h
    cases hcause
  have hmissing : missing.AtEof half := by
    refine ⟨[⟨.keyword .func, "fun", ⟨1, 1⟩⟩, ⟨.name, "f", ⟨1, 5⟩⟩, ⟨.punct '(', "(", ⟨1, 6⟩⟩,
      ⟨.punct ')', ")", ⟨1, 7⟩⟩, ⟨.punct '=', "=", ⟨1, 9⟩⟩, .eof ⟨1, 10⟩], ⟨1, 10⟩, "an expression",
      ?_, by simp, rfl⟩
    decide +kernel
  refine ⟨hagain, hconflict, (caret_under_culprit hagain).1 hconflict, hhalf, hmissing, ?_⟩
  exact ((caret_under_culprit hhalf).2 hmissing).2 (by decide +kernel)

end Diagnostic
end Morpho
