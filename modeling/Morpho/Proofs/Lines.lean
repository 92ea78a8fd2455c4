import Morpho.Position
import Morpho.Text.Lines
import Mathlib.Data.List.Basic
import Mathlib.Data.List.Induction

/-! Places in a text and its lines: the line of a place is one of the text's lines, and the column says
how many characters of it come before. -/
namespace Morpho

namespace Text

theorem lines_cons {c : Char} {cs : List Char} (hc : c ≠ '\n')
    (hreturn : c = '\r' → cs.head? ≠ some '\n') :
    lines (c :: cs) = (c :: (lines cs).headD []) :: (lines cs).tail := by
  have hpair : ∀ ds, c = '\r' → cs = '\n' :: ds → False := by
    rintro ds rfl rfl
    exact hreturn rfl rfl
  rw [lines]
  · cases lines cs with
    | nil => rfl
    | cons line more => rfl
  · exact hc
  · exact hpair

variable {b : List Char}

theorem head?_ne_newline (hb : '\n' ∉ b) : b.head? ≠ some '\n' := by
  intro h
  exact hb (List.mem_of_mem_head? h)

theorem lines_of_not_mem (hne : b ≠ []) (hb : '\n' ∉ b) : lines b = [b] := by
  induction b with
  | nil => exact absurd rfl hne
  | cons c b ih =>
    obtain ⟨hc, hmem⟩ := not_or.mp (mt List.mem_cons.mpr hb)
    rw [lines_cons (Ne.symm hc) fun _ => head?_ne_newline hmem]
    cases b with
    | nil => rfl
    | cons d b => rw [ih (by simp) hmem]; rfl

/-- The first newline ends the first line. -/
theorem lines_append_newline (hb : '\n' ∉ b) (rest : List Char) :
    ∃ line, lines (b ++ '\n' :: rest) = line :: lines rest := by
  induction b with
  | nil => exact ⟨[], rfl⟩
  | cons c b ih =>
    obtain ⟨hc, hmem⟩ := not_or.mp (mt List.mem_cons.mpr hb)
    obtain ⟨line, hline⟩ := ih hmem
    by_cases hreturn : c = '\r' ∧ b = []
    · obtain ⟨rfl, rfl⟩ := hreturn
      exact ⟨[], rfl⟩
    · refine ⟨c :: line, ?_⟩
      rw [List.cons_append, lines_cons (Ne.symm hc), hline]
      · rfl
      · rintro rfl
        cases b with
        | nil => exact absurd ⟨rfl, rfl⟩ hreturn
        | cons d b => exact head?_ne_newline (b := d :: b) hmem

/-- A text that stands on one line, whatever follows it: no newline is in it, and no carriage return at
its end can go with one. -/
structure Inline (cs : List Char) : Prop where
  ne_nil : cs ≠ []
  newline : '\n' ∉ cs
  last : cs.getLast? ≠ some '\r'

theorem Inline.starts_line (h : Inline b) (rest : List Char) :
    ∃ line more, lines (b ++ rest) = line :: more ∧ b <+: line := by
  obtain ⟨hne, hb, hlast⟩ := h
  induction b with
  | nil => exact absurd rfl hne
  | cons c b ih =>
    obtain ⟨hc, hmem⟩ := not_or.mp (mt List.mem_cons.mpr hb)
    cases b with
    | nil =>
      refine ⟨_, _, lines_cons (Ne.symm hc) ?_, by simp⟩
      rintro rfl
      exact absurd rfl hlast
    | cons d b =>
      obtain ⟨line, more, hline, hstarts⟩ := ih (by simp) hmem (by simpa using hlast)
      refine ⟨c :: line, more, ?_, by simpa using hstarts⟩
      have hhead : (d :: b ++ rest).head? ≠ some '\n' := head?_ne_newline (b := d :: b) hmem
      rw [List.cons_append, lines_cons (Ne.symm hc) fun _ => hhead, hline]
      rfl

/-- A text that stands on one line is that line if a newline follows. -/
theorem lines_inline (h : Inline b) (rest : List Char) :
    lines (b ++ '\n' :: rest) = b :: lines rest := by
  obtain ⟨hne, hb, hlast⟩ := h
  induction b with
  | nil => exact absurd rfl hne
  | cons c b ih =>
    obtain ⟨hc, hmem⟩ := not_or.mp (mt List.mem_cons.mpr hb)
    cases b with
    | nil =>
      rw [List.singleton_append, lines_cons (Ne.symm hc)]
      · rfl
      · rintro rfl
        exact absurd rfl hlast
    | cons d b =>
      have hhead : (d :: b ++ '\n' :: rest).head? ≠ some '\n' := head?_ne_newline (b := d :: b) hmem
      rw [List.cons_append, lines_cons (Ne.symm hc) fun _ => hhead,
        ih (by simp) hmem (by simpa using hlast)]
      rfl

theorem lines_flatMap {ls : List (List Char)} (h : ∀ l ∈ ls, Inline l) (rest : List Char) :
    lines (ls.flatMap (· ++ ['\n']) ++ rest) = ls ++ lines rest := by
  induction ls with
  | nil => rfl
  | cons l ls ih =>
    obtain ⟨hl, hls⟩ := List.forall_mem_cons.mp h
    rw [List.flatMap_cons, List.append_assoc, List.append_assoc, List.singleton_append,
      lines_inline hl, ih hls]
    rfl

/-- A text between two marks stands on one line if no newline is in it. -/
theorem inline_between {cs : List Char} (h : '\n' ∉ cs) {first last : Char} (hfirst : first ≠ '\n')
    (hlast : last ≠ '\n' ∧ last ≠ '\r') : Inline (first :: (cs ++ [last])) := by
  refine ⟨by simp, ?_, ?_⟩
  · simp [h, hfirst.symm, hlast.1.symm]
  · rw [← List.cons_append, List.getLast?_concat]
    simpa using hlast.2

/-- The place behind `pre` has some text `b` before it on its line. The lines from there on are those of
`b` and what follows. -/
theorem exists_line_start (pre : List Char) :
    ∃ a b, pre = a ++ b ∧ (a = [] ∨ a.getLast? = some '\n') ∧ '\n' ∉ b ∧
      Position.start.after pre = ⟨pre.count '\n' + 1, b.length + 1⟩ ∧
      ∀ rest, (lines (pre ++ rest)).drop (pre.count '\n') = lines (b ++ rest) := by
  -- from the end, where the last character says whether a line starts there
  induction pre using List.reverseRecOn with
  | nil => exact ⟨[], [], rfl, .inl rfl, by simp, rfl, fun rest => rfl⟩
  | append_singleton pre c ih =>
    obtain ⟨a, b, hpre, ha, hb, hpos, hlines⟩ := ih
    by_cases hc : c = '\n'
    · subst hc
      refine ⟨pre ++ ['\n'], [], by simp, .inr (by simp), by simp, ?_, fun rest => ?_⟩
      · rw [Position.after_append, hpos]
        simp [Position.next]
      · obtain ⟨line, hline⟩ := lines_append_newline hb rest
        rw [List.append_assoc, List.count_append, List.count_singleton_self, ← List.drop_drop, hlines]
        simp [hline]
    · refine ⟨a, b ++ [c], by simp [hpre], ha, by simp [hb, Ne.symm hc], ?_, fun rest => ?_⟩
      · rw [Position.after_append, hpos]
        simp [Position.next, hc]
      · have hcount : (pre ++ [c]).count '\n' = pre.count '\n' := by simp [hc]
        rw [hcount, List.append_assoc, List.append_assoc, hlines]

theorem one_le_after (pre : List Char) :
    1 ≤ (Position.start.after pre).line ∧ 1 ≤ (Position.start.after pre).column := by
  obtain ⟨_, _, _, _, _, hpos, _⟩ := exists_line_start pre
  simp [hpos]

/-- The line of a place has the text that stands there, and the column says where. -/
theorem exists_line_of_inline {mid : List Char} (hmid : Inline mid) (pre rest : List Char) :
    ∃ line, (lines (pre ++ mid ++ rest))[(Position.start.after pre).line - 1]? = some line ∧
      (Position.start.after pre).column ≤ line.length ∧
      mid <+: line.drop ((Position.start.after pre).column - 1) := by
  obtain ⟨a, b, -, -, hb, hpos, hlines⟩ := exists_line_start pre
  have hinline : Inline (b ++ mid) := by
    refine ⟨by simp [hmid.ne_nil], by simp [hb, hmid.newline], ?_⟩
    rw [List.getLast?_append_of_ne_nil _ hmid.ne_nil]
    exact hmid.last
  obtain ⟨line, more, hline, hstarts⟩ := hinline.starts_line rest
  refine ⟨line, ?_, ?_, ?_⟩
  · have hdrop := hlines (mid ++ rest)
    rw [← List.append_assoc, ← List.append_assoc, hline] at hdrop
    rw [hpos, Nat.add_sub_cancel, ← List.head?_drop, hdrop, List.head?_cons]
  · have hlen := hstarts.length_le
    have hpos' := List.length_pos_iff.mpr hmid.ne_nil
    rw [List.length_append] at hlen
    rw [hpos]
    simp only
    omega
  · obtain ⟨tail, rfl⟩ := hstarts
    simp [hpos]

/-- The line behind a text that is empty or ends with a newline is no line of it. -/
theorem lines_at_end_of_newline {text : List Char} (h : text = [] ∨ text.getLast? = some '\n') :
    (lines text)[(Position.start.after text).line - 1]? = none := by
  obtain ⟨a, b, rfl, -, hb, hpos, hlines⟩ := exists_line_start text
  have hnil : b = [] := by
    cases b using List.reverseRecOn with
    | nil => rfl
    | append_singleton b c =>
      rcases h with h | h
      · simp at h
      · obtain rfl : c = '\n' := by simpa [← List.append_assoc] using h
        simp at hb
  have hdrop := hlines []
  rw [List.append_nil, hnil, List.append_nil] at hdrop
  rw [hpos, hnil, List.append_nil, Nat.add_sub_cancel, ← List.head?_drop, hdrop]
  rfl

/-- The end of any other text is right behind its last line. -/
theorem lines_at_end {text : List Char} (hne : text ≠ []) (h : text.getLast? ≠ some '\n') :
    ∃ line, (lines text).getLast? = some line ∧
      (lines text)[(Position.start.after text).line - 1]? = some line ∧
      (Position.start.after text).column = line.length + 1 := by
  obtain ⟨a, b, htext, ha, hb, hpos, hlines⟩ := exists_line_start text
  have hline : b ≠ [] := by
    rintro rfl
    rw [List.append_nil] at htext
    exact ha.elim (htext ▸ hne) (htext ▸ h)
  have hdrop := hlines []
  rw [List.append_nil, List.append_nil, lines_of_not_mem hline hb] at hdrop
  refine ⟨b, ?_, ?_, ?_⟩
  · have hlast := congrArg List.getLast? hdrop
    rw [List.getLast?_drop] at hlast
    split at hlast
    · cases hlast
    · exact hlast
  · rw [hpos, Nat.add_sub_cancel, ← List.head?_drop, hdrop]
    rfl
  · rw [hpos]

end Text
end Morpho
