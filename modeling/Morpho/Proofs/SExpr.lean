import Morpho.Proofs.Places

/-! S-expressions and a reader for them, which goes through a text once, character by character. Atoms
are written as they are, but one in quotes ends with its closing quote, and any other in front of a blank
or a parenthesis. -/
namespace Morpho

open scoped Computability

inductive SExpr
  | atom (text : List Char)
  | list (parts : List SExpr)

namespace SExpr

/-- Characters of atoms without quotes. -/
def isPlain (c : Char) : Bool := !(c == '(' || c == ')' || isBlank c || isQuote c)

/-- Texts whose end a reader can tell. -/
inductive IsAtom : List Char → Prop
  | plain {w : List Char} (hne : w ≠ []) (h : ∀ c ∈ w, isPlain c = true) : IsAtom w
  | quoted {q : Char} {w : List Char} (hq : isQuote q = true) (h : w ∈ Lexical.quoted q) : IsAtom w

mutual

def text : SExpr → List Char
  | atom w => w
  | list [] => ['(', ')']
  | list (t :: ts) => '(' :: (t.text ++ spaced ts ++ [')'])

/-- The expressions, each after a space. -/
def spaced : List SExpr → List Char
  | [] => []
  | t :: ts => ' ' :: (t.text ++ spaced ts)

end

mutual

/-- The end of every atom can be told. -/
def Readable : SExpr → Prop
  | atom w => IsAtom w
  | list ts => AllReadable ts

def AllReadable : List SExpr → Prop
  | [] => True
  | t :: ts => t.Readable ∧ AllReadable ts

end

/-- Where in an atom a reader is. Its characters so far come from the last to the first; an atom without
quotes that has none has not started. -/
inductive Mode
  | plain (w : List Char)
  | quoted (q : Char) (w : List Char)
  | escaped (q : Char) (w : List Char)

/-- The parts of the innermost list that is open, from the last to the first, and those of the lists
around it. -/
structure Reader where
  parts : List SExpr
  outer : List (List SExpr)
  mode : Mode

namespace Reader

/-- A reader that is in no atom. -/
def between (parts : List SExpr) (outer : List (List SExpr)) : Reader := ⟨parts, outer, .plain []⟩

/-- Adds an atom without quotes, if it has started. -/
def flush (w : List Char) (parts : List SExpr) : List SExpr :=
  if w.isEmpty then parts else atom w.reverse :: parts

/-- Closes the innermost list. -/
def close (parts : List SExpr) : List (List SExpr) → Reader
  | [] => between parts []
  | ps :: outer => between (list parts.reverse :: ps) outer

def step (r : Reader) (c : Char) : Reader :=
  match r.mode with
  | .escaped q w => { r with mode := .quoted q (c :: w) }
  | .quoted q w =>
    if c = '\\' then { r with mode := .escaped q (c :: w) }
    else if c = q then between (atom (c :: w).reverse :: r.parts) r.outer
    else { r with mode := .quoted q (c :: w) }
  | .plain w =>
    if c = '(' then between [] (flush w r.parts :: r.outer)
    else if c = ')' then close (flush w r.parts) r.outer
    else if isBlank c then between (flush w r.parts) r.outer
    else if isQuote c then ⟨flush w r.parts, r.outer, .quoted c [c]⟩
    else { r with mode := .plain (c :: w) }

def run (r : Reader) (cs : List Char) : Reader := cs.foldl step r

@[simp] theorem run_nil (r : Reader) : r.run [] = r := rfl
@[simp] theorem run_cons (r : Reader) (c : Char) (cs : List Char) :
    r.run (c :: cs) = (r.step c).run cs := rfl
@[simp] theorem run_append (r : Reader) (cs ds : List Char) :
    r.run (cs ++ ds) = (r.run cs).run ds := List.foldl_append

end Reader

/-- The expressions that a text stands for, if nothing stays open at its end. -/
def ofText? (cs : List Char) : Option (List SExpr) :=
  match (Reader.between [] []).run cs with
  | ⟨parts, [], .plain []⟩ => some parts.reverse
  | _ => none

namespace Reader

variable {ps : List SExpr} {outer : List (List SExpr)}

theorem step_open : (between ps outer).step '(' = between [] (ps :: outer) := rfl

theorem step_quote {q : Char} (hq : isQuote q = true) :
    (between ps outer).step q = ⟨ps, outer, .quoted q [q]⟩ := by
  rcases eq_of_isQuote hq with rfl | rfl <;> rfl

theorem step_plain {c : Char} (hc : isPlain c = true) (w : List Char) :
    step ⟨ps, outer, .plain w⟩ c = ⟨ps, outer, .plain (c :: w)⟩ := by
  simp only [isPlain, Bool.not_eq_true', Bool.or_eq_false_iff, beq_eq_false_iff_ne] at hc
  obtain ⟨⟨⟨hopen, hclose⟩, hblank⟩, hquote⟩ := hc
  simp [step, hopen, hclose, hblank, hquote]

/-- Characters that a part ends in front of. -/
def Ends (c : Char) : Prop := isBlank c = true ∨ c = ')'

theorem step_ends {c : Char} (hc : Ends c) (w : List Char) :
    step ⟨ps, outer, .plain w⟩ c = (between (flush w ps) outer).step c := by
  rcases hc with hc | rfl
  · rcases eq_of_isBlank hc with rfl | rfl | rfl | rfl | rfl <;> rfl
  · rfl

theorem run_plain {cs : List Char} (h : ∀ c ∈ cs, isPlain c = true) (w : List Char) :
    run ⟨ps, outer, .plain w⟩ cs = ⟨ps, outer, .plain (cs.reverse ++ w)⟩ := by
  induction cs generalizing w with
  | nil => rfl
  | cons c cs ih =>
    obtain ⟨hc, hcs⟩ := List.forall_mem_cons.mp h
    rw [run_cons, step_plain hc, ih hcs]
    simp

/-- What stands between the quotes does not end the atom. -/
theorem run_body {q : Char} {body : List Char} (h : body ∈ (Lexical.piece q)∗) (w : List Char) :
    run ⟨ps, outer, .quoted q w⟩ body = ⟨ps, outer, .quoted q (body.reverse ++ w)⟩ := by
  refine Lexical.kstar_induction (P := fun ds => ∀ w, run ⟨ps, outer, .quoted q w⟩ ds =
    ⟨ps, outer, .quoted q (ds.reverse ++ w)⟩) h (fun _ => rfl) ?_ w
  intro as bs has ih w
  rcases Lexical.mem_piece.mp has with ⟨c, -, hslash, hc, rfl⟩ | ⟨c, -, rfl⟩
  · simp [step, hslash, hc, ih]
  · -- behind a backslash even a quote is passed over
    simp [step, ih]

theorem run_quoted {q : Char} {w : List Char} (hq : isQuote q = true) (h : w ∈ Lexical.quoted q) :
    (between ps outer).run w = between (atom w :: ps) outer := by
  obtain ⟨body, hbody, rfl⟩ := Lexical.mem_quoted.mp h
  have hslash : q ≠ '\\' := by rcases eq_of_isQuote hq with rfl | rfl <;> decide
  rw [run_cons, step_quote hq, run_append, run_body hbody]
  simp [step, hslash]

/-- Where a part ends, `r` has come to the same as `r'`. -/
def Settles (r r' : Reader) : Prop := ∀ c, Ends c → r.step c = r'.step c

theorem Settles.blank {r : Reader} (h : Settles r (between ps outer)) {c : Char}
    (hc : isBlank c = true) : r.step c = between ps outer := by
  rw [h c (.inl hc)]
  rcases eq_of_isBlank hc with rfl | rfl | rfl | rfl | rfl <;> rfl

theorem Settles.close {r : Reader} {qs : List SExpr} (h : Settles r (between ps (qs :: outer))) :
    r.step ')' = between (list ps.reverse :: qs) outer :=
  h ')' (.inr rfl)

theorem settles_atom {w : List Char} (h : IsAtom w) :
    Settles ((between ps outer).run w) (between (atom w :: ps) outer) := by
  intro c hc
  cases h with
  | plain hne h =>
    have hflush : flush w.reverse ps = atom w :: ps := by simp [flush, hne]
    rw [between, run_plain h, List.append_nil, step_ends hc, hflush]
  | quoted hq h => rw [run_quoted hq h]

end Reader

open Reader

mutual

/-- An expression is read as one part, whatever is read before it and around it. -/
theorem settles_text : ∀ (t : SExpr), t.Readable → ∀ (ps : List SExpr) (outer : List (List SExpr)),
    Settles ((between ps outer).run t.text) (between (t :: ps) outer)
  | atom w, h, ps, outer => settles_atom h
  | list [], _, ps, outer => fun _ _ => rfl
  | list (t :: ts), h, ps, outer => by
    -- inside the list nothing is read yet, and what was read before waits outside
    have hhead := settles_text t h.1 [] (ps :: outer)
    have hparts := settles_spaced ts h.2 hhead
    have hrun : (between ps outer).run (list (t :: ts)).text = between (list (t :: ts) :: ps) outer := by
      rw [text, run_cons, step_open, run_append, run_append, run_cons, hparts.close]
      simp
    rw [hrun]
    exact fun _ _ => rfl

theorem settles_spaced : ∀ (ts : List SExpr), AllReadable ts → ∀ {r : Reader} {ps : List SExpr}
    {outer : List (List SExpr)}, Settles r (between ps outer) →
    Settles (r.run (spaced ts)) (between (ts.reverse ++ ps) outer)
  | [], _, _, _, _, hr => hr
  | t :: ts, h, r, ps, outer, hr => by
    have ht := settles_text t h.1 ps outer
    rw [spaced, run_cons, run_append, hr.blank rfl, List.reverse_cons, List.append_assoc]
    exact settles_spaced ts h.2 ht

end

/-- The expressions, each on a line of its own. -/
def lines (ts : List SExpr) : List Char := ts.flatMap fun t => t.text ++ ['\n']

theorem run_lines {ts : List SExpr} (h : ∀ t ∈ ts, t.Readable) (ps : List SExpr) :
    (between ps []).run (lines ts) = between (ts.reverse ++ ps) [] := by
  induction ts generalizing ps with
  | nil => rfl
  | cons t ts ih =>
    obtain ⟨ht, hts⟩ := List.forall_mem_cons.mp h
    have hline : (between ps []).run (t.text ++ ['\n']) = between (t :: ps) [] := by
      rw [run_append]
      exact (settles_text t ht ps []).blank rfl
    rw [lines, List.flatMap_cons, run_append, hline, ← lines, ih hts]
    simp

/-- Expressions are read back from their lines. -/
theorem ofText?_lines {ts : List SExpr} (h : ∀ t ∈ ts, t.Readable) : ofText? (lines ts) = some ts := by
  rw [ofText?, run_lines h, List.append_nil, between]
  simp

section Lexemes

variable {c : Char}

theorem ends_of_not_isPlain (h : isPlain c = false) : Lexeme.Ends c := by
  simp only [isPlain, Bool.not_eq_false', Bool.or_eq_true, beq_iff_eq] at h
  rcases h with ((rfl | rfl) | hblank) | hquote
  · constructor <;> decide
  · constructor <;> decide
  · exact Lexeme.ends_of_isBlank hblank
  · rcases eq_of_isQuote hquote with rfl | rfl <;> constructor <;> decide

theorem isPlain_of_isDigit (h : c.isDigit = true) : isPlain c = true := by
  cases hc : isPlain c with
  | true => rfl
  | false => exact absurd h (by simp [(ends_of_not_isPlain hc).digit])

/-- Numbers, words and operators need no quotes. -/
theorem isPlain_of_mem_language {a : Lexical.Class} {d : Char} {l : List Char} (ha : a ≠ .quoted)
    (hm : a ≠ .mark) (hl : l ∈ a.language d) : ∀ c ∈ l, isPlain c = true := by
  intro c hc
  cases hplain : isPlain c with
  | true => rfl
  | false => exact absurd hc (Lexical.Lacks.language ha hm (ends_of_not_isPlain hplain) d l hl)

end Lexemes

end SExpr
end Morpho
