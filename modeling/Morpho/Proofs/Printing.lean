import Morpho.Proofs.WellFormed
import Morpho.Proofs.Scanning

/-! Programs with names as words, and words as text. Every operand is put in parentheses and a blank
follows every word, so no word runs into the next. -/
namespace Morpho

/-- A token without its place. -/
structure Word where
  kind : Token.Kind
  text : String
  deriving DecidableEq

def Token.word (t : Token) : Word := ⟨t.kind, t.lexeme⟩

namespace Word

def keyword (k : Keyword) : Word := ⟨.keyword k, k.text⟩
def name (s : String) : Word := ⟨.name, s⟩
def literal (s : String) : Word := ⟨.literal, s⟩
def punct (c : Char) : Word := ⟨.punct c, String.singleton c⟩
def op (s : String) : Word := ⟨.op (.ofFirst (s.toList.headD ' ')), s⟩

/-- Words in parentheses. -/
def group (ws : List Word) : List Word := punct '(' :: ws ++ [punct ')']

/-- The text of words, with a blank behind each. -/
def chars (ws : List Word) : List Char := ws.flatMap fun w => w.text.toList ++ [' ']

end Word

mutual

def Outline.words : Outline → List Word
  | .literal t => [.literal t]
  | .fetch x => [.name x]
  | .store x e => .name x :: .punct '=' :: Word.group e.words
  | .call f es =>
    if isIdentifier f then .name f :: .punct '(' :: Outline.argumentWords es
    else Outline.operationWords f es
  | .ret e => .keyword .ret :: Word.group e.words
  | .ifThen c y => .keyword .cond :: Word.group c.words ++ y.words
  | .ifElse c y o => .keyword .cond :: Word.group c.words ++ y.words ++ .keyword .alt :: o.words
  | .decls ds => .keyword .var :: ds.words
  | .loop c b => .keyword .loop :: Word.group c.words ++ b.words
  | .or l r => Word.group l.words ++ .keyword .or :: Word.group r.words
  | .and l r => Word.group l.words ++ .keyword .and :: Word.group r.words
  | .not e => .keyword .not :: Word.group e.words

def Outline.Arm.words : Outline.Arm → List Word
  | .bare e => e.words
  | .braces list => .punct '{' :: list.words

/-- Statements through the closing brace. -/
def Outline.Block.words : Outline.Block → List Word
  | .last e => e.words ++ [.punct ';', .punct '}']
  | .cons e rest => e.words ++ .punct ';' :: rest.words

def Outline.Vars.words : Outline.Vars → List Word
  | .last x e => .name x :: .punct '=' :: Word.group e.words
  | .cons x e rest => .name x :: .punct '=' :: Word.group e.words ++ .punct ',' :: rest.words

/-- An operator with its operands. -/
def Outline.operationWords (f : String) : List Outline → List Word
  | [a] => .op f :: Word.group a.words
  | [a, b] => Word.group a.words ++ .op f :: Word.group b.words
  | _ => []

/-- Arguments through the closing parenthesis. -/
def Outline.argumentWords : List Outline → List Word
  | [] => [.punct ')']
  | [e] => Word.group e.words ++ [.punct ')']
  | e :: es => Word.group e.words ++ .punct ',' :: Outline.argumentWords es

end

/-- Names with commas between them. -/
def paramWords : List String → List Word
  | [] => []
  | [x] => [.name x]
  | x :: xs => .name x :: .punct ',' :: paramWords xs

def Outline.Proc.words (f : Proc) : List Word :=
  .keyword .func :: .name f.name :: .punct '(' :: paramWords f.params ++
    .punct ')' :: .punct '=' :: f.body.words

/-- The words that a program is written in. -/
def Program.words (p : Program) : List Word := p.functions.flatMap fun f => f.named.words

/-- A source text for a program. -/
def Program.source (p : Program) : String := String.ofList (Word.chars p.words)

namespace Lexeme

theorem spells_iff {k : Token.Kind} {s : String} : spells k s = true ↔
    ∃ c cs, s.toList = c :: cs ∧ read c cs = .ok (.token k (c :: cs)) := by
  unfold spells
  cases s.toList with
  | nil => simp
  | cons c cs =>
    constructor
    · intro h
      refine ⟨c, cs, rfl, ?_⟩
      cases hread : read c cs with
      | ok l => simpa [hread] using h
      | error e => simp [hread] at h
    · rintro ⟨c', cs', heq, hread⟩
      cases heq
      simp [hread]

theorem spells_name {s : String} (h : isIdentifier s = true) : spells .name s = true := by
  rw [spells_iff]
  unfold isIdentifier at h
  cases hs : s.toList with
  | nil => simp [hs] at h
  | cons c cs =>
    rw [hs] at h
    simp only [Bool.and_eq_true, Bool.not_eq_true', Option.isNone_iff_eq_none] at h
    obtain ⟨⟨⟨hc, hcs⟩, hkeyword⟩, hliteral⟩ := h
    obtain ⟨hblank, hcomment, hdigit, hquote⟩ := of_isWordStart hc
    have hword : (c :: cs).takeWhile isWordChar = c :: cs := by
      rw [List.takeWhile_eq_self_iff, List.forall_mem_cons]
      exact ⟨isWordChar_of_isWordStart hc, List.all_eq_true.mp hcs⟩
    have hkind : wordKind (c :: cs) = .name := by
      rw [wordKind, ← hs, String.ofList_toList, hkeyword, hliteral]
      rfl
    refine ⟨c, cs, rfl, ?_⟩
    simp [read, hblank, isCommentStart_of_ne hcomment, hdigit, hquote, hc, hword, hkind]

theorem spells_op {s : String} (h : isOperatorName s = true) :
    spells (.op (.ofFirst (s.toList.headD ' '))) s = true := by
  rw [spells_iff]
  unfold isOperatorName at h
  cases hs : s.toList with
  | nil => simp [hs] at h
  | cons c cs =>
    rw [hs] at h
    simp only [Bool.and_eq_true, bne_iff_ne] at h
    obtain ⟨hall, hne⟩ := h
    rw [List.all_eq_true] at hall
    have hc : isOperatorChar c = true := hall c List.mem_cons_self
    obtain ⟨hblank, hcomment, hdigit, hquote, hword⟩ := of_isOperatorChar hc
    have hrun : (c :: cs).takeWhile isOperatorChar = c :: cs := by
      rw [List.takeWhile_eq_self_iff]
      exact hall
    have hkind : operatorKind c (c :: cs) = .op (.ofFirst c) := by
      have hne' : c :: cs ≠ ['='] := by
        intro heq
        apply hne
        rw [← String.ofList_toList (s := s), hs, heq]
      rw [operatorKind, if_neg hne']
    refine ⟨c, cs, rfl, ?_⟩
    simp [read, hblank, isCommentStart_of_ne hcomment, hdigit, hquote, hword, hc, hrun, hkind]

end Lexeme

/-- The name of a slot is told apart from other words by its digits. -/
theorem slotName_ne (i : Nat) {s : String} (h : s.toList.any Char.isDigit = false) :
    s ≠ slotName i := by
  rintro rfl
  obtain ⟨c, cs, hcs⟩ := List.exists_cons_of_ne_nil (Nat.toDigits_ne_nil (n := i) (b := 10))
  have hc : c ∈ Nat.toDigits 10 i := by simp [hcs]
  have hdigit := Nat.isDigit_of_mem_toDigits (by decide) (by decide) hc
  simp [toList_slotName, hcs, hdigit] at h

theorem isIdentifier_slotName (i : Nat) : isIdentifier (slotName i) = true := by
  have hdigits : ∀ c ∈ Nat.toDigits 10 i, isWordChar c = true := fun c hc =>
    Lexeme.isWordChar_of_isDigit (Nat.isDigit_of_mem_toDigits (by decide) (by decide) hc)
  have hkeyword : Keyword.ofText? (slotName i) = none := by
    rw [Keyword.ofText?, List.find?_eq_none]
    intro k _
    rw [beq_iff_eq]
    exact slotName_ne i (by cases k <;> decide)
  have hliteral : ["true", "false", "null"].contains (slotName i) = false := by
    have h₁ := slotName_ne i (s := "true") (by decide)
    have h₂ := slotName_ne i (s := "false") (by decide)
    have h₃ := slotName_ne i (s := "null") (by decide)
    simp [h₁.symm, h₂.symm, h₃.symm]
  have hstart : isWordStart 'v' = true := by decide
  simp only [isIdentifier, toList_slotName, hstart, List.all_eq_true.mpr hdigits, hkeyword, hliteral]
  rfl

/-- Words whose texts are lexemes of their kinds. -/
def Spelled (ws : List Word) : Prop := ∀ w ∈ ws, Lexeme.spells w.kind w.text = true

namespace Spelled

theorem nil : Spelled [] := by simp [Spelled]

theorem cons {w : Word} {ws : List Word} (hw : Lexeme.spells w.kind w.text = true)
    (h : Spelled ws) : Spelled (w :: ws) := List.forall_mem_cons.mpr ⟨hw, h⟩

theorem append {ws vs : List Word} (h : Spelled ws) (h' : Spelled vs) : Spelled (ws ++ vs) :=
  List.forall_mem_append.mpr ⟨h, h'⟩

theorem keyword (k : Keyword) {ws : List Word} (h : Spelled ws) :
    Spelled (.keyword k :: ws) := by
  refine .cons ?_ h
  cases k <;> decide

theorem name {x : String} {ws : List Word} (hx : isIdentifier x = true) (h : Spelled ws) :
    Spelled (.name x :: ws) := .cons (Lexeme.spells_name hx) h

theorem op {f : String} {ws : List Word} (hf : isOperatorName f = true) (h : Spelled ws) :
    Spelled (.op f :: ws) := .cons (Lexeme.spells_op hf) h

/-- A mark, or the sign of an assignment. -/
theorem punct {c : Char} {ws : List Word} (hc : c ∈ ['(', ')', '{', '}', ',', ';', '='])
    (h : Spelled ws) : Spelled (.punct c :: ws) := by
  refine .cons ?_ h
  simp only [List.mem_cons, List.not_mem_nil, or_false] at hc
  rcases hc with rfl | rfl | rfl | rfl | rfl | rfl | rfl <;> decide

theorem group {ws : List Word} (h : Spelled ws) : Spelled (Word.group ws) :=
  .append (.punct (by decide) h) (.punct (by decide) .nil)

end Spelled

mutual

theorem Expr.spelled_named : ∀ (e : Expr) (n : Nat), e.wellFormed = true → Spelled (e.named n).words
  | .literal t, n, hw => .cons hw .nil
  | .fetch i, n, _ => .name (isIdentifier_slotName i) .nil
  | .store i e, n, hw =>
    .name (isIdentifier_slotName i) (.punct (by decide) (.group (e.spelled_named n hw)))
  | .call f es, n, hw => by
    simp only [Expr.wellFormed, Bool.and_eq_true, Bool.or_eq_true, beq_iff_eq] at hw
    rw [Expr.named, Outline.words]
    split
    case isTrue hf => exact .name hf (.punct (by decide) (Expr.spelled_arguments es n hw.2))
    case isFalse hf => 
      obtain ⟨hop, -⟩ := hw.1.resolve_left hf
      exact Expr.spelled_operation hop es n hw.2
  | .ret e, n, hw => .keyword .ret (.group (e.spelled_named n hw))
  | .ifThen c y, n, hw => by
    simp only [Expr.wellFormed, Bool.and_eq_true] at hw
    exact .append (.keyword .cond (.group (c.spelled_named n hw.1)))
      (.punct (by decide) (y.spelled_named _ hw.2))
  | .ifElse c y o, n, hw => by
    simp only [Expr.wellFormed, Bool.and_eq_true] at hw
    exact .append (.append (.keyword .cond (.group (c.spelled_named n hw.1.1)))
      (.punct (by decide) (y.spelled_named _ hw.1.2)))
      (.keyword .alt (.punct (by decide) (o.spelled_named _ hw.2)))
  | .block b, n, hw => .keyword .var (b.spelled_namedVars n hw)
  | .loop c b, n, hw => by
    simp only [Expr.wellFormed, Bool.and_eq_true] at hw
    exact .append (.keyword .loop (.group (c.spelled_named n hw.1)))
      (.punct (by decide) (b.spelled_named _ hw.2))
  | .or l r, n, hw => by
    simp only [Expr.wellFormed, Bool.and_eq_true] at hw
    exact .append (.group (l.spelled_named n hw.1)) (.keyword .or (.group (r.spelled_named _ hw.2)))
  | .and l r, n, hw => by
    simp only [Expr.wellFormed, Bool.and_eq_true] at hw
    exact .append (.group (l.spelled_named n hw.1)) (.keyword .and (.group (r.spelled_named _ hw.2)))
  | .not e, n, hw => .keyword .not (.group (e.spelled_named n hw))
  | .decl e, n, hw => by cases hw

theorem Body.spelled_named : ∀ (b : Body) (n : Nat), b.wellFormed = true → Spelled (b.named n).words
  | .last e, n, hw => .append (e.spelled_named n hw) (.punct (by decide) (.punct (by decide) .nil))
  | .cons e rest, n, hw => by
    simp only [Body.wellFormed, Bool.and_eq_true] at hw
    exact .append (e.spelled_named n hw.1) (.punct (by decide) (rest.spelled_named _ hw.2))

theorem Body.spelled_namedVars : ∀ (b : Body) (n : Nat), b.declares = true →
    Spelled (b.namedVars n).words
  | .last (.decl e), n, hw =>
    .name (isIdentifier_slotName _) (.punct (by decide) (.group (e.spelled_named n hw)))
  | .cons (.decl e) rest, n, hw => by
    simp only [Body.declares, Bool.and_eq_true] at hw
    have hfirst := (e.spelled_named n hw.1).group
    exact .append (.name (isIdentifier_slotName _) (.punct (by decide) hfirst))
      (.punct (by decide) (rest.spelled_namedVars _ hw.2))

theorem Expr.spelled_operation {f : String} (hf : isOperatorName f = true) :
    ∀ (es : List Expr) (n : Nat), Expr.allWellFormed es = true →
      Spelled (Outline.operationWords f (Expr.namedAll es n))
  | [], n, _ => .nil
  | [a], n, hw => by
    simp only [Expr.allWellFormed, Bool.and_true] at hw
    exact .op hf (.group (a.spelled_named n hw))
  | [a, b], n, hw => by
    simp only [Expr.allWellFormed, Bool.and_true, Bool.and_eq_true] at hw
    exact .append (.group (a.spelled_named n hw.1)) (.op hf (.group (b.spelled_named _ hw.2)))
  | a :: b :: c :: es, n, _ => .nil

theorem Expr.spelled_arguments : ∀ (es : List Expr) (n : Nat), Expr.allWellFormed es = true →
    Spelled (Outline.argumentWords (Expr.namedAll es n))
  | [], n, _ => .punct (by decide) .nil
  | [e], n, hw => by
    simp only [Expr.allWellFormed, Bool.and_true] at hw
    exact .append (.group (e.spelled_named n hw)) (.punct (by decide) .nil)
  | e :: e' :: es, n, hw => by
    rw [Expr.allWellFormed, Bool.and_eq_true] at hw
    exact .append (.group (e.spelled_named n hw.1))
      (.punct (by decide) (Expr.spelled_arguments (e' :: es) _ hw.2))

end

theorem spelled_paramWords : ∀ xs : List String, (∀ x ∈ xs, isIdentifier x = true) →
    Spelled (paramWords xs)
  | [], _ => .nil
  | [x], h => .name (h x (by simp)) .nil
  | x :: y :: ys, h => .name (h x (by simp))
    (.punct (by decide) (spelled_paramWords (y :: ys) fun z hz => h z (List.mem_cons_of_mem x hz)))

theorem Function.spelled_named {f : Function} (h : f.wellFormed = true) : Spelled f.named.words := by
  simp only [Function.wellFormed, Bool.and_eq_true] at h
  have hparams : Spelled (paramWords f.named.params) := by
    refine spelled_paramWords _ fun x hx => ?_
    obtain ⟨i, -, rfl⟩ := List.mem_map.mp hx
    exact isIdentifier_slotName i
  have hbody := f.body.spelled_named f.arity h.1.2
  exact .append (.keyword .func (.name h.1.1 (.punct (by decide) hparams)))
    (.punct (by decide) (.punct (by decide) (.punct (by decide) hbody)))

theorem Program.spelled_words {p : Program} (h : p.wellFormed = true) : Spelled p.words := by
  intro w hw
  obtain ⟨f, hf, hw⟩ := List.mem_flatMap.mp hw
  exact Function.spelled_named (List.all_eq_true.mp h f hf) w hw

/-- The tokens of words with blanks between them are these words. -/
theorem Token.scan_chars {ws : List Word} (h : Spelled ws) (p : Position) :
    ∃ ts q, scan 0 p (Word.chars ws) = .ok (ts ++ [eof q]) ∧ ts.map word = ws ∧
      ∀ t ∈ ts, t.kind ≠ .eof := by
  induction ws generalizing p with
  | nil => exact ⟨[], p, rfl, rfl, by simp⟩
  | cons w ws ih =>
    obtain ⟨hw, hws⟩ := List.forall_mem_cons.mp h
    obtain ⟨c, cs, hcs, hread⟩ := Lexeme.spells_iff.mp hw
    have hblank := Lexeme.read_append (b := ' ') hread rfl (Word.chars ws)
    obtain ⟨ts, q, hts, hwords, hkinds⟩ := ih hws (((p.next c).after cs).next ' ')
    refine ⟨⟨w.kind, w.text, p⟩ :: ts, q, ?_, ?_, ?_⟩
    · have hchars : Word.chars (w :: ws) = c :: (cs ++ ' ' :: Word.chars ws) := by
        simp [Word.chars, hcs]
      have htext : String.ofList (c :: cs) = w.text := by rw [← hcs, String.ofList_toList]
      rw [hchars, scan, hblank]
      simp only [Lexeme.text, List.length_cons, Nat.add_sub_cancel, scan_owed, Lexeme.tokens, htext]
      rw [scan_blank rfl, hts]
      rfl
    · rw [List.map_cons, hwords]
      rfl
    · have hkind : w.kind ≠ .eof := (Lexeme.of_read hread).2 p ⟨w.kind, _, p⟩ List.mem_cons_self
      exact List.forall_mem_cons.mpr ⟨hkind, hkinds⟩

end Morpho
