import Morpho.Proofs.Bytes
import Morpho.Proofs.Places

/-! Nothing is lost when a text is read. Blanks, comments and the lexemes of its tokens are all there is
to it, and every token knows its line and column. Reading the bytes of the text comes to the same, and all
offsets that lexemes are cut out at are between characters. -/
namespace Morpho

open Lexical

namespace Cursor

theorem left_of_peek {P : Char → Bool} {c : Cursor} (h : c.peek 0 P = true) :
    ∃ b bs, c.left = b :: bs ∧ onByte P b = true := by
  obtain ⟨left, o, p⟩ := c
  cases left with
  | nil => cases h
  | cons b bs => exact ⟨b, bs, rfl, by simpa [peek] using h⟩

theorem length_eatWhile_le (P : Char → Bool) (c : Cursor) :
    (c.eatWhile P).left.length ≤ c.left.length := by
  fun_induction eatWhile P c with
  | case1 => exact Nat.le_refl _
  | case2 c b bs _ _ ih => exact Nat.le_trans ih c.length_bump_le
  | case3 => exact Nat.le_refl _

theorem length_eatWhile_lt {P : Char → Bool} {c : Cursor} (h : c.peek 0 P = true) :
    (c.eatWhile P).left.length < c.left.length := by
  obtain ⟨b, bs, hleft, hb⟩ := left_of_peek h
  have hstep : c.eatWhile P = c.bump.eatWhile P := by
    obtain ⟨left, o, p⟩ := c
    subst hleft
    rw [eatWhile_cons, if_pos hb, bump_cons]
  rw [hstep]
  exact Nat.lt_of_le_of_lt (length_eatWhile_le P c.bump) (length_bump_lt hleft)

/-- A comment starts here. -/
def atComment (c : Cursor) : Bool :=
  c.peek 0 (· == ';') && c.peek 1 (· == ';') && c.peek 2 (· == ';')

theorem peek_of_atComment {c : Cursor} (h : c.atComment = true) : c.peek 0 (· != '\n') = true := by
  simp only [atComment, Bool.and_eq_true] at h
  obtain ⟨b, bs, hleft, hb⟩ := left_of_peek h.1.1
  have hsemi : Char.ofUInt8 b = ';' := eq_of_beq hb
  simp [peek, hleft, onByte, hsemi]

/-- Takes blanks and comments. -/
def skipTrivia (c : Cursor) : Cursor :=
  if c.peek 0 isBlank then c.bump.skipTrivia
  else if c.atComment then (c.eatWhile (· != '\n')).skipTrivia
  else c
termination_by c.left.length
decreasing_by
  · obtain ⟨b, bs, hleft, -⟩ := left_of_peek ‹_›
    exact length_bump_lt hleft
  · exact length_eatWhile_lt (peek_of_atComment ‹_›)

theorem length_skipTrivia_le (c : Cursor) : c.skipTrivia.left.length ≤ c.left.length := by
  fun_induction skipTrivia c with
  | case1 c h ih => exact Nat.le_trans ih c.length_bump_le
  | case2 c _ h ih => exact Nat.le_trans ih (length_eatWhile_le _ c)
  | case3 => exact Nat.le_refl _

/-- Takes the lexeme whose first byte is the character `a`, if any starts with it. -/
def lexeme (a : Char) (c : Cursor) : Except Lexeme.Unclosed (Option Cursor) :=
  if a.isDigit then .ok (some c.number)
  else if isQuote a then (c.bump.quoted a).map some
  else if isWordStart a then .ok (some (c.eatWhile isWordChar))
  else if isOperatorChar a then .ok (some (c.eatWhile isOperatorChar))
  else if isMark a then .ok (some c.bump)
  else .ok none

/-- The kind of the lexeme `text` whose first byte is the character `a`. -/
def kind (a : Char) (text : List Char) : Token.Kind :=
  if a.isDigit || isQuote a then .literal
  else if isWordStart a then Lexeme.wordKind text
  else if isOperatorChar a then Lexeme.operatorKind a text
  else .punct a

theorem length_fraction_le (c : Cursor) : c.fraction.left.length ≤ c.left.length := by
  rw [fraction]
  split
  · exact Nat.le_trans (length_eatWhile_le _ _) c.length_bump_le
  · exact Nat.le_refl _

theorem length_exponent_le (c : Cursor) : c.exponent.left.length ≤ c.left.length := by
  have hone := Nat.le_trans (length_eatWhile_le Char.isDigit c.bump) c.length_bump_le
  have htwo := Nat.le_trans (length_eatWhile_le Char.isDigit c.bump.bump)
    (Nat.le_trans c.bump.length_bump_le c.length_bump_le)
  rw [exponent]
  split_ifs
  · exact htwo
  · exact Nat.le_refl _
  · exact hone
  · exact Nat.le_refl _
  · exact Nat.le_refl _

theorem length_quoted_le {q : Char} {c d : Cursor} (h : c.quoted q = .ok d) :
    d.left.length ≤ c.left.length := by
  fun_induction quoted q c with
  | case1 => cases h
  | case2 c =>
    obtain rfl := Except.ok.inj h
    exact c.length_bump_le
  | case3 c _ _ _ _ _ ih =>
    exact Nat.le_trans (ih h) (Nat.le_trans c.bump.length_bump_le c.length_bump_le)
  | case4 => cases h
  | case5 c _ _ _ _ _ _ ih => exact Nat.le_trans (ih h) c.length_bump_le

/-- A lexeme takes a byte at least. -/
theorem length_lexeme_lt {c d : Cursor} {b : UInt8} {bs : List UInt8} (hleft : c.left = b :: bs)
    (h : c.lexeme (Char.ofUInt8 b) = .ok (some d)) : d.left.length < c.left.length := by
  have hpeek : ∀ {P : Char → Bool}, P (Char.ofUInt8 b) = true → c.peek 0 P = true := by
    intro P hP
    simpa [peek, hleft, onByte] using hP
  rw [lexeme] at h
  split_ifs at h with hdigit hquote hword hoperator hmark
  · obtain rfl := Option.some.inj (Except.ok.inj h)
    exact Nat.lt_of_le_of_lt (Nat.le_trans (length_exponent_le _) (length_fraction_le _))
      (length_eatWhile_lt (hpeek hdigit))
  · obtain ⟨e, he, hd⟩ := map_eq_ok.mp h
    obtain rfl := Option.some.inj hd
    exact Nat.lt_of_le_of_lt (length_quoted_le he) (length_bump_lt hleft)
  · obtain rfl := Option.some.inj (Except.ok.inj h)
    exact length_eatWhile_lt (hpeek (Lexeme.isWordChar_of_isWordStart hword))
  · obtain rfl := Option.some.inj (Except.ok.inj h)
    exact length_eatWhile_lt (hpeek hoperator)
  · obtain rfl := Option.some.inj (Except.ok.inj h)
    exact length_bump_lt hleft
  · cases Except.ok.inj h

/-- The text between two offsets, if they are in order and neither is inside a character. -/
def cut? (source : String) (i j : Nat) : Option String :=
  if i ≤ j then do
    let start ← source.pos? ⟨i⟩
    let stop ← source.pos? ⟨j⟩
    return String.extract start stop
  else none

/-- The tokens from a cursor on that is not in front of blanks or comments. There are none if a text is to
be cut out inside a character. -/
def lexemes (source : String) (c : Cursor) : Option (Except Diagnostic (List Token)) :=
  match _hleft : c.left with
  | [] => some (.ok [.eof c.pos])
  | b :: _ =>
    let a := Char.ofUInt8 b
    match _hlexeme : c.lexeme a with
    | .error e =>
      some (.error ⟨.expected ("closing " ++ String.singleton a) e.text, c.pos⟩)
    | .ok none => do
      let rest ← cut? source c.offset source.utf8ByteSize
      let found := rest.toList.head?.getD '\x00'
      return .error ⟨.expected "a token" (String.singleton found), c.pos⟩
    | .ok (some d) => do
      let text ← cut? source c.offset d.offset
      let others ← lexemes source d.skipTrivia
      return others.map (⟨kind a text.toList, text, c.pos⟩ :: ·)
termination_by c.left.length
decreasing_by
  exact Nat.lt_of_le_of_lt d.length_skipTrivia_le (length_lexeme_lt _hleft _hlexeme)

/-- The tokens of a text, read from its bytes. -/
def tokens (source : String) : Option (Except Diagnostic (List Token)) :=
  lexemes source (skipTrivia ⟨source.toUTF8.data.toList, 0, .start⟩)

theorem atComment_before (cs : List Char) (o : Nat) (p : Position) :
    (before cs o p).atComment = Lexeme.isCommentStart cs := by
  have hsemi : Plain (· == ';') := .eq ';' (by decide)
  have hlt : ';'.toNat < 128 := by decide
  rw [atComment, peek_before_zero hsemi]
  cases cs with
  | nil => rfl
  | cons a cs =>
    by_cases ha : a = ';'
    · subst ha
      rw [peek_before_succ hlt, peek_before_succ hlt, peek_before_zero hsemi]
      cases cs with
      | nil => rfl
      | cons b cs =>
        by_cases hb : b = ';'
        · subst hb
          rw [peek_before_succ hlt, peek_before_zero hsemi]
          cases cs <;> simp [Lexeme.isCommentStart]
        · simp [beq_eq_false_iff_ne.mpr hb, Lexeme.isCommentStart]
    · simp [beq_eq_false_iff_ne.mpr ha, Lexeme.isCommentStart]

theorem skipTrivia_before {text gap rest : List Char} (h : Skips text gap rest) (o : Nat)
    (p : Position) : (before text o p).skipTrivia = before rest (o + size gap) (p.after gap) := by
  induction h generalizing o p with
  | @stop text hbare =>
    have hblank : (before text o p).peek 0 isBlank = false := by
      rw [peek_before_zero plain_isBlank]
      cases text with
      | nil => rfl
      | cons c cs => exact hbare.isBlank
    have hcomment : (before text o p).atComment = false := by
      rw [atComment_before]
      exact hbare.isCommentStart
    rw [skipTrivia, hblank, hcomment]
    rfl
  | @blank b text gap rest hb _ ih =>
    have hlt : b.toNat < 128 := toNat_lt_of_isBlank (mem_blanks.mp hb)
    have hblank : (before (b :: text) o p).peek 0 isBlank = true := by
      rw [peek_before_zero plain_isBlank]
      exact mem_blanks.mp hb
    have hsize : size (b :: gap) = 1 + size gap := by
      rw [← size_of_lt hlt, ← size_append, List.singleton_append]
    rw [skipTrivia, if_pos hblank, bump_before hlt, ih, hsize, ← Nat.add_assoc, Position.after_cons]
  | @comment body text gap rest hbody hend _ ih =>
    have hblank : (before (';' :: ';' :: ';' :: body ++ text) o p).peek 0 isBlank = false := by
      rw [List.cons_append, peek_before_zero plain_isBlank]
      rfl
    have hcomment : (before (';' :: ';' :: ';' :: body ++ text) o p).atComment = true := by
      rw [atComment_before]
      exact isCommentStart_iff.mpr ⟨body ++ text, rfl⟩
    rw [skipTrivia, hblank, hcomment, eatWhile_before (.ne '\n' (by decide)),
      takeWhile_comment hbody hend, past, List.drop_left, size_append, ← Nat.add_assoc,
      Position.after_append, ← ih]
    rfl

/-- The first byte of a character stands for it. -/
theorem exists_encode_cons (c : Char) (cs : List Char) : ∃ b bs, encode (c :: cs) = b :: bs ∧
    (∀ {P}, Plain P → P (Char.ofUInt8 b) = P c) ∧ (c.toNat < 128 → Char.ofUInt8 b = c) := by
  obtain ⟨b, bs, henc⟩ := List.exists_cons_of_ne_nil (String.utf8EncodeChar_ne_nil (c := c))
  refine ⟨b, bs ++ encode cs, by simp [henc], fun hP => onByte_of_mem hP (by simp [henc]), ?_⟩
  intro hc
  obtain ⟨-, henc'⟩ | ⟨hc', -⟩ := utf8EncodeChar_cases c
  · obtain ⟨rfl, -⟩ := List.cons.inj (henc.symm.trans henc')
    exact ofUInt8_ofNat hc
  · omega

section Lexemes

variable {a c : Char} {cs : List Char} {o : Nat} {p : Position}
  (ha : ∀ {P : Char → Bool}, Plain P → P a = P c) (hlow : c.toNat < 128 → a = c)
  (hbare : Bare (c :: cs))

include ha hlow hbare

theorem lexeme_of_token {k : Token.Kind} {l : List Char}
    (h : Lexeme.read c cs = .ok (.token k l)) :
    (before (c :: cs) o p).lexeme a = .ok (some (past l (c :: cs) o p)) ∧ kind a l = k := by
  simp only [lexeme, kind, ha plain_isDigit, ha plain_isQuote, ha plain_isWordStart,
    ha plain_isOperatorChar, ha plain_isMark]
  simp only [Lexeme.read, hbare.isBlank, hbare.isCommentStart, Bool.false_eq_true, if_false] at h
  split_ifs at h with hdigit hquote hword hoperator hmark
  · cases h
    simp [hdigit, number_before]
  · -- a quote is a single byte, so the bytes are searched for the same quote
    have hlt : c.toNat < 128 := toNat_lt_of_isQuote hquote
    cases hq : Lexeme.quoted c cs with
    | error e => simp [hq] at h
    | ok ds =>
      rw [hq] at h
      cases h
      simp [hdigit, hquote, hlow hlt, bump_before hlt, quoted_before hquote, hq, Except.map,
        past_cons, size_of_lt hlt]
  · cases h
    simp [hdigit, hquote, hword, eatWhile_before plain_isWordChar]
  · cases h
    have hlt : c.toNat < 128 := toNat_lt_of_isOperatorChar hoperator
    simp [hdigit, hquote, hword, hoperator, hlow hlt, eatWhile_before plain_isOperatorChar]
  · cases h
    have hlt : c.toNat < 128 := toNat_lt_of_isMark hmark
    simp [hdigit, hquote, hword, hoperator, hmark, hlow hlt, bump_before hlt, past_cons,
      size_of_lt hlt]

theorem lexeme_of_error {e : Cause} (h : Lexeme.read c cs = .error e) :
    (∃ u, (before (c :: cs) o p).lexeme a = .error u ∧
      e = .expected ("closing " ++ String.singleton a) u.text) ∨
    ((before (c :: cs) o p).lexeme a = .ok none ∧ e = .expected "a token" (String.singleton c)) := by
  simp only [lexeme, ha plain_isDigit, ha plain_isQuote, ha plain_isWordStart,
    ha plain_isOperatorChar, ha plain_isMark]
  simp only [Lexeme.read, hbare.isBlank, hbare.isCommentStart, Bool.false_eq_true, if_false] at h
  split_ifs at h with hdigit hquote hword hoperator hmark
  · have hlt : c.toNat < 128 := toNat_lt_of_isQuote hquote
    cases hq : Lexeme.quoted c cs with
    | ok ds => simp [hq] at h
    | error u =>
      rw [hq] at h
      cases h
      refine .inl ⟨u, ?_, by rw [hlow hlt]⟩
      simp [hdigit, hquote, hlow hlt, bump_before hlt, quoted_before hquote, hq, Except.map]
  · cases h
    refine .inr ⟨?_, rfl⟩
    simp [hdigit, hquote, hword, hoperator, hmark]

end Lexemes

theorem size_utf8Encode (cs : List Char) : cs.utf8Encode.size = size cs := by
  rw [List.utf8Encode, ← ByteArray.size_data, List.data_toByteArray, List.size_toArray]
  rfl

/-- The offset behind a start of the text is between characters. -/
theorem exists_pos? {source : String} {pre post : List Char} (h : source.toList = pre ++ post) :
    ∃ i, source.pos? ⟨size pre⟩ = some i ∧ i.offset.byteIdx = size pre := by
  have hvalid : String.Pos.Raw.IsValid source ⟨size pre⟩ := by
    rw [String.Pos.Raw.isValid_iff_exists_append]
    refine ⟨String.ofList pre, String.ofList post, ?_, ?_⟩
    · rw [← String.ofList_append, ← h, String.ofList_toList]
    · rw [String.Pos.Raw.ext_iff, String.byteIdx_rawEndPos, ← String.size_toByteArray,
        String.toByteArray_ofList, size_utf8Encode]
  have hslice : String.Pos.Raw.isValidForSlice source.toSlice ⟨size pre⟩ = true := by
    rw [String.Pos.Raw.isValidForSlice_eq_true_iff, String.Pos.Raw.isValidForSlice_toSlice_iff]
    exact hvalid
  rw [String.pos?, String.Slice.pos?, dif_pos hslice]
  exact ⟨_, rfl, rfl⟩

theorem cut?_append {source : String} {pre l post : List Char}
    (h : source.toList = pre ++ l ++ post) :
    cut? source (size pre) (size (pre ++ l)) = some (String.ofList l) := by
  have hle : size pre ≤ size (pre ++ l) := by
    rw [size_append]
    exact Nat.le_add_right _ _
  obtain ⟨i, hi, hi'⟩ := exists_pos? (h.trans (List.append_assoc ..))
  obtain ⟨j, hj, hj'⟩ := exists_pos? h
  have htext : String.extract i j = String.ofList l := by
    rw [← String.toByteArray_inj, String.toByteArray_extract, hi', hj', ← String.utf8Encode_toList,
      h, List.append_assoc, List.utf8Encode_append, List.utf8Encode_append, size_append,
      String.toByteArray_ofList, ← size_utf8Encode pre, ← size_utf8Encode l,
      ← Nat.add_zero (pre.utf8Encode.size), Nat.add_assoc, Nat.zero_add,
      ByteArray.extract_append_size_add, ByteArray.extract_append_eq_left rfl]
  simp [cut?, hle, hi, hj, htext]

variable {source : String} {p : Position}

theorem lexemes_nil {o : Nat} : lexemes source (before [] o p) = some (.ok [.eof p]) := by
  rw [lexemes]
  rfl

theorem lexemes_cons {c : Cursor} {b : UInt8} {bs : List UInt8} (hleft : c.left = b :: bs) :
    lexemes source c =
      match c.lexeme (Char.ofUInt8 b) with
      | .error e =>
        some (.error ⟨.expected ("closing " ++ String.singleton (Char.ofUInt8 b)) e.text, c.pos⟩)
      | .ok none => do
        let rest ← cut? source c.offset source.utf8ByteSize
        let found := rest.toList.head?.getD '\x00'
        return .error ⟨.expected "a token" (String.singleton found), c.pos⟩
      | .ok (some d) => do
        let text ← cut? source c.offset d.offset
        let others ← lexemes source d.skipTrivia
        return others.map (⟨kind (Char.ofUInt8 b) text.toList, text, c.pos⟩ :: ·) := by
  rw [lexemes]
  split
  · next h => cases hleft.symm.trans h
  · next h =>
    cases hleft.symm.trans h
    simp only
    split <;> next hlexeme => rw [hlexeme]

/-- A token is cut out where its lexeme stands, and the cursor goes on behind it. -/
theorem lexemes_of_token {pre l after : List Char} {k : Token.Kind}
    (hsource : source.toList = pre ++ l ++ after) (hbare : Bare (l ++ after))
    (hl : Longest k l (l ++ after)) :
    lexemes source (before (l ++ after) (size pre) p) =
      (lexemes source (before after (size (pre ++ l)) (p.after l)).skipTrivia).map
        (Except.map (⟨k, String.ofList l, p⟩ :: ·)) := by
  obtain ⟨-, c, cs, rfl, -⟩ := hl.fits.exists_class
  rw [List.cons_append] at hbare hl ⊢
  obtain ⟨b, bs, henc, hplain, hlow⟩ := exists_encode_cons c (cs ++ after)
  have hread : Lexeme.read c (cs ++ after) = .ok (.token k (c :: cs)) := read_eq_token hbare hl
  obtain ⟨hlexeme, hkind⟩ := lexeme_of_token (o := size pre) (p := p) hplain hlow hbare hread
  have hcut := cut?_append hsource
  have hover : past (c :: cs) (c :: (cs ++ after)) (size pre) p =
      before after (size (pre ++ (c :: cs))) (p.after (c :: cs)) := by
    rw [past, size_append, ← List.cons_append, List.drop_left]
  rw [lexemes_cons henc, hlexeme, hover]
  simp only [before, hcut, Option.bind_eq_bind, Option.bind_some, String.toList_ofList, hkind]
  exact Option.map_eq_bind.symm

theorem lexemes_of_error {pre cs : List Char} {c : Char} {e : Cause}
    (hsource : source.toList = pre ++ c :: cs) (hbare : Bare (c :: cs))
    (hread : Lexeme.read c cs = .error e) :
    lexemes source (before (c :: cs) (size pre) p) = some (.error ⟨e, p⟩) := by
  obtain ⟨b, bs, henc, hplain, hlow⟩ := exists_encode_cons c cs
  rcases lexeme_of_error (o := size pre) (p := p) hplain hlow hbare hread with
    ⟨u, hlexeme, rfl⟩ | ⟨hlexeme, rfl⟩
  · rw [lexemes_cons henc, hlexeme]
    rfl
  · have hend : source.utf8ByteSize = size (pre ++ c :: cs) := by
      rw [← String.size_toByteArray, ← String.utf8Encode_toList, size_utf8Encode, hsource]
    have hcut : cut? source (size pre) source.utf8ByteSize = some (String.ofList (c :: cs)) := by
      rw [hend]
      exact cut?_append (by rw [hsource, List.append_nil])
    rw [lexemes_cons henc, hlexeme]
    simp [before, hcut]

/-- The cursor takes the tokens that the text splits into and comes to what is left. -/
theorem lexemes_splits {q : Position} {text rest : List Char} {ts : List Token}
    (h : Splits p text ts q rest) {pre : List Char} (hsource : source.toList = pre ++ text) :
    ∃ pre', source.toList = pre' ++ rest ∧
      lexemes source (before text (size pre) p).skipTrivia =
        (lexemes source (before rest (size pre') q)).map (Except.map (ts ++ ·)) := by
  -- along the split; the offset is always the size of what stands in front of the cursor
  induction h generalizing pre with
  | @done p text gap rest hgap =>
    refine ⟨pre ++ gap, by rw [hsource, hgap.append, List.append_assoc], ?_⟩
    rw [skipTrivia_before hgap, size_append]
    rcases lexemes source (before rest (size pre + size gap) (p.after gap)) with _ | _ | _ <;> rfl
  | @lexeme p q text gap l after rest k ts hgap hl _ ih =>
    have hsource' : source.toList = pre ++ gap ++ l ++ after := by
      rw [hsource, hgap.append, List.append_assoc, List.append_assoc]
    obtain ⟨pre', hpre', hrest⟩ := ih hsource'
    refine ⟨pre', hpre', ?_⟩
    rw [skipTrivia_before hgap, ← size_append, lexemes_of_token hsource' hgap.bare hl, hrest]
    rcases lexemes source (before rest (size pre') q) with _ | _ | _ <;> rfl

/-- Reading the bytes of a text gives its tokens, or fails as reading its characters does. -/
theorem tokens_eq (source : String) : tokens source = some (Token.ofSource source) := by
  obtain ⟨init, q, rest, hsplit, hrest⟩ := exists_splits source.toList .start
  have hstart : source.toList = [] ++ source.toList := rfl
  obtain ⟨pre, hpre, hlexemes⟩ := lexemes_splits hsplit hstart
  have hbytes : source.toUTF8.data.toList = encode source.toList := by
    rw [String.toUTF8_eq_toByteArray, ← String.utf8Encode_toList, List.utf8Encode,
      List.data_toByteArray]
    rfl
  rw [tokens, hbytes, ← before, ← size_nil, hlexemes]
  cases rest with
  | nil =>
    rw [lexemes_nil, Token.ofSource_of_splits hsplit]
    rfl
  | cons c rest =>
    have hnone : NoLexeme (c :: rest) := hrest.resolve_left (List.cons_ne_nil c rest)
    rcases read_cases hsplit.bare with ⟨k, l, -, hl⟩ | ⟨hread, -⟩
    · exact absurd hl.starts (hnone k l hl.fits)
    · rw [lexemes_of_error hpre hsplit.bare hread, Token.ofSource_of_lost hsplit hnone]
      rfl

end Cursor

/-- The place behind a text: one line more than it has newlines, and one column more than it has
characters behind the last of them. -/
def Position.behind (cs : List Char) : Position :=
  ⟨1 + cs.count '\n', 1 + (cs.reverse.takeWhile (· != '\n')).length⟩

theorem Position.behind_append (cs ds : List Char) : behind (cs ++ ds) = (behind cs).after ds := by
  induction ds using List.reverseRecOn with
  | nil => simp
  | append_singleton ds d ih =>
    rw [after_append, ← ih, ← List.append_assoc, after_cons, after_nil, next]
    by_cases hd : d = '\n'
    · simp [hd, behind, Nat.add_assoc]
    · simp [hd, behind, Nat.add_assoc]

/-- The text behind `before` is blanks, comments and the lexemes of the tokens one after the other, each
at its place, and nothing else. The end of the file is at the end of the text. -/
inductive Tiles : (before text : List Char) → (ts : List Token) → Prop
  | eof {before gap : List Char} (hgap : Skips gap gap []) :
    Tiles before gap [.eof (.behind (before ++ gap))]
  | lexeme {before gap l rest : List Char} {k : Token.Kind} {ts : List Token}
    (hgap : Skips (gap ++ (l ++ rest)) gap (l ++ rest)) (hl : Longest k l (l ++ rest))
    (h : Tiles (before ++ gap ++ l) rest ts) :
    Tiles before (gap ++ (l ++ rest)) (⟨k, String.ofList l, .behind (before ++ gap)⟩ :: ts)

theorem Tiles.of_splits {p q : Position} {text rest : List Char} {ts : List Token}
    (h : Splits p text ts q rest) (hrest : rest = []) {before : List Char} (hp : p = .behind before) :
    Tiles before text (ts ++ [.eof q]) := by
  induction h generalizing before with
  | @done p text gap rest hgap =>
    subst hrest hp
    obtain rfl : text = gap := by rw [hgap.append, List.append_nil]
    rw [← Position.behind_append]
    exact .eof hgap
  | @lexeme p q text gap l after rest k ts hgap hl _ ih =>
    subst hp
    obtain rfl : text = gap ++ (l ++ after) := hgap.append
    rw [← Position.behind_append]
    refine .lexeme hgap hl (ih hrest ?_)
    rw [Position.behind_append, Position.behind_append]

/-- The tokens of a text are all of it but blanks and comments, and each is at its line and column. They
are read from the bytes of the text, whatever it is, and nothing is cut out inside a character. -/
theorem Token.ofSource_lossless (source : String) :
    Cursor.tokens source = some (ofSource source) ∧
      ∀ ts, ofSource source = .ok ts → Tiles [] source.toList ts := by
  refine ⟨Cursor.tokens_eq source, fun ts hts => ?_⟩
  obtain ⟨init, p, hsplit, rfl⟩ := exists_splits_of_ok hts
  exact .of_splits hsplit rfl rfl

/-- A backslash in front of two bytes, and a comment that has more bytes than characters. -/
theorem Token.ofSource_lossless_of_escape :
    let source := "x '\\é' ;;; ü\n  y"
    let ts : List Token := [⟨.name, "x", ⟨1, 1⟩⟩, ⟨.literal, "'\\é'", ⟨1, 3⟩⟩, ⟨.name, "y", ⟨2, 3⟩⟩,
      .eof ⟨2, 4⟩]
    Cursor.tokens source = some (.ok ts) ∧ Tiles [] source.toList ts := by
  intro source ts
  have hts : ofSource source = .ok ts := by decide +kernel
  obtain ⟨htokens, htiles⟩ := ofSource_lossless source
  rw [hts] at htokens
  exact ⟨htokens, htiles ts hts⟩

end Morpho
