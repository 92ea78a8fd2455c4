import Morpho.Proofs.Characters
import Morpho.Proofs.Scanning
import Morpho.Text.Utf8

/-! Reading a text from its UTF-8 encoding. A cursor takes one byte after the other and keeps its offset
and its place; the bytes that continue a character leave the column as it is. A backslash in a literal
takes one byte along, be it the first of several. In front of every character the cursor is at the offset
and the place of that character, and it stops in front of a character only. -/
namespace Morpho

open Text.Utf8

/-- The place after one byte more. -/
def Position.nextByte (p : Position) (b : UInt8) : Position :=
  if b = 10 then ⟨p.line + 1, 1⟩
  else if isContinuation b then p
  else ⟨p.line, p.column + 1⟩

/-- A class of characters, asked of a single byte. -/
def onByte (P : Char → Bool) (b : UInt8) : Bool := P (Char.ofUInt8 b)

/-- The bytes still to be read, the number of those before them, and the place. -/
structure Cursor where
  left : List UInt8
  offset : Nat
  pos : Position

namespace Cursor

def peek (c : Cursor) (k : Nat) (P : Char → Bool) : Bool := c.left[k]?.any (onByte P)

/-- Takes one byte. -/
def bump (c : Cursor) : Cursor :=
  match c.left with
  | [] => c
  | b :: bs => ⟨bs, c.offset + 1, c.pos.nextByte b⟩

theorem length_bump_le (c : Cursor) : c.bump.left.length ≤ c.left.length := by
  rw [bump]
  split
  · exact Nat.le_refl _
  · next h => simp [h]

theorem length_bump_lt {c : Cursor} {b : UInt8} {bs : List UInt8} (h : c.left = b :: bs) :
    c.bump.left.length < c.left.length := by
  simp [bump, h]

/-- Takes the bytes of a class up to the first that is not in it. -/
def eatWhile (P : Char → Bool) (c : Cursor) : Cursor :=
  match _h : c.left with
  | [] => c
  | b :: _ => if onByte P b then c.bump.eatWhile P else c
termination_by c.left.length
decreasing_by exact length_bump_lt _h

def fraction (c : Cursor) : Cursor :=
  if c.peek 0 (· == '.') && c.peek 1 Char.isDigit then c.bump.eatWhile Char.isDigit else c

def exponent (c : Cursor) : Cursor :=
  if c.peek 0 (fun e => e == 'e' || e == 'E') then
    if c.peek 1 (fun s => s == '+' || s == '-') then
      if c.peek 2 Char.isDigit then c.bump.bump.eatWhile Char.isDigit else c
    else if c.peek 1 Char.isDigit then c.bump.eatWhile Char.isDigit else c
  else c

def number (c : Cursor) : Cursor := (c.eatWhile Char.isDigit).fraction.exponent

/-- Takes the rest of a literal opened by `q`. -/
def quoted (q : Char) (c : Cursor) : Except Lexeme.Unclosed Cursor :=
  match _h : c.left with
  | [] => .error .file
  | b :: _ =>
    if onByte (· == q) b then .ok c.bump
    else if onByte (· == '\\') b && c.bump.peek 0 (· != '\n') then c.bump.bump.quoted q
    else if onByte (· == '\n') b then .error .line
    else c.bump.quoted q
termination_by c.left.length
decreasing_by
  · exact Nat.lt_of_le_of_lt c.bump.length_bump_le (length_bump_lt _h)
  · exact length_bump_lt _h

section Equations

variable {P : Char → Bool} {q : Char} {b : UInt8} {bs : List UInt8} {o : Nat} {p : Position}

@[simp] theorem bump_cons : bump ⟨b :: bs, o, p⟩ = ⟨bs, o + 1, p.nextByte b⟩ := rfl

@[simp] theorem eatWhile_nil : eatWhile P ⟨[], o, p⟩ = ⟨[], o, p⟩ := by
  rw [eatWhile]

theorem eatWhile_cons : eatWhile P ⟨b :: bs, o, p⟩ =
    if onByte P b then eatWhile P ⟨bs, o + 1, p.nextByte b⟩ else ⟨b :: bs, o, p⟩ := by
  rw [eatWhile]
  rfl

theorem quoted_nil : quoted q ⟨[], o, p⟩ = .error .file := by
  rw [quoted]

theorem quoted_cons : quoted q ⟨b :: bs, o, p⟩ =
    if onByte (· == q) b then .ok ⟨bs, o + 1, p.nextByte b⟩
    else if onByte (· == '\\') b && bs.head?.any (onByte (· != '\n')) then
      (bump ⟨bs, o + 1, p.nextByte b⟩).quoted q
    else if onByte (· == '\n') b then .error .line
    else quoted q ⟨bs, o + 1, p.nextByte b⟩ := by
  rw [quoted]
  simp [peek, List.head?_eq_getElem?]

end Equations
end Cursor

/-- The UTF-8 encoding of a text. -/
def encode (cs : List Char) : List UInt8 := cs.flatMap String.utf8EncodeChar

/-- The number of bytes that a text takes. -/
def size (cs : List Char) : Nat := (encode cs).length

@[simp] theorem encode_nil : encode [] = [] := rfl
@[simp] theorem encode_cons (c : Char) (cs : List Char) :
    encode (c :: cs) = String.utf8EncodeChar c ++ encode cs := List.flatMap_cons
theorem encode_append (as bs : List Char) : encode (as ++ bs) = encode as ++ encode bs :=
  List.flatMap_append
@[simp] theorem size_nil : size [] = 0 := rfl
theorem size_append (as bs : List Char) : size (as ++ bs) = size as + size bs := by
  simp [size, encode_append]

/-- A character below 128 is one byte. All others have a first byte and bytes that continue it. -/
theorem utf8EncodeChar_cases (c : Char) :
    (c.toNat < 128 ∧ String.utf8EncodeChar c = [UInt8.ofNat c.toNat]) ∨
    (128 ≤ c.toNat ∧ ∃ b bs, String.utf8EncodeChar c = b :: bs ∧ 192 ≤ b ∧
      ∀ x ∈ bs, isContinuation x = true) := by
  have hcont : ∀ n, isContinuation (UInt8.ofNat (n % 64 + 128)) = true := by
    intro n
    simp [isContinuation, UInt8.le_iff_toNat_le]
    omega
  have hfirst : ∀ n, 192 ≤ n → n < 256 → 192 ≤ UInt8.ofNat n := by
    intro n hlow hhigh
    simp [UInt8.le_iff_toNat_le]
    omega
  have hv : c.val.toNat = c.toNat := rfl
  simp only [String.utf8EncodeChar, hv]
  split_ifs with h₁ h₂ h₃
  · exact .inl ⟨by omega, rfl⟩
  all_goals
    refine .inr ⟨by omega, _, _, rfl, hfirst _ (by omega) (by omega), ?_⟩
    simp only [List.forall_mem_cons, hcont]
    simp

/-- The class holds of all characters from 128 on or of none. -/
def Plain (P : Char → Bool) : Prop :=
  ∀ c d : Char, 128 ≤ c.toNat → 128 ≤ d.toNat → P c = P d

namespace Plain

variable {P Q : Char → Bool}

/-- A class of characters below 128. -/
theorem of_lt (h : ∀ c, P c = true → c.toNat < 128) : Plain P := by
  have hfalse : ∀ c : Char, 128 ≤ c.toNat → P c = false := by
    intro c hc
    rw [← Bool.not_eq_true]
    intro hP
    have := h c hP
    omega
  intro c d hc hd
  rw [hfalse c hc, hfalse d hd]

theorem eq (a : Char) (ha : a.toNat < 128) : Plain (· == a) :=
  of_lt fun c hc => by rwa [eq_of_beq hc]

theorem ne (a : Char) (ha : a.toNat < 128) : Plain (· != a) := by
  intro c d hc hd
  exact congrArg not (eq a ha c d hc hd)

theorem or (hP : Plain P) (hQ : Plain Q) : Plain fun c => P c || Q c := by
  intro c d hc hd
  simp only [hP c d hc hd, hQ c d hc hd]

end Plain

theorem toNat_lt_of_isWordChar {c : Char} (h : isWordChar c = true) : c.toNat < 128 := by
  have hle : ∀ d : Char, c.val ≤ d.val → d.toNat < 128 → c.toNat < 128 :=
    fun d hcd hd => Nat.lt_of_le_of_lt (UInt32.le_iff_toNat_le.mp hcd) hd
  have hsplit : (((c.isUpper || c.isLower) || c.isDigit) || c == '_') = true := h
  simp only [Bool.or_eq_true] at hsplit
  rcases hsplit with ((hupper | hlower) | hdigit) | hunderscore
  · exact hle 'Z' (of_decide_eq_true hupper).2 (by decide)
  · exact hle 'z' (of_decide_eq_true ((Bool.and_eq_true _ _).mp hlower).2) (by decide)
  · exact hle '9' (of_decide_eq_true ((Bool.and_eq_true _ _).mp hdigit).2) (by decide)
  · rw [beq_iff_eq.mp hunderscore]
    decide

theorem toNat_lt_of_contains {as : List Char} (has : as.all (·.toNat < 128) = true) {c : Char}
    (h : as.contains c = true) : c.toNat < 128 :=
  of_decide_eq_true (List.all_eq_true.mp has c (List.contains_iff_mem.mp h))

theorem toNat_lt_of_isOperatorChar {c : Char} (h : isOperatorChar c = true) : c.toNat < 128 :=
  toNat_lt_of_contains rfl h

theorem toNat_lt_of_isMark {c : Char} (h : isMark c = true) : c.toNat < 128 :=
  toNat_lt_of_contains rfl h

theorem toNat_lt_of_isQuote {c : Char} (h : isQuote c = true) : c.toNat < 128 := by
  rcases eq_of_isQuote h with rfl | rfl <;> decide

theorem toNat_lt_of_isBlank {c : Char} (h : isBlank c = true) : c.toNat < 128 := by
  rcases eq_of_isBlank h with rfl | rfl | rfl | rfl | rfl <;> decide

theorem plain_isWordChar : Plain isWordChar := .of_lt fun _ => toNat_lt_of_isWordChar

theorem plain_isDigit : Plain Char.isDigit :=
  .of_lt fun _ h => toNat_lt_of_isWordChar (Lexeme.isWordChar_of_isDigit h)

theorem plain_isWordStart : Plain isWordStart :=
  .of_lt fun _ h => toNat_lt_of_isWordChar (Lexeme.isWordChar_of_isWordStart h)

theorem plain_isOperatorChar : Plain isOperatorChar := .of_lt fun _ => toNat_lt_of_isOperatorChar

theorem plain_isMark : Plain isMark := .of_lt fun _ => toNat_lt_of_isMark

theorem plain_isQuote : Plain isQuote := .of_lt fun _ => toNat_lt_of_isQuote

theorem plain_isBlank : Plain isBlank := .of_lt fun _ => toNat_lt_of_isBlank

theorem toNat_ofUInt8 (b : UInt8) : (Char.ofUInt8 b).toNat = b.toNat := UInt8.toNat_toUInt32 b

theorem toNat_ofNat {c : Char} (hc : c.toNat < 128) : (UInt8.ofNat c.toNat).toNat = c.toNat := by
  simp
  omega

theorem ofUInt8_ofNat {c : Char} (hc : c.toNat < 128) : Char.ofUInt8 (UInt8.ofNat c.toNat) = c :=
  Char.toNat_inj.mp ((toNat_ofUInt8 _).trans (toNat_ofNat hc))

theorem le_of_isContinuation {b : UInt8} (h : isContinuation b = true) :
    128 ≤ b.toNat ∧ b.toNat < 192 := by
  simp [isContinuation, UInt8.le_iff_toNat_le] at h
  omega

/-- Every byte of a character is judged as the character is. -/
theorem onByte_of_mem {P : Char → Bool} (hP : Plain P) {c : Char} {b : UInt8}
    (hb : b ∈ String.utf8EncodeChar c) : onByte P b = P c := by
  obtain ⟨hc, henc⟩ | ⟨hc, a, bs, henc, ha, hbs⟩ := utf8EncodeChar_cases c
  · rw [henc, List.mem_singleton] at hb
    rw [hb, onByte, ofUInt8_ofNat hc]
  · refine hP _ c ?_ hc
    rw [toNat_ofUInt8]
    rw [henc] at hb
    obtain rfl | hb := List.mem_cons.mp hb
    · have h : 192 ≤ b.toNat := UInt8.le_iff_toNat_le.mp ha
      omega
    · exact (le_of_isContinuation (hbs b hb)).1

theorem foldl_nextByte_of_isContinuation {bs : List UInt8} (h : ∀ b ∈ bs, isContinuation b = true)
    (p : Position) : bs.foldl Position.nextByte p = p := by
  induction bs with
  | nil => rfl
  | cons b bs ih =>
    obtain ⟨hb, hbs⟩ := List.forall_mem_cons.mp h
    have hne : b ≠ 10 := by
      rintro rfl
      cases hb
    rw [List.foldl_cons, Position.nextByte, if_neg hne, if_pos hb, ih hbs]

/-- The bytes of a character lead to the place after it. -/
theorem foldl_nextByte (p : Position) (c : Char) :
    (String.utf8EncodeChar c).foldl Position.nextByte p = p.next c := by
  have hfirst : ∀ b : UInt8, isContinuation b = false → (b = 10 ↔ c = '\n') →
      p.nextByte b = p.next c := by
    intro b hb hn
    simp only [Position.nextByte, Position.next, hb, hn, Bool.false_eq_true, if_false]
  obtain ⟨hc, henc⟩ | ⟨hc, b, bs, henc, hb, hbs⟩ := utf8EncodeChar_cases c
  · have hn := toNat_ofNat hc
    rw [henc]
    refine hfirst _ ?_ ?_
    · rw [← Bool.not_eq_true]
      intro h
      have := (le_of_isContinuation h).1
      omega
    · rw [← UInt8.toNat_inj, hn, ← Char.toNat_inj]
      rfl
  · have hb' : 192 ≤ b.toNat := UInt8.le_iff_toNat_le.mp hb
    rw [henc, List.foldl_cons, foldl_nextByte_of_isContinuation hbs]
    refine hfirst b ?_ ?_
    · rw [← Bool.not_eq_true]
      intro h
      have := (le_of_isContinuation h).2
      omega
    · rw [← UInt8.toNat_inj, ← Char.toNat_inj]
      have hten : (10 : UInt8).toNat = 10 := rfl
      have hnl : '\n'.toNat = 10 := rfl
      omega

namespace Cursor

/-- The cursor in front of the text `cs`. -/
def before (cs : List Char) (o : Nat) (p : Position) : Cursor := ⟨encode cs, o, p⟩

variable {P : Char → Bool} {o : Nat} {p : Position}

theorem bump_before {c : Char} (hc : c.toNat < 128) (cs : List Char) :
    (before (c :: cs) o p).bump = before cs (o + 1) (p.next c) := by
  have hp := foldl_nextByte p c
  obtain ⟨-, henc⟩ | ⟨hc', -⟩ := utf8EncodeChar_cases c
  · rw [henc] at hp
    simp only [before, encode_cons, henc, List.singleton_append, bump_cons]
    rw [← hp]
    rfl
  · omega

theorem peek_before_zero (hP : Plain P) (cs : List Char) :
    (before cs o p).peek 0 P = cs.head?.any P := by
  cases cs with
  | nil => rfl
  | cons c cs =>
    obtain ⟨b, bs, henc⟩ := List.exists_cons_of_ne_nil (String.utf8EncodeChar_ne_nil (c := c))
    have hb : onByte P b = P c := onByte_of_mem hP (by simp [henc])
    simp [peek, before, henc, hb]

theorem peek_before_succ {c : Char} (hc : c.toNat < 128) (cs : List Char) (k : Nat) :
    (before (c :: cs) o p).peek (k + 1) P = (before cs o p).peek k P := by
  obtain ⟨-, henc⟩ | ⟨hc', -⟩ := utf8EncodeChar_cases c
  · simp [peek, before, henc]
  · omega

/-- Bytes of the class are taken. -/
theorem eatWhile_append {bs : List UInt8} (h : ∀ b ∈ bs, onByte P b = true) (rest : List UInt8)
    (o : Nat) (p : Position) : eatWhile P ⟨bs ++ rest, o, p⟩ =
      eatWhile P ⟨rest, o + bs.length, bs.foldl Position.nextByte p⟩ := by
  induction bs generalizing o p with
  | nil => rfl
  | cons b bs ih =>
    obtain ⟨hb, hbs⟩ := List.forall_mem_cons.mp h
    rw [List.cons_append, eatWhile_cons, if_pos hb, ih hbs, List.length_cons, List.foldl_cons]
    congr 2
    omega

/-- The cursor behind the start `l` of the text `cs`. -/
def past (l cs : List Char) (o : Nat) (p : Position) : Cursor :=
  before (cs.drop l.length) (o + size l) (p.after l)

@[simp] theorem past_nil (cs : List Char) : past [] cs o p = before cs o p := rfl

theorem past_cons (c : Char) (l cs : List Char) :
    past (c :: l) (c :: cs) o p = past l cs (o + size [c]) (p.next c) := by
  simp [past, size, Nat.add_assoc]

theorem size_of_lt {c : Char} (hc : c.toNat < 128) : size [c] = 1 := by
  obtain ⟨-, henc⟩ | ⟨hc', -⟩ := utf8EncodeChar_cases c
  · simp [size, henc]
  · omega

theorem past_append (l l' cs : List Char) :
    past (l ++ l') cs o p = past l' (cs.drop l.length) (o + size l) (p.after l) := by
  simp [past, size_append, Nat.add_assoc, Position.after_append]

theorem eatWhile_before (hP : Plain P) (cs : List Char) (o : Nat) (p : Position) :
    (before cs o p).eatWhile P = past (cs.takeWhile P) cs o p := by
  induction cs generalizing o p with
  | nil => simp [before]
  | cons c cs ih =>
    cases hc : P c with
    | true =>
      have hbytes : ∀ b ∈ String.utf8EncodeChar c, onByte P b = true := by
        intro b hb
        rw [onByte_of_mem hP hb, hc]
      rw [List.takeWhile_cons_of_pos hc, past_cons, before, encode_cons, eatWhile_append hbytes,
        foldl_nextByte, ← ih]
      simp [before, size]
    | false =>
      obtain ⟨b, bs, henc⟩ := List.exists_cons_of_ne_nil (String.utf8EncodeChar_ne_nil (c := c))
      have hb : onByte P b = false := (onByte_of_mem hP (by simp [henc])).trans hc
      simp [hc, before, henc, eatWhile_cons, hb]

theorem isEmpty_takeWhile (P : Char → Bool) (cs : List Char) :
    (cs.takeWhile P).isEmpty = !cs.head?.any P := by
  cases cs with
  | nil => rfl
  | cons c cs => cases hc : P c <;> simp [hc]

theorem fraction_before (cs : List Char) (o : Nat) (p : Position) :
    (before cs o p).fraction = past (Lexeme.fraction cs) cs o p := by
  have hpoint : Plain (· == '.') := .eq '.' (by decide)
  rw [fraction, peek_before_zero hpoint]
  cases cs with
  | nil => rfl
  | cons c cs =>
    by_cases hc : c = '.'
    · subst hc
      have hlt : '.'.toNat < 128 := by decide
      rw [peek_before_succ hlt, peek_before_zero plain_isDigit, bump_before hlt,
        eatWhile_before plain_isDigit, Lexeme.fraction, isEmpty_takeWhile]
      cases cs.head?.any Char.isDigit with
      | true => simp [past_cons, size_of_lt hlt]
      | false => simp
    · have hnone : Lexeme.fraction (c :: cs) = [] := by
        rw [Lexeme.fraction]
        simpa using hc
      simp [hc, hnone]

theorem exponent_before (cs : List Char) (o : Nat) (p : Position) :
    (before cs o p).exponent = past (Lexeme.exponent cs) cs o p := by
  have hmark : Plain fun e => e == 'e' || e == 'E' := .or (.eq _ (by decide)) (.eq _ (by decide))
  have hsign : Plain fun s => s == '+' || s == '-' := .or (.eq _ (by decide)) (.eq _ (by decide))
  rw [exponent, peek_before_zero hmark]
  cases cs with
  | nil => rfl
  | cons e cs =>
    cases he : e == 'e' || e == 'E' with
    | false => simp [he, Lexeme.exponent]
    | true =>
      have hlt : e.toNat < 128 := by
        rcases (Bool.or_eq_true _ _).mp he with h | h <;> rw [eq_of_beq h] <;> decide
      simp only [List.head?_cons, Option.any_some, he, if_true, peek_before_succ hlt,
        peek_before_zero hsign, peek_before_zero plain_isDigit, bump_before hlt, Lexeme.exponent,
        isEmpty_takeWhile, Bool.true_and, Bool.not_not]
      cases cs with
      | nil => rfl
      | cons s cs =>
        cases hs : s == '+' || s == '-' with
        | false =>
          have hnone : Lexeme.sign (s :: cs) = [] := by simp [Lexeme.sign, hs]
          simp only [List.head?_cons, Option.any_some, hs, hnone, Bool.false_eq_true, if_false,
            List.length_nil, List.drop_zero, List.nil_append, eatWhile_before plain_isDigit]
          cases s.isDigit with
          | true => simp [past_cons e, size_of_lt hlt]
          | false => simp
        | true =>
          have hlt' : s.toNat < 128 := by
            rcases (Bool.or_eq_true _ _).mp hs with h | h <;> rw [eq_of_beq h] <;> decide
          have hone : Lexeme.sign (s :: cs) = [s] := by simp [Lexeme.sign, hs]
          simp only [List.head?_cons, Option.any_some, hs, hone, if_true, peek_before_succ hlt',
            peek_before_zero plain_isDigit, bump_before hlt', List.length_singleton,
            List.drop_succ_cons, List.drop_zero, eatWhile_before plain_isDigit]
          cases cs.head?.any Char.isDigit with
          | true => simp [past_cons, size_of_lt hlt, size_of_lt hlt']
          | false => simp

theorem number_before (cs : List Char) (o : Nat) (p : Position) :
    (before cs o p).number = past (Lexeme.number cs) cs o p := by
  rw [number, eatWhile_before plain_isDigit, past, fraction_before, past, exponent_before,
    Lexeme.number, past_append]
  simp only [size_append, Position.after_append, List.length_append, List.drop_drop, Nat.add_assoc]

/-- Bytes that mean nothing in a literal opened by `q` are taken. -/
theorem quoted_bytes {q : Char} {bs : List UInt8}
    (h : ∀ b ∈ bs, onByte (· == q) b = false ∧ onByte (· == '\\') b = false ∧
      onByte (· == '\n') b = false) (rest : List UInt8) (o : Nat) (p : Position) :
    quoted q ⟨bs ++ rest, o, p⟩ =
      quoted q ⟨rest, o + bs.length, bs.foldl Position.nextByte p⟩ := by
  induction bs generalizing o p with
  | nil => rfl
  | cons b bs ih =>
    obtain ⟨⟨hq, hslash, hnewline⟩, hbs⟩ := List.forall_mem_cons.mp h
    have hskip : quoted q ⟨b :: (bs ++ rest), o, p⟩ =
        quoted q ⟨bs ++ rest, o + 1, p.nextByte b⟩ := by
      simp [quoted_cons, hq, hslash, hnewline]
    rw [List.cons_append, hskip, ih hbs, List.length_cons, List.foldl_cons]
    congr 2
    omega

section Quoted

variable {q : Char} (hq : isQuote q = true)

include hq

theorem plain_eq_quote : Plain (· == q) := .eq q (toNat_lt_of_isQuote hq)

/-- A character that means nothing in the literal is taken, however many bytes it has. -/
theorem quoted_char {c : Char} (hcq : c ≠ q) (hslash : c ≠ '\\') (hnewline : c ≠ '\n')
    (cs : List Char) (o : Nat) (p : Position) :
    (before (c :: cs) o p).quoted q = (before cs (o + size [c]) (p.next c)).quoted q := by
  have hbytes : ∀ b ∈ String.utf8EncodeChar c, onByte (· == q) b = false ∧
      onByte (· == '\\') b = false ∧ onByte (· == '\n') b = false := by
    intro b hb
    rw [onByte_of_mem (plain_eq_quote hq) hb, onByte_of_mem (.eq '\\' (by decide)) hb,
      onByte_of_mem (.eq '\n' (by decide)) hb]
    simp [hcq, hslash, hnewline]
  rw [before, encode_cons, quoted_bytes hbytes, foldl_nextByte]
  simp [before, size]

theorem quoted_of_lt {c : Char} (hc : c.toNat < 128) (cs : List Char) (o : Nat) (p : Position) :
    (before (c :: cs) o p).quoted q =
      if c == q then .ok (before cs (o + 1) (p.next c))
      else if c == '\\' && cs.head?.any (· != '\n') then
        (before cs (o + 1) (p.next c)).bump.quoted q
      else if c == '\n' then .error .line
      else (before cs (o + 1) (p.next c)).quoted q := by
  have hbump := bump_before (o := o) (p := p) hc cs
  have hpeek := peek_before_zero (o := o) (p := p) (.ne '\n' (by decide)) cs
  obtain ⟨-, henc⟩ | ⟨hc', -⟩ := utf8EncodeChar_cases c
  · have hbyte : ∀ {P}, Plain P → onByte P (UInt8.ofNat c.toNat) = P c :=
      fun hP => onByte_of_mem hP (by simp [henc])
    rw [before, encode_cons, henc, List.singleton_append] at hbump ⊢
    rw [bump_cons] at hbump
    rw [peek, before, ← List.head?_eq_getElem?] at hpeek
    rw [quoted_cons, hbump, hpeek, hbyte (plain_eq_quote hq), hbyte (.eq '\\' (by decide)),
      hbyte (.eq '\n' (by decide))]
  · omega

/-- A backslash takes the first byte of the character after it along, and nothing is made of the
others. -/
theorem quoted_escape {c : Char} (hnewline : c ≠ '\n') (cs : List Char) (o : Nat) (p : Position) :
    (before ('\\' :: c :: cs) o p).quoted q =
      (before cs (o + 1 + size [c]) ((p.next '\\').next c)).quoted q := by
  have hne : '\\' ≠ q := by rcases eq_of_isQuote hq with rfl | rfl <;> decide
  have hstep : (before ('\\' :: c :: cs) o p).quoted q =
      (before (c :: cs) (o + 1) (p.next '\\')).bump.quoted q := by
    rw [quoted_of_lt hq (by decide)]
    simp [hne, hnewline]
  rw [hstep]
  have hplace := foldl_nextByte (p.next '\\') c
  obtain ⟨hc, -⟩ | ⟨hc, b, bs, henc, -, -⟩ := utf8EncodeChar_cases c
  · rw [bump_before hc, size_of_lt hc]
  · have hbytes : ∀ x ∈ bs, onByte (· == q) x = false ∧ onByte (· == '\\') x = false ∧
        onByte (· == '\n') x = false := by
      intro x hx
      have hmem : x ∈ String.utf8EncodeChar c := by simp [henc, hx]
      have hother : ∀ a : Char, a.toNat < 128 → (c == a) = false := by
        intro a ha
        rw [beq_eq_false_iff_ne]
        rintro rfl
        omega
      rw [onByte_of_mem (plain_eq_quote hq) hmem, onByte_of_mem (.eq '\\' (by decide)) hmem,
        onByte_of_mem (.eq '\n' (by decide)) hmem]
      exact ⟨hother q (toNat_lt_of_isQuote hq), hother _ (by decide), hother _ (by decide)⟩
    rw [henc, List.foldl_cons] at hplace
    have hsize : size [c] = bs.length + 1 := by simp [size, henc]
    rw [before, encode_cons, henc, List.cons_append, bump_cons, quoted_bytes hbytes, hplace, hsize,
      before]
    congr 2
    omega

theorem quoted_before (cs : List Char) (o : Nat) (p : Position) :
    (before cs o p).quoted q = (Lexeme.quoted q cs).map fun l => past l cs o p := by
  have hnewline : '\n' ≠ q := by rcases eq_of_isQuote hq with rfl | rfl <;> decide
  have hslash : '\\' ≠ q := by rcases eq_of_isQuote hq with rfl | rfl <;> decide
  fun_induction Lexeme.quoted q cs generalizing o p with
  | case1 => exact quoted_nil
  | case2 cs =>
    rw [quoted_of_lt hq (by decide)]
    simp [hnewline, Except.map]
  | case3 cs =>
    rw [quoted_of_lt hq (by decide)]
    simp only [beq_iff_eq, hslash, if_false]
    rw [quoted_of_lt hq (by decide)]
    simp [hnewline, Except.map]
  | case4 c cs hc ih =>
    have hc' : c ≠ '\n' := by
      rintro rfl
      exact hc rfl
    rw [quoted_escape hq hc', ih]
    cases Lexeme.quoted q cs with
    | ok ds => simp [Except.map, past_cons, size_of_lt (c := '\\') (by decide)]
    | error e => rfl
  | case5 cs _ _ _ =>
    have hlt : q.toNat < 128 := toNat_lt_of_isQuote hq
    rw [quoted_of_lt hq hlt]
    simp [Except.map, past_cons, size_of_lt hlt]
  | case6 c cs hn _ hlast hc ih =>
    have hskip : (before (c :: cs) o p).quoted q =
        (before cs (o + size [c]) (p.next c)).quoted q := by
      by_cases hs : c = '\\'
      · -- nothing is left that the backslash could take along
        cases cs with
        | cons d ds => exact (hlast d ds hs rfl).elim
        | nil =>
          subst hs
          rw [quoted_of_lt hq (by decide), size_of_lt (by decide)]
          simp [hslash]
      · exact quoted_char hq hc hs hn cs o p
    rw [hskip, ih]
    cases Lexeme.quoted q cs with
    | ok ds => simp [Except.map, past_cons]
    | error e => rfl

end Quoted
end Cursor
end Morpho
