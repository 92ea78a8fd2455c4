import Morpho.Proofs.Placement
import Morpho.Proofs.Places
import Morpho.Proofs.Printing
import Morpho.Proofs.Totality

/-! Layout is not part of a program. The same lexemes with other blanks and comments between them are
compiled to the same text, or rejected for the same reason. -/
namespace Morpho

namespace Lexical

open scoped Computability

/-- A comment with the newline that ends it. -/
def comment : Language Char := {cs | ∃ body, '\n' ∉ body ∧ cs = ';' :: ';' :: ';' :: body ++ ['\n']}

/-- Blanks and comments. -/
def trivia : Language Char := (char (· ∈ blanks) + comment)∗

/-- Blanks and comments, a blank first. -/
def gap : Language Char := char (· ∈ blanks) * trivia

/-- The text has a gap in front of each of the lexemes `ls`, and a gap or nothing behind the last. -/
inductive Spaced : (ls : List (List Char)) → (text : List Char) → Prop
  | nil : Spaced [] []
  | last {cs : List Char} (h : cs ∈ gap) : Spaced [] cs
  | cons {cs l text : List Char} {ls : List (List Char)} (h : cs ∈ gap) (hls : Spaced ls text) :
    Spaced (l :: ls) (cs ++ (l ++ text))

/-- The text consists of the lexemes `ls` with gaps between them. Blanks and comments may stand in front
of the first, and a gap behind the last. -/
inductive LaidOut : (ls : List (List Char)) → (text : List Char) → Prop
  | nil {cs : List Char} (h : cs ∈ trivia) : LaidOut [] cs
  | cons {cs l text : List Char} {ls : List (List Char)} (h : cs ∈ trivia) (hls : Spaced ls text) :
    LaidOut (l :: ls) (cs ++ (l ++ text))

theorem mem_trivia_of_gap {cs : List Char} (h : cs ∈ gap) : cs ∈ trivia := by
  obtain ⟨as, has, bs, hbs, rfl⟩ := Language.mem_mul.mp h
  exact append_mem_kstar (.inl has) hbs

/-- What follows a lexeme starts with a blank. -/
theorem Spaced.head {ls : List (List Char)} {text : List Char} (h : Spaced ls text) :
    ∀ b ∈ text.head?, b ∈ blanks := by
  have hgap : ∀ cs more : List Char, cs ∈ gap → ∀ b ∈ (cs ++ more).head?, b ∈ blanks := by
    intro cs more hcs b hb
    obtain ⟨c, ds, rfl, hc, -⟩ := mem_char_mul.mp hcs
    cases hb
    exact of_decide_eq_true hc
  cases h with
  | nil => exact nofun
  | last h => simpa using hgap text [] h
  | cons h _ => exact hgap _ _ h

theorem skips_of_trivia {cs rest : List Char} (h : cs ∈ trivia) (hrest : Bare rest) :
    Skips (cs ++ rest) cs rest := by
  refine kstar_induction (P := fun ds => Skips (ds ++ rest) ds rest) h (.stop hrest) ?_
  rintro as bs (⟨b, hb, rfl⟩ | ⟨body, hbody, rfl⟩) hbs
  · exact .blank (of_decide_eq_true hb) hbs
  · have hskips : Skips (';' :: ';' :: ';' :: body ++ '\n' :: (bs ++ rest))
        (';' :: ';' :: ';' :: body ++ '\n' :: bs) rest := by
      refine .comment hbody ?_ (.blank (by decide) hbs)
      rintro c ⟨⟩
      rfl
    simpa using hskips

/-- A lexeme starts with neither a blank nor a comment, whatever follows it. -/
theorem Matches.bare_append {k : Token.Kind} {l : List Char} (h : Matches k l) (after : List Char)
    (hafter : ∀ b ∈ after.head?, b ∈ blanks) : Bare (l ++ after) := by
  obtain ⟨a, c, cs, rfl, hc, hl, -⟩ := h.exists_class
  constructor
  · rintro d ⟨⟩ hb
    rcases eq_of_isBlank (mem_blanks.mp hb) with rfl | rfl | rfl | rfl | rfl <;> cases a <;>
      exact absurd hc (by decide)
  · -- the only lexeme with a semicolon in front is the semicolon
    intro hcomment
    obtain ⟨rfl, hrest⟩ := List.cons_prefix_cons.mp hcomment
    have ha : a = .mark := by
      cases a with
      | mark => rfl
      | _ => exact absurd hc (by decide)
    subst ha
    obtain ⟨d, -, heq⟩ := mem_char.mp hl
    obtain ⟨rfl, rfl⟩ := List.cons.inj heq
    cases after with
    | nil => simp at hrest
    | cons b after =>
      obtain ⟨rfl, -⟩ := List.cons_prefix_cons.mp hrest
      exact absurd (hafter ';' rfl) (by decide)

/-- In front of a blank or the end of the text, every lexeme is the longest. -/
theorem Matches.longest {k : Token.Kind} {l after : List Char} (h : Matches k l)
    (hafter : ∀ b ∈ after.head?, b ∈ blanks) : Longest k l (l ++ after) := by
  have halone : Longest k l l := ⟨h, List.prefix_rfl, fun _ hstart => hstart.length_le⟩
  cases after with
  | nil => rwa [List.append_nil]
  | cons b after =>
    have hbare := h.bare_append _ hafter
    have hbare' : Bare l := by simpa using h.bare_append [] nofun
    obtain ⟨a, c, cs, rfl, -⟩ := h.exists_class
    have hread := read_eq_token hbare' halone
    have hread' := Lexeme.read_append (b := b) hread (mem_blanks.mp (hafter b rfl)) after
    rcases read_cases hbare with ⟨k', l', hread'', hlongest⟩ | ⟨herror, -⟩
    · cases hread'.symm.trans hread''
      exact hlongest
    · cases hread'.symm.trans herror

theorem Splits.of_trivia {cs : List Char} (h : cs ∈ trivia) (p : Position) :
    Splits p cs [] (p.after cs) [] := by
  have hskips : Skips (cs ++ []) cs [] := skips_of_trivia h ⟨nofun, by simp⟩
  rw [List.append_nil] at hskips
  exact .done hskips

/-- One more lexeme in front of a text that splits. -/
theorem Splits.of_matches {t : Token} {cs text : List Char} {p q : Position} {us : List Token}
    (ht : Matches t.kind t.lexeme.toList) (hcs : cs ∈ trivia)
    (hhead : ∀ b ∈ text.head?, b ∈ blanks)
    (h : Splits ((p.after cs).after t.lexeme.toList) text us q []) :
    Splits p (cs ++ (t.lexeme.toList ++ text)) (⟨t.kind, t.lexeme, p.after cs⟩ :: us) q [] := by
  have hskips := skips_of_trivia hcs (ht.bare_append text hhead)
  have hsplits := Splits.lexeme hskips (ht.longest hhead) h
  rwa [String.ofList_toList] at hsplits

theorem exists_splits_of_spaced {ts : List Token} (hts : ∀ t ∈ ts, Matches t.kind t.lexeme.toList)
    {text : List Char} (h : Spaced (ts.map (·.lexeme.toList)) text) (p : Position) :
    ∃ us q, Splits p text us q [] ∧ us.map Token.word = ts.map Token.word := by
  induction ts generalizing text p with
  | nil =>
    have hcs : text ∈ trivia := by
      cases h with
      | nil => exact Language.nil_mem_kstar _
      | last h => exact mem_trivia_of_gap h
    exact ⟨[], _, .of_trivia hcs p, rfl⟩
  | cons t ts ih =>
    obtain ⟨ht, hts⟩ := List.forall_mem_cons.mp hts
    cases h with
    | @cons cs l text ls hcs hls =>
      obtain ⟨us, q, hus, hwords⟩ := ih hts hls ((p.after cs).after t.lexeme.toList)
      refine ⟨_, q, .of_matches ht (mem_trivia_of_gap hcs) hls.head hus, ?_⟩
      rw [List.map_cons, List.map_cons, hwords]
      rfl

theorem exists_splits_of_laidOut {ts : List Token} (hts : ∀ t ∈ ts, Matches t.kind t.lexeme.toList)
    {text : List Char} (h : LaidOut (ts.map (·.lexeme.toList)) text) (p : Position) :
    ∃ us q, Splits p text us q [] ∧ us.map Token.word = ts.map Token.word := by
  cases ts with
  | nil =>
    cases h with
    | nil hcs => exact ⟨[], _, .of_trivia hcs p, rfl⟩
  | cons t ts =>
    obtain ⟨ht, hts⟩ := List.forall_mem_cons.mp hts
    cases h with
    | @cons cs l text ls hcs hls =>
      obtain ⟨us, q, hus, hwords⟩ :=
        exists_splits_of_spaced hts hls ((p.after cs).after t.lexeme.toList)
      refine ⟨_, q, .of_matches ht hcs hls.head hus, ?_⟩
      rw [List.map_cons, List.map_cons, hwords]
      rfl

end Lexical

/-- The same result, or findings that differ in their places only. -/
def SameUpToPlace {α : Type} (x y : Except (Failure Diagnostic) α) : Prop :=
  (∃ a, x = .ok a ∧ y = .ok a) ∨
    ∃ d d', x = .error (.found d) ∧ y = .error (.found d') ∧ d.cause = d'.cause

/-- Two results without faults are the same up to place if they are the same once all places are moved
to the start. -/
theorem SameUpToPlace.of_mapError {α : Type} {x y : Except (Failure Diagnostic) α}
    (h : x.mapError (Failure.map (Diagnostic.move fun _ => .start)) =
      y.mapError (Failure.map (Diagnostic.move fun _ => .start)))
    (hx : ∀ f, x ≠ .error (.fault f)) (hy : ∀ f, y ≠ .error (.fault f)) : SameUpToPlace x y := by
  match x, y with
  | .ok a, .ok b =>
    cases h
    exact .inl ⟨a, rfl, rfl⟩
  | .ok _, .error _ | .error _, .ok _ => cases h
  | .error (.fault f), _ => exact absurd rfl (hx f)
  | _, .error (.fault f) => exact absurd rfl (hy f)
  | .error (.found d), .error (.found d') =>
    have hd : d.move (fun _ => .start) = d'.move (fun _ => .start) :=
      Failure.found.inj (Except.error.inj h)
    have hcause : d.cause = d'.cause := (Diagnostic.mk.inj hd).1
    exact .inr ⟨d, d', rfl, rfl, hcause⟩

theorem SameUpToPlace.map {α β : Type} {x y : Except (Failure Diagnostic) α}
    (h : SameUpToPlace x y) (f : α → β) : SameUpToPlace (x.map f) (y.map f) := by
  rcases h with ⟨a, rfl, rfl⟩ | ⟨d, d', rfl, rfl, hcause⟩
  · exact .inl ⟨f a, rfl, rfl⟩
  · exact .inr ⟨d, d', rfl, rfl, hcause⟩

namespace Program

open Morpho.Parser

/-- Tokens at other places are read alike, and what is found wrong is found at the other place. -/
theorem ofTokens_move {ts : List Token} (hts : ∀ t ∈ ts, t.kind ≠ .eof) (p : Position)
    (move : Position → Position) :
    ofTokens (ts.map (Token.move move) ++ [Token.eof (move p)]) =
      (ofTokens (ts ++ [Token.eof p])).mapError (Failure.map (Diagnostic.move move)) := by
  have hkinds : ∀ t ∈ ts.map (Token.move move), t.kind ≠ .eof := by
    intro t ht
    obtain ⟨t', ht', rfl⟩ := List.mem_map.mp ht
    exact hts t' ht'
  have hfuel : Phrase.fuel (ts.map (Token.move move) ++ [Token.eof (move p)]) =
      Phrase.fuel (ts ++ [Token.eof p]) := by simp [Phrase.fuel]
  have hmoved : Moved move .nothing ⟨ts, p, .empty, []⟩ ⟨ts.map (Token.move move), move p, .empty, []⟩ :=
    ⟨(List.append_nil _).symm, rfl, rfl⟩
  have hcopies := Phrase.parse_program_copies (Nat.le_refl (Phrase.fuel (ts ++ [Token.eof p]))) hmoved
  cases h : ofTokens (ts ++ [Token.eof p]) with
  | ok a =>
    obtain ⟨s, hs⟩ := ofTokens_eq_ok.mp h
    rw [State.ofTokens_eof hts] at hs
    obtain ⟨u, hu, -⟩ := hcopies.ok hs
    exact ofTokens_eq_ok.mpr ⟨u, by rw [State.ofTokens_eof hkinds, hfuel, hu]⟩
  | error e =>
    obtain ⟨s, hs⟩ := ofTokens_eq_error.mp h
    rw [State.ofTokens_eof hts] at hs
    have hne : e ≠ .fault .outOfFuel := by
      rintro rfl
      exact ofTokens_ne_outOfFuel _ h
    obtain ⟨u, hu⟩ := hcopies.error rfl hs hne
    exact ofTokens_eq_error.mpr ⟨u, by rw [State.ofTokens_eof hkinds, hfuel, hu]⟩

/-- A program depends on the words of the tokens only. -/
theorem ofTokens_sameUpToPlace {ts us : List Token} (hts : ∀ t ∈ ts, t.kind ≠ .eof)
    (hus : ∀ t ∈ us, t.kind ≠ .eof) (h : us.map Token.word = ts.map Token.word) (p q : Position) :
    SameUpToPlace (ofTokens (ts ++ [Token.eof p])) (ofTokens (us ++ [Token.eof q])) := by
  -- both lists become the same once all tokens are put at the start
  have hstart : ∀ vs : List Token, vs.map (Token.move fun _ => .start) =
      (vs.map Token.word).map fun w => ⟨w.kind, w.text, .start⟩ := by
    intro vs
    rw [List.map_map]
    rfl
  have hmove := ofTokens_move hts p fun _ => .start
  rw [hstart, ← h, ← hstart, ofTokens_move hus q fun _ => .start] at hmove
  exact .of_mapError hmove.symm (ofTokens_ne_fault _) (ofTokens_ne_fault _)

end Program

/-- A text that is made of the lexemes of another, with any blanks and comments between them that start
with a blank, has the same tokens at other places. Both texts are compiled to the same module, or the
same is found wrong with both. -/
theorem compile_of_laidOut {a b : String} {ts : List Token} (ha : Token.ofSource a = .ok ts)
    (hb : Lexical.LaidOut (ts.dropLast.map (·.lexeme.toList)) b.toList) :
    (∃ us, Token.ofSource b = .ok us ∧ us.map Token.word = ts.map Token.word) ∧
    ∀ moduleName, SameUpToPlace (compile moduleName a) (compile moduleName b) := by
  obtain ⟨init, p, hsplits, rfl⟩ := Token.exists_splits_of_ok ha
  rw [List.dropLast_concat] at hb
  obtain ⟨us, q, hsplits', hwords⟩ :=
    Lexical.exists_splits_of_laidOut (fun t ht => hsplits.fits ht) hb .start
  have hus := Token.ofSource_of_splits hsplits'
  refine ⟨⟨_, hus, ?_⟩, fun moduleName => ?_⟩
  · rw [List.map_append, List.map_append, hwords]
    rfl
  · have hsame := Program.ofTokens_sameUpToPlace (fun t ht => (hsplits.fits ht).ne_eof)
      (fun t ht => (hsplits'.fits ht).ne_eof) hwords p q
    rw [compile_eq_map, compile_eq_map, Program.ofSource_of_tokens ha, Program.ofSource_of_tokens hus]
    exact hsame.map _

/-- A name that no scope binds is found two lines further down once comments are put in. -/
theorem compile_of_laidOut_of_comments :
    let a := "fun f()=y"
    let b := ";;; y\nfun\tf ( ) = ;;; (\n y "
    let tok (k : Token.Kind) (lexeme : String) (column : Nat) : Token := ⟨k, lexeme, ⟨1, column⟩⟩
    let ts := [tok (.keyword .func) "fun" 1, tok .name "f" 5, tok (.punct '(') "(" 6,
      tok (.punct ')') ")" 7, tok (.punct '=') "=" 8, tok .name "y" 9, .eof ⟨1, 10⟩]
    Token.ofSource a = .ok ts ∧ Lexical.LaidOut (ts.dropLast.map (·.lexeme.toList)) b.toList ∧
    compile "m" a = .error (.found ⟨.undeclared "y", ⟨1, 9⟩⟩) ∧
    compile "m" b = .error (.found ⟨.undeclared "y", ⟨3, 2⟩⟩) ∧
    SameUpToPlace (compile "m" a) (compile "m" b) := by
  intro a b tok ts
  have ha : Token.ofSource a = .ok ts := by decide +kernel
  have hempty : [] ∈ Lexical.trivia := Language.nil_mem_kstar _
  have hblank : [' '] ∈ Lexical.gap := Lexical.mem_char_mul.mpr ⟨' ', [], rfl, rfl, hempty⟩
  have htab : ['\t'] ∈ Lexical.gap := Lexical.mem_char_mul.mpr ⟨'\t', [], rfl, rfl, hempty⟩
  have hfirst : ";;; y\n".toList ∈ Lexical.trivia :=
    Lexical.append_mem_kstar (.inr ⟨[' ', 'y'], by decide, rfl⟩) hempty
  have hcomment : ";;; (\n ".toList ∈ Lexical.trivia :=
    Lexical.append_mem_kstar (.inr ⟨[' ', '('], by decide, rfl⟩) (Lexical.mem_trivia_of_gap hblank)
  have hlong : ' ' :: ";;; (\n ".toList ∈ Lexical.gap :=
    Lexical.mem_char_mul.mpr ⟨' ', _, rfl, rfl, hcomment⟩
  have hlaid : Lexical.LaidOut [['f', 'u', 'n'], ['f'], ['('], [')'], ['='], ['y']] _ :=
    .cons hfirst (.cons htab (.cons hblank (.cons hblank (.cons hblank (.cons hlong (.last hblank))))))
  have hb : Lexical.LaidOut (ts.dropLast.map (·.lexeme.toList)) b.toList := by
    simpa [ts, tok, b] using hlaid
  exact ⟨ha, hb, by decide +kernel, by decide +kernel, (compile_of_laidOut ha hb).2 "m"⟩

end Morpho
