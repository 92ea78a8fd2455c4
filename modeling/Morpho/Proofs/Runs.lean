import Morpho.Compile

/-! Runs of parsers that succeed, and parsers that see and change nothing but the tokens. -/
namespace Morpho

/-- Phrases that stand inside a function. -/
def Phrase.inner : Phrase → Bool
  | program | function => false
  | _ => true

-- every proof about the grammar opens the reader phrase by phrase
attribute [grind =] Phrase.parse

namespace Parser

variable {α β : Type}

theorem bind_eq_ok {x : Parser α} {f : α → Parser β} {s s' : State} {b : β} :
    (x >>= f) s = .ok b s' ↔ ∃ a t, x s = .ok a t ∧ f a t = .ok b s' := by
  simp only [Bind.bind, EStateM.bind]
  cases x s with
  | ok a t => simp [and_assoc]
  | error e t => simp

theorem pure_eq_ok {a b : α} {s s' : State} :
    (pure a : Parser α) s = .ok b s' ↔ a = b ∧ s = s' := by
  simp only [Pure.pure, EStateM.pure, EStateM.Result.ok.injEq]

theorem pure_ok {a : α} {s : State} : (pure a : Parser α) s = .ok a s := rfl

theorem expect_of_kind {k : Token.Kind} {s : State} (h : s.current.kind = k) :
    expect k s = .ok s.current { s with tokens := s.tokens.tail } := by
  have hb : check k s = .ok true s := by simp [check, h]
  exact bind_eq_ok.mpr ⟨true, s, hb, rfl⟩

theorem expect_of_ne {k : Token.Kind} {s : State} (h : s.current.kind ≠ k) :
    expect k s = .error (.found (s.current.diagnostic k.description)) s := by
  have hb : check k s = .ok false s := by simp [check, h]
  simp only [expect, Bind.bind, EStateM.bind, hb]
  rfl

section Continued

variable {k : Token.Kind} {s : State}

theorem check_bind_of_kind {f : Bool → Parser α} (h : s.current.kind = k) :
    (check k >>= f) s = f true s := by
  change f (decide (s.current.kind = k)) s = f true s
  rw [decide_eq_true h]

theorem check_bind_of_ne {f : Bool → Parser α} (h : s.current.kind ≠ k) :
    (check k >>= f) s = f false s := by
  change f (decide (s.current.kind = k)) s = f false s
  rw [decide_eq_false h]

theorem checkSecond_bind {f : Bool → Parser α} {b : Bool}
    (h : s.tokens[1]?.any (·.kind = k) = b) : (checkSecond k >>= f) s = f b s := by
  change f (s.tokens[1]?.any (·.kind = k)) s = f b s
  rw [h]

theorem expect_bind_of_kind {f : Token → Parser α} (h : s.current.kind = k) :
    (expect k >>= f) s = f s.current { s with tokens := s.tokens.tail } := by
  simp only [Bind.bind, EStateM.bind, expect_of_kind h]

theorem expect_bind_of_ne {f : Token → Parser α} (h : s.current.kind ≠ k) :
    (expect k >>= f) s = .error (.found (s.current.diagnostic k.description)) s := by
  simp only [Bind.bind, EStateM.bind, expect_of_ne h]

end Continued

/-- The end of the file comes when no token is left. -/
theorem State.tokens_eq_nil {s : State} (hs : ∀ t ∈ s.tokens, t.kind ≠ .eof)
    (h : s.current.kind = .eof) : s.tokens = [] := by
  cases htokens : s.tokens with
  | nil => rfl
  | cons t ts =>
    rw [State.current, htokens] at h
    exact absurd h (hs t (by simp [htokens]))

/-- Reading starts with the tokens before the end of the file. -/
theorem State.ofTokens_eof {ts : List Token} (h : ∀ t ∈ ts, t.kind ≠ .eof) (p : Position) :
    State.ofTokens (ts ++ [Token.eof p]) = ⟨ts, p, .empty, []⟩ := by
  have htake : (ts ++ [Token.eof p]).takeWhile (·.kind ≠ .eof) = ts := by
    rw [List.takeWhile_append_of_pos (by simpa using h)]
    simp [Token.eof]
  have hfind : (ts ++ [Token.eof p]).find? (·.kind = .eof) = some (.eof p) := by
    rw [List.find?_append, List.find?_eq_none.mpr (by simpa using h)]
    rfl
  rw [State.ofTokens, htake, State.stopOf, hfind]
  rfl

/-- A success depends on the tokens and the end of the file only, and changes the tokens only. -/
def Reads (x : Parser α) : Prop :=
  ∀ s a s', x s = .ok a s' → ∃ ts, s' = { s with tokens := ts } ∧
    ∀ u : State, u.tokens = s.tokens → u.stop = s.stop → x u = .ok a { u with tokens := ts }

namespace Reads

theorem current : Reads Parser.current := by
  intro s a s' h
  cases h
  refine ⟨s.tokens, rfl, fun u ht hp => ?_⟩
  simp [Parser.current, State.current, ← ht, ← hp]

theorem check (k : Token.Kind) : Reads (Parser.check k) := by
  intro s a s' h
  cases h
  refine ⟨s.tokens, rfl, fun u ht hp => ?_⟩
  simp [Parser.check, State.current, ← ht, ← hp]

theorem checkSecond (k : Token.Kind) : Reads (Parser.checkSecond k) := by
  intro s a s' h
  cases h
  refine ⟨s.tokens, rfl, fun u ht _ => ?_⟩
  simp [Parser.checkSecond, ← ht]

theorem advance : Reads Parser.advance := by
  intro s a s' h
  cases h
  refine ⟨s.tokens.tail, rfl, fun u ht hp => ?_⟩
  simp [Parser.advance, State.current, ht, hp]

theorem unexpected (wanted : String) : Reads (Parser.unexpected (α := α) wanted) := by
  intro s a s' h
  cases h

theorem pure (a : α) : Reads (Pure.pure a) := by
  intro s b s' h
  obtain ⟨rfl, rfl⟩ := pure_eq_ok.mp h
  refine ⟨s.tokens, rfl, fun u ht _ => ?_⟩
  rw [pure_eq_ok, ← ht]
  exact ⟨rfl, rfl⟩

theorem bind {x : Parser α} {f : α → Parser β} (hx : Reads x) (hf : ∀ a, Reads (f a)) :
    Reads (x >>= f) := by
  intro s b s' h
  obtain ⟨a, t, hs, ht⟩ := bind_eq_ok.mp h
  obtain ⟨ts, rfl, hu⟩ := hx s a t hs
  obtain ⟨ts', rfl, hv⟩ := hf a _ b s' ht
  refine ⟨ts', rfl, fun u htok hstop => bind_eq_ok.mpr ⟨a, _, hu u htok hstop, ?_⟩⟩
  exact hv _ rfl hstop

theorem accept (k : Token.Kind) : Reads (Parser.accept k) := by
  refine .bind (.check k) fun b => ?_
  cases b with
  | true => exact .bind .advance fun _ => .pure true
  | false => exact .pure false

theorem expect (k : Token.Kind) : Reads (Parser.expect k) := by
  refine .bind (.check k) fun b => ?_
  cases b with
  | true => exact .advance
  | false => exact .unexpected _

end Reads
end Parser

namespace Phrase

open Morpho.Parser

theorem parse_program_end {n : Nat} {s : State} (h : s.current.kind = .eof) :
    parse (n + 1) program s = .ok [] s := by
  have hb : check .eof s = .ok true s := by simp [check, h]
  rw [parse]
  exact bind_eq_ok.mpr ⟨true, s, hb, pure_ok⟩

theorem parse_program_more {n : Nat} {s : State} (h : s.current.kind ≠ .eof) :
    parse (n + 1) program s = (do
      let f ← parse n function
      return f :: (← parse n program)) s := by
  have hb : check .eof s = .ok false s := by simp [check, h]
  rw [parse]
  simp only [Bind.bind, EStateM.bind, hb]
  rfl

end Phrase

namespace Program

theorem ofTokens_eq_ok {ts : List Token} {p : Program} : ofTokens ts = .ok p ↔
    ∃ s, Phrase.parse (Phrase.fuel ts) .program (.ofTokens ts) = .ok p.functions s := by
  simp only [ofTokens, loggedOfTokens, Phrase.run]
  cases Phrase.parse (Phrase.fuel ts) .program (.ofTokens ts) with
  | ok fs s =>
    obtain ⟨gs⟩ := p
    simp [Except.map]
  | error e s => simp [Except.map]

theorem ofTokens_eq_error {ts : List Token} {e : Failure Diagnostic} : ofTokens ts = .error e ↔
    ∃ s, Phrase.parse (Phrase.fuel ts) .program (.ofTokens ts) = .error e s := by
  simp only [ofTokens, loggedOfTokens, Phrase.run]
  cases Phrase.parse (Phrase.fuel ts) .program (.ofTokens ts) with
  | ok fs s => simp [Except.map]
  | error e s => simp [Except.map]

theorem ofSource_of_tokens {source : String} {ts : List Token} (h : Token.ofSource source = .ok ts) :
    ofSource source = ofTokens ts := by
  rw [ofSource, loggedOfSource, h]
  rfl

theorem exists_tokens_of_ofSource {source : String} {p : Program} (h : ofSource source = .ok p) :
    ∃ ts, Token.ofSource source = .ok ts ∧ ofTokens ts = .ok p := by
  cases hts : Token.ofSource source with
  | ok ts => exact ⟨ts, rfl, ofSource_of_tokens hts ▸ h⟩
  | error d =>
    rw [ofSource, loggedOfSource, hts] at h
    cases h

end Program

theorem compile_eq_map (moduleName source : String) :
    compile moduleName source = (Program.ofSource source).map (·.assembly moduleName) := by
  rw [compile, Artifact.compile, Program.ofSource]
  cases h : (Program.loggedOfSource source).result with
  | ok p => rfl
  | error e => rfl

end Morpho
