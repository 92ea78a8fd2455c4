import Morpho.Proofs.Lookahead
import Mathlib.Logic.Equiv.Basic

/-! A token list whose names and operators are all replaced, different ones by different ones, is read
as the same program under the new names. -/
namespace Morpho

theorem Parser.State.alike_rename (r : String → String) {ts : List Token}
    (hts : ∃ e ∈ ts, e.kind = .eof) :
    (ofTokens ts).Alike r 0 (ofTokens (ts.map (Token.rename r))) := by
  obtain ⟨before, e, after, rfl, hbefore, he⟩ := exists_split_eof hts
  have hrenamed : ∀ t ∈ before.map (Token.rename r), t.kind ≠ .eof := by
    simpa using hbefore
  have hend : (Token.eof e.pos).rename r = .eof e.pos := Token.rename_of_not rfl
  rw [List.map_append, List.map_cons, ofTokens_append_eof hbefore he,
    ofTokens_append_eof hrenamed (by simpa using he)]
  refine ⟨?_, rfl⟩
  simp only [upcoming, List.map_take, List.map_append, List.map_cons, List.map_nil, hend,
    Token.rename_pos]
  exact List.take_prefix _ _

namespace Program

open Morpho.Parser

section

variable {r : String → String} (hr : Function.Injective r) {ts : List Token}
  (hts : ∃ e ∈ ts, e.kind = .eof)

include hr hts

theorem ofTokens_rename_of_ok {p : Program} (h : ofTokens ts = .ok p) :
    ofTokens (ts.map (Token.rename r)) = .ok (p.rename r) := by
  obtain ⟨s, hs⟩ := ofTokens_eq_ok.mp h
  have hechoes := Phrase.parse_echoes hr 0 (State.ofTokens ts).tokens (Phrase.fuel ts) .program
    (.ofTokens ts)
  obtain ⟨u, hu, -⟩ := (hechoes.ok List.suffix_rfl hs).2 _ (State.alike_rename r hts) (Nat.zero_le _)
  refine ofTokens_eq_ok.mpr ⟨u, ?_⟩
  rw [Phrase.fuel, List.length_map]
  exact hu

theorem ofTokens_rename_of_failsAt {d : Diagnostic} {i : Nat} {t : Token} (h : FailsAt ts d i)
    (ht : ts[i]? = some t) : ofTokens (ts.map (Token.rename r)) = .error (.found (d.rename r t)) := by
  obtain ⟨s, hs, hat⟩ := h
  have hechoes := Phrase.parse_echoes hr 0 (State.ofTokens ts).tokens (Phrase.fuel ts) .program
    (.ofTokens ts)
  obtain ⟨u, hu⟩ := (hechoes.error List.suffix_rfl hs nofun).2.2 _ (State.alike_rename r hts)
    (Nat.zero_le _)
  have hkind : s.current.kind = t.kind := by
    obtain ⟨t', ht', hkind, -⟩ := hat.token
    cases ht.symm.trans ht'
    exact hkind
  refine ofTokens_eq_error.mpr ⟨u, ?_⟩
  rw [Phrase.fuel, List.length_map, ← Diagnostic.rename_congr hkind]
  exact hu

end

/-- Replacing the names and operators of a list, different ones by different ones, changes nothing but
the names. The new list is read as a program if and only if the old one is, and as the same program
under the new names. Otherwise the same is wrong with both at the same place, under the new names; where
a token was found in place of another, this is the token `t` at which reading stands. -/
theorem ofTokens_rename {r : String → String} (hr : Function.Injective r) {ts : List Token}
    (hts : ∃ e ∈ ts, e.kind = .eof) :
    (∀ q, ofTokens (ts.map (Token.rename r)) = .ok q ↔ ∃ p, ofTokens ts = .ok p ∧ p.rename r = q) ∧
    (∀ d', ofTokens (ts.map (Token.rename r)) = .error (.found d') ↔
      ∃ d i t, ofTokens ts = .error (.found d) ∧ FailsAt ts d i ∧ ts[i]? = some t ∧
        d.rename r t = d' ∧
        ∀ wanted found, d.cause = .expected wanted found → t.description = found ∧ t.pos = d.pos) := by
  have hcases : (∃ p, ofTokens ts = .ok p) ∨ ∃ d i, FailsAt ts d i := by
    cases h : ofTokens ts with
    | ok p => exact .inl ⟨p, rfl⟩
    | error e =>
      cases e with
      | fault f => exact absurd h (ofTokens_ne_fault ts f)
      | found d =>
        obtain ⟨i, hi, -⟩ := (ofTokens_eq_found hts).mp h
        exact .inr ⟨d, i, hi⟩
  constructor
  · intro q
    constructor
    · intro hq
      obtain ⟨p, hp⟩ | ⟨d, i, hi⟩ := hcases
      · have hrenamed := ofTokens_rename_of_ok hr hts hp
        exact ⟨p, hp, Except.ok.inj (hrenamed.symm.trans hq)⟩
      · obtain ⟨t, ht, -⟩ := hi.token
        cases (ofTokens_rename_of_failsAt hr hts hi ht).symm.trans hq
    · rintro ⟨p, hp, rfl⟩
      exact ofTokens_rename_of_ok hr hts hp
  · intro d'
    constructor
    · intro hd'
      obtain ⟨p, hp⟩ | ⟨d, i, hi⟩ := hcases
      · cases (ofTokens_rename_of_ok hr hts hp).symm.trans hd'
      · obtain ⟨t, ht, hfound⟩ := hi.token
        have hrenamed := ofTokens_rename_of_failsAt hr hts hi ht
        refine ⟨d, i, t, hi.ofTokens_eq, hi, ht, ?_, hfound⟩
        exact Failure.found.inj (Except.error.inj (hrenamed.symm.trans hd'))
    · rintro ⟨d, i, t, -, hi, ht, rfl, -⟩
      exact ofTokens_rename_of_failsAt hr hts hi ht

/-- The parameter takes the name of the operator and the operator that of the parameter. -/
theorem ofTokens_rename_of_swap :
    let tok (k : Token.Kind) (lexeme : String) : Token := ⟨k, lexeme, .start⟩
    let ts := [tok (.keyword .func) "fun", tok .name "f", tok (.punct '(') "(", tok .name "a",
      tok (.punct ')') ")", tok (.punct '=') "=", tok .name "a", tok (.op .op6) "+", tok .name "f",
      tok (.punct '(') "(", tok .name "a", tok (.punct ')') ")", tok .eof ""]
    let r := Equiv.swap "a" "+"
    Function.Injective r ∧ (∃ e ∈ ts, e.kind = .eof) ∧
    ofTokens ts = .ok ⟨[⟨"f", 1, .last (.call "+" [.fetch 0, .call "f" [.fetch 0]])⟩]⟩ ∧
    ofTokens (ts.map (Token.rename r)) =
      .ok ⟨[⟨"f", 1, .last (.call "a" [.fetch 0, .call "f" [.fetch 0]])⟩]⟩ := by
  intro tok ts r
  have hr : Function.Injective r := r.injective
  have hts : ∃ e ∈ ts, e.kind = .eof := by decide
  have hparse : ofTokens ts = .ok ⟨[⟨"f", 1, .last (.call "+" [.fetch 0, .call "f" [.fetch 0]])⟩]⟩ := by
    decide +kernel
  refine ⟨hr, hts, hparse, ((ofTokens_rename hr hts).1 _).mpr ⟨_, hparse, ?_⟩⟩
  decide +kernel

end Program
end Morpho
