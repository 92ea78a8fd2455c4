import Morpho.Proofs.TwoRuns

/-! Reading goes no further than its result needs. What is found wrong with a token list is found at
some place of it, and the tokens behind that place do not matter; nor do those behind the first end of
the file. -/
namespace Morpho

namespace Parser.State

variable {before after : List Token} {e : Token}

/-- Reading starts with the tokens before the first end of the file. -/
theorem ofTokens_append_eof (hbefore : ∀ t ∈ before, t.kind ≠ .eof) (he : e.kind = .eof) :
    ofTokens (before ++ e :: after) = ⟨before, e.pos, .empty, []⟩ := by
  have hall : ∀ t ∈ before, decide (t.kind ≠ .eof) = true := by simpa using hbefore
  have hnone : before.find? (·.kind = .eof) = none := by simpa using hbefore
  have hfind : (before ++ e :: after).find? (·.kind = .eof) = some e := by
    rw [List.find?_append, hnone]
    simp [he]
  rw [ofTokens, List.takeWhile_append_of_pos hall, stopOf, hfind]
  simp [he]

theorem findIdx_append_eof (hbefore : ∀ t ∈ before, t.kind ≠ .eof) (he : e.kind = .eof) :
    (before ++ e :: after).findIdx (·.kind = .eof) = before.length := by
  have hlength : before.findIdx (·.kind = .eof) = before.length :=
    List.findIdx_eq_length_of_false (by simpa using hbefore)
  rw [List.findIdx_append, hlength, if_neg (Nat.lt_irrefl _), List.findIdx_cons]
  simp [he]

theorem split_of_take {us : List Token}
    (h : us.take (before.length + 1) = (before ++ e :: after).take (before.length + 1)) :
    us = before ++ e :: us.drop (before.length + 1) := by
  have hus := List.take_append_drop (before.length + 1) us
  rw [h, List.take_append, List.take_of_length_le (Nat.le_succ _)] at hus
  simpa using hus.symm

/-- A list with an end of the file splits at the first one. -/
theorem exists_split_eof {ts : List Token} (hts : ∃ e ∈ ts, e.kind = .eof) :
    ∃ before e after, ts = before ++ e :: after ∧ (∀ t ∈ before, t.kind ≠ .eof) ∧ e.kind = .eof := by
  obtain ⟨t, ht, hkind⟩ := hts
  cases hfind : ts.find? (·.kind = .eof) with
  | none => exact absurd (decide_eq_true hkind) (List.find?_eq_none.mp hfind t ht)
  | some e =>
    obtain ⟨he, before, after, rfl, hbefore⟩ := List.find?_eq_some_iff_append.mp hfind
    exact ⟨before, e, after, rfl, by simpa using hbefore, by simpa using he⟩

theorem at_ofTokens_of_eof {ts : List Token} (hts : ∃ e ∈ ts, e.kind = .eof) :
    (ofTokens ts).At ts 0 := by
  obtain ⟨before, e, after, rfl, hbefore, he⟩ := exists_split_eof hts
  rw [ofTokens_append_eof hbefore he]
  refine .of_stop (by simp) hbefore (e := e) ?_ he rfl
  exact ⟨after, by simp⟩

/-- A reader has as many tokens left as there are between its place and the first end of the file. -/
theorem At.add_length {vector : List Token} {i : Nat} {s : State} (h : s.At vector i) :
    i + s.tokens.length = vector.findIdx (·.kind = .eof) := by
  obtain ⟨e, ⟨after, hafter⟩, he, -⟩ := h.stop
  have hsplit : (vector.take i ++ s.tokens) ++ e :: after = vector := by
    calc (vector.take i ++ s.tokens) ++ e :: after
      _ = vector.take i ++ (s.tokens ++ [e] ++ after) := by simp
      _ = vector := by rw [hafter, List.take_append_drop]
  have hi : i ≤ vector.length := by
    by_contra hlt
    rw [List.drop_eq_nil_of_le (by omega)] at hafter
    simp at hafter
  have hnone : ∀ t ∈ vector.take i ++ s.tokens, t.kind ≠ .eof :=
    List.forall_mem_append.mpr ⟨h.before, h.left⟩
  rw [← hsplit, findIdx_append_eof hnone he, List.length_append, List.length_take, Nat.min_eq_left hi]

/-- Two lists that agree up to the place `i`, which is no later than the end of the file, are alike but
for what comes behind that place. -/
theorem alike_of_take {ts us : List Token} {i k : Nat} (hts : ∃ e ∈ ts, e.kind = .eof)
    (hk : i + k = ts.findIdx (·.kind = .eof)) (h : us.take (i + 1) = ts.take (i + 1)) :
    (ofTokens ts).Alike id k (ofTokens us) := by
  obtain ⟨before, e, after, rfl, hbefore, he⟩ := exists_split_eof hts
  rw [findIdx_append_eof hbefore he] at hk
  rw [ofTokens_append_eof hbefore he]
  refine ⟨?_, by simp [ofTokens]⟩
  have hknown : before.length + 1 - k = i + 1 := by omega
  simp only [upcoming, hknown, Token.rename_id, List.map_id]
  rcases Nat.lt_or_ge i before.length with hlt | hge
  · -- none of the tokens that agree ends the file
    have hus := List.take_append_drop (i + 1) us
    rw [h, List.take_append_of_le_length hlt] at hus
    have hall : ∀ t ∈ before.take (i + 1), decide (t.kind ≠ .eof) = true := by
      intro t ht
      simpa using hbefore t (List.mem_of_mem_take ht)
    rw [← hus, ofTokens, List.takeWhile_append_of_pos hall, List.take_append_of_le_length hlt,
      List.append_assoc]
    exact List.prefix_append _ _
  · obtain rfl : i = before.length := by omega
    rw [split_of_take h, ofTokens_append_eof hbefore he]
    exact List.take_prefix _ _

end Parser.State

namespace Phrase

open Morpho.Parser

theorem parse_program_agree {n m : Nat} (hle : n ≤ m) (s : State) :
    Agree (parse n program) (parse m program) s := by
  induction n generalizing m s with
  | zero =>
    refine .inl ⟨s, ?_⟩
    rw [parse]
    rfl
  | succ n ih =>
    obtain ⟨m, rfl⟩ : ∃ k, m = k + 1 := ⟨m - 1, by omega⟩
    have hle' : n ≤ m := by omega
    by_cases hend : s.current.kind = .eof
    · refine .inr ?_
      rw [parse_program_end hend, parse_program_end hend]
    · refine Agree.of_eq ?_ (parse_program_more hend) (parse_program_more hend)
      refine .bind (parse_agree hle' (by decide) s) fun f t => ?_
      exact .bind (ih hle' t) fun fs u => .inr rfl

/-- Where there is fuel enough, more of it changes nothing. -/
theorem parse_program_of_le {n m : Nat} (hle : n ≤ m) {s : State}
    (hn : 16 * s.tokens.length + 2 < n) : parse n program s = parse m program s := by
  rcases parse_program_agree hle s with ⟨t, ht⟩ | heq
  · have hends := parse_program_ends n s hn
    simp only [Ends, ht] at hends
    exact absurd rfl hends
  · exact heq

end Phrase

namespace Program

open Morpho.Parser

/-- The tokens of the list give fuel enough. -/
theorem fuel_enough (ts : List Token) :
    16 * (State.ofTokens ts).tokens.length + 2 < Phrase.fuel ts := by
  have hle : (State.ofTokens ts).tokens.length ≤ ts.length := (List.takeWhile_sublist _).length_le
  simp only [Phrase.fuel]
  omega

theorem parse_of_fuel {ts : List Token} {n : Nat} (hn : Phrase.fuel ts ≤ n) :
    Phrase.parse (Phrase.fuel ts) .program (.ofTokens ts) = Phrase.parse n .program (.ofTokens ts) :=
  Phrase.parse_program_of_le hn (fuel_enough ts)

/-- Reading the list finds `d`, and it stands at place `i` of the list then. -/
def FailsAt (ts : List Token) (d : Diagnostic) (i : Nat) : Prop :=
  ∃ s, Phrase.parse (Phrase.fuel ts) .program (.ofTokens ts) = .error (.found d) s ∧ s.At ts i

namespace FailsAt

variable {ts : List Token} {d : Diagnostic} {i : Nat}

theorem ofTokens_eq (h : FailsAt ts d i) : ofTokens ts = .error (.found d) := by
  obtain ⟨s, hs, -⟩ := h
  exact ofTokens_eq_error.mpr ⟨s, hs⟩

theorem concerns (h : FailsAt ts d i) : ∃ s, s.At ts i ∧ Concerns (State.ofTokens ts).tokens s d := by
  obtain ⟨s, hs, hat⟩ := h
  have hechoes := Phrase.parse_echoes Function.injective_id 0 (State.ofTokens ts).tokens
    (Phrase.fuel ts) .program (.ofTokens ts)
  exact ⟨s, hat, (hechoes.error List.suffix_rfl hs nofun).2.1 d rfl⟩

/-- A token that is not the expected one is the one where reading stands. -/
theorem token (h : FailsAt ts d i) : ∃ t, ts[i]? = some t ∧
    ∀ wanted found, d.cause = .expected wanted found → t.description = found ∧ t.pos = d.pos := by
  obtain ⟨s, hat, hd⟩ := h.concerns
  obtain ⟨t, ht, -, hpos, hdescription⟩ := hat.token
  refine ⟨t, ht, fun wanted found hcause => ?_⟩
  cases hd with
  | next =>
    cases hcause
    exact ⟨hdescription.symm, hpos.symm⟩
  | last | before => cases hcause

/-- A name that is not declared stands right before the place where reading stands. -/
theorem token_of_undeclared {name : String} {pos : Position}
    (hts : ∃ e ∈ ts, e.kind = .eof) (h : FailsAt ts ⟨.undeclared name, pos⟩ i) :
    ∃ j t, i = j + 1 ∧ ts[j]? = some t ∧ t.kind = .name ∧ t.lexeme = name ∧ t.pos = pos := by
  obtain ⟨s, hat, hd⟩ := h.concerns
  cases hd with
  | @last t ht hs =>
    obtain ⟨front, hfront⟩ := hs
    have hstart := (State.at_ofTokens_of_eof hts).add_length.trans hat.add_length.symm
    rw [← hfront, List.length_append, List.length_cons] at hstart
    have hprefix : front ++ t :: s.tokens <+: ts := hfront ▸ List.takeWhile_prefix _
    refine ⟨front.length, t, by omega, ?_, ht, rfl, rfl⟩
    obtain ⟨after, rfl⟩ := hprefix
    simp

/-- What stands behind the place where a list fails does not matter. -/
theorem ofTokens_of_take (hts : ∃ e ∈ ts, e.kind = .eof) (h : FailsAt ts d i) {us : List Token}
    (hus : us.take (i + 1) = ts.take (i + 1)) : ofTokens us = .error (.found d) := by
  obtain ⟨s, hs, hat⟩ := h
  rw [parse_of_fuel (Nat.le_max_left _ (Phrase.fuel us))] at hs
  have hechoes := Phrase.parse_echoes Function.injective_id s.tokens.length (State.ofTokens ts).tokens
    (max (Phrase.fuel ts) (Phrase.fuel us)) .program (.ofTokens ts)
  have halike := State.alike_of_take hts hat.add_length hus
  obtain ⟨u, hu⟩ := (hechoes.error List.suffix_rfl hs nofun).2.2 _ halike (Nat.le_refl _)
  rw [Failure.map, Diagnostic.rename_id] at hu
  refine ofTokens_eq_error.mpr ⟨u, ?_⟩
  rw [parse_of_fuel (Nat.le_max_right (Phrase.fuel ts) _)]
  exact hu

end FailsAt

/-- What is found wrong is found at one place. -/
theorem ofTokens_eq_found {ts : List Token} (hts : ∃ e ∈ ts, e.kind = .eof) {d : Diagnostic} :
    ofTokens ts = .error (.found d) ↔ ∃! i, FailsAt ts d i := by
  constructor
  · intro h
    obtain ⟨s, hs⟩ := ofTokens_eq_error.mp h
    have hsafe := Phrase.parse_safe (Phrase.fuel ts) .program (.ofTokens ts) [] ⟨[], rfl, rfl⟩
    obtain ⟨i, hi, -⟩ := (State.at_ofTokens_of_eof hts).of_follows (hsafe.error hs).1
    refine ⟨i, ⟨s, hs, hi⟩, ?_⟩
    rintro j ⟨t, ht, hj⟩
    cases hs.symm.trans ht
    have hlength := hi.add_length.trans hj.add_length.symm
    omega
  · rintro ⟨i, hi, -⟩
    exact hi.ofTokens_eq

/-- What stands behind the first end of the file does not matter. -/
theorem ofTokens_of_take_eof {ts us : List Token} (hts : ∃ e ∈ ts, e.kind = .eof)
    (hus : us.take (ts.findIdx (·.kind = .eof) + 1) = ts.take (ts.findIdx (·.kind = .eof) + 1)) :
    ofTokens us = ofTokens ts := by
  obtain ⟨before, e, after, rfl, hbefore, he⟩ := State.exists_split_eof hts
  rw [State.findIdx_append_eof hbefore he] at hus
  have hstart : State.ofTokens us = State.ofTokens (before ++ e :: after) := by
    rw [State.split_of_take hus, State.ofTokens_append_eof hbefore he,
      State.ofTokens_append_eof hbefore he]
  rw [ofTokens, ofTokens, loggedOfTokens, loggedOfTokens, Phrase.run, Phrase.run,
    parse_of_fuel (Nat.le_max_left _ (Phrase.fuel (before ++ e :: after))), hstart,
    parse_of_fuel (Nat.le_max_right (Phrase.fuel us) _)]

/-- Whatever is found wrong is found at one place of the list. Where a token is not the expected one,
this is the token at that place, and no token behind it matters. Where a name is not declared, it stands
right before that place, and nothing matters that comes after the token behind the name. Nothing matters
that comes after the first end of the file. -/
theorem ofTokens_lookahead {ts : List Token} (hts : ∃ e ∈ ts, e.kind = .eof) :
    (∀ d, ofTokens ts = .error (.found d) ↔ ∃! i, FailsAt ts d i) ∧
    (∀ wanted found pos i, FailsAt ts ⟨.expected wanted found, pos⟩ i →
      (∃ t, ts[i]? = some t ∧ t.description = found ∧ t.pos = pos) ∧
      ∀ us : List Token, us.take (i + 1) = ts.take (i + 1) →
        ofTokens us = .error (.found ⟨.expected wanted found, pos⟩)) ∧
    (∀ name pos j, FailsAt ts ⟨.undeclared name, pos⟩ j →
      ∃ i t, j = i + 1 ∧ ts[i]? = some t ∧ t.kind = .name ∧ t.lexeme = name ∧ t.pos = pos ∧
      ∀ us : List Token, us.take (i + 2) = ts.take (i + 2) →
        ofTokens us = .error (.found ⟨.undeclared name, pos⟩)) ∧
    (∀ us : List Token,
      us.take (ts.findIdx (·.kind = .eof) + 1) = ts.take (ts.findIdx (·.kind = .eof) + 1) →
      ofTokens us = ofTokens ts) := by
  refine ⟨fun d => ofTokens_eq_found hts, ?_, ?_, fun us => ofTokens_of_take_eof hts⟩
  · intro wanted found pos i h
    obtain ⟨t, ht, hfound⟩ := h.token
    exact ⟨⟨t, ht, hfound wanted found rfl⟩, fun us => h.ofTokens_of_take hts⟩
  · intro name pos j h
    obtain ⟨i, t, rfl, ht, hkind, hlexeme, hpos⟩ := h.token_of_undeclared hts
    exact ⟨i, t, rfl, ht, hkind, hlexeme, hpos, fun us => h.ofTokens_of_take hts⟩

/-- The name at place 5 is not declared, and the parenthesis behind it could not follow it either. A
list that goes on differently after that fails in the same way. -/
theorem ofTokens_lookahead_of_undeclared :
    let tok (k : Token.Kind) (lexeme : String) (column : Nat) : Token := ⟨k, lexeme, ⟨1, column⟩⟩
    let ts := [tok (.keyword .func) "fun" 1, tok .name "f" 5, tok (.punct '(') "(" 6,
      tok (.punct ')') ")" 7, tok (.punct '=') "=" 9, tok .name "x" 11, tok (.punct ')') ")" 12,
      tok .literal "1" 14, tok .eof "" 15]
    let us := ts.take 7 ++ [tok (.keyword .alt) "else" 13, tok .eof "" 17]
    (∃ e ∈ ts, e.kind = .eof) ∧ FailsAt ts ⟨.undeclared "x", ⟨1, 11⟩⟩ 6 ∧
    us.take 7 = ts.take 7 ∧ ofTokens us = .error (.found ⟨.undeclared "x", ⟨1, 11⟩⟩) := by
  intro tok ts us
  have hts : ∃ e ∈ ts, e.kind = .eof := by decide
  have hparse : ofTokens ts = .error (.found ⟨.undeclared "x", ⟨1, 11⟩⟩) := by decide +kernel
  obtain ⟨hfails, -, hundeclared, -⟩ := ofTokens_lookahead hts
  obtain ⟨j, hj, -⟩ := (hfails _).mp hparse
  obtain ⟨i, t, rfl, ht, -, -, hpos, hus⟩ := hundeclared _ _ _ hj
  -- only one token stands in that column
  have hplace : ∀ i < ts.length, ts[i]?.map (·.pos) = some ⟨1, 11⟩ → i = 5 := by decide
  obtain rfl : i = 5 := by
    refine hplace i (List.getElem?_eq_some_iff.mp ht).1 ?_
    rw [ht, Option.map_some, hpos]
  exact ⟨hts, hj, rfl, hus us rfl⟩

end Program
end Morpho
