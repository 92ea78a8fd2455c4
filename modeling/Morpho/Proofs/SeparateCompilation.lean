import Morpho.Proofs.Placement
import Morpho.Proofs.Scanning
import Morpho.Proofs.Relabel
import Morpho.Proofs.Linked

/-! Source texts joined by a newline. The joined text compiles to the functions of its parts in order,
and if only the second part is wrong, it is wrong for the same reason at the same place. -/
namespace Morpho

namespace Grammar

theorem IsFunction.cons {ts : List Token} {f : Function} (h : IsFunction ts f) :
    ∃ t rest, ts = t :: rest ∧ t.kind = .keyword .func := by
  cases h with
  | mk ht => exact ⟨_, _, rfl, ht⟩

theorem IsProgram.length_le {ts : List Token} {fs : List Function} (h : IsProgram ts fs) :
    fs.length ≤ ts.length := by
  induction h with
  | nil => exact Nat.le_refl _
  | cons hf _ ih =>
    obtain ⟨t, rest, rfl, -⟩ := hf.cons
    simp only [List.length_cons, List.cons_append, List.length_append]
    omega

theorem IsProgram.starts {ts : List Token} {fs : List Function} (h : IsProgram ts fs) :
    ∀ t ∈ ts.head?, t.kind = .keyword .func := by
  cases h with
  | nil => simp
  | cons hf hfs =>
    obtain ⟨t, rest, rfl, ht⟩ := hf.cons
    simp [ht]

end Grammar

namespace Phrase

open Morpho.Parser

/-- The functions of one program in front of a second one, whose tokens stand `d` lines further down. -/
theorem parse_program_append {as bs : List Token} {p q : Position} {d n k m : Nat} {fs : List Function}
    {s : State} (has : ∀ t ∈ as, t.kind ≠ .eof)
    (hstart : ∀ t ∈ bs.head?, t.kind = .keyword .func)
    (hs : parse n program ⟨as, p, .empty, []⟩ = .ok fs s) (hn : n ≤ m + fs.length) (hk : k ≤ m) :
    (∀ gs v, parse k program ⟨bs, q, .empty, []⟩ = .ok gs v → ∃ w, parse (m + fs.length) program
      ⟨as ++ bs.map (Token.down d), q.down d, .empty, []⟩ = .ok (fs ++ gs) w) ∧
    (∀ e v, parse k program ⟨bs, q, .empty, []⟩ = .error e v → e ≠ .fault .outOfFuel →
      ∃ w, parse (m + fs.length) program
        ⟨as ++ bs.map (Token.down d), q.down d, .empty, []⟩ =
          .error (e.map (Diagnostic.down d)) w) := by
  have hfirst : Moved id (.functions (bs.map (Token.down d)) (q.down d)) ⟨as, p, .empty, []⟩
      ⟨as ++ bs.map (Token.down d), q.down d, .empty, []⟩ :=
    ⟨by simp [Token.move_id, Sequel.tokens], rfl, rfl⟩
  have hq : (Sequel.functions (bs.map (Token.down d)) (q.down d)).Starts := by
    simpa [Sequel.Starts, Sequel.tokens] using hstart
  obtain ⟨log, hjoin⟩ := parse_program_before hq hs has rfl hfirst hn
  have hsecond : Moved (Position.down d) .nothing ⟨bs, q, .empty, []⟩
      ⟨bs.map (Token.down d), q.down d, .empty, log⟩ :=
    ⟨by simp [Token.move_down, Sequel.tokens], rfl, rfl⟩
  have hcopies := parse_program_copies hk hsecond
  rw [hjoin]
  simp only [Functor.map, EStateM.map]
  constructor
  · intro gs v hgs
    obtain ⟨w, hw, -⟩ := hcopies.ok hgs
    exact ⟨w, by rw [hw]⟩
  · intro e v he hne
    obtain ⟨w, hw⟩ := hcopies.error rfl he hne
    refine ⟨w, ?_⟩
    rw [hw]
    rfl

end Phrase

namespace Program

/-- Tokens of a program in front of those of a second one, which stand `d` lines further down. -/
theorem ofTokens_append {as bs : List Token} (has : ∀ t ∈ as, t.kind ≠ .eof)
    (hbs : ∀ t ∈ bs, t.kind ≠ .eof) {p q : Position} {a : Program} {d : Nat}
    (ha : ofTokens (as ++ [Token.eof p]) = .ok a)
    (hstart : ∀ t ∈ bs.head?, t.kind = .keyword .func) :
    ofTokens (as ++ (bs ++ [Token.eof q]).map (Token.down d)) =
      match ofTokens (bs ++ [Token.eof q]) with
      | .ok b => .ok ⟨a.functions ++ b.functions⟩
      | .error e => .error (e.map (Diagnostic.down d)) := by
  have hall : as ++ (bs ++ [Token.eof q]).map (Token.down d) =
      (as ++ bs.map (Token.down d)) ++ [Token.eof (q.down d)] := by
    simp [Token.down, Token.eof]
  have hkinds : ∀ t ∈ as ++ bs.map (Token.down d), t.kind ≠ .eof := by
    intro t ht
    rcases List.mem_append.mp ht with ht | ht
    · exact has t ht
    · obtain ⟨t', ht', rfl⟩ := List.mem_map.mp ht
      exact hbs t' ht'
  obtain ⟨s, hs⟩ := ofTokens_eq_ok.mp ha
  rw [Parser.State.ofTokens_eof has] at hs
  have hlength := (Phrase.parse_program_isProgram has hs).length_le
  -- once the functions of the first program are read, there is still fuel enough for the second
  obtain ⟨m, hm⟩ : ∃ m, Phrase.fuel (as ++ bs.map (Token.down d) ++ [Token.eof (q.down d)]) =
      m + a.functions.length ∧ Phrase.fuel (bs ++ [Token.eof q]) ≤ m := by
    refine ⟨_, (Nat.sub_add_cancel ?_).symm, ?_⟩ <;>
    · simp only [Phrase.fuel, List.length_append, List.length_map, List.length_cons] at hlength ⊢
      omega
  have hn : Phrase.fuel (as ++ [Token.eof p]) ≤ m + a.functions.length := by
    rw [← hm.1]
    simp only [Phrase.fuel, List.length_append, List.length_map, List.length_cons]
    omega
  obtain ⟨hok, herror⟩ := Phrase.parse_program_append has hstart hs hn hm.2
  rw [hall]
  cases hb : ofTokens (bs ++ [Token.eof q]) with
  | ok b =>
    obtain ⟨v, hv⟩ := ofTokens_eq_ok.mp hb
    rw [Parser.State.ofTokens_eof hbs] at hv
    rw [ofTokens_eq_ok, Parser.State.ofTokens_eof hkinds, hm.1]
    exact hok _ v hv
  | error e =>
    obtain ⟨v, hv⟩ := ofTokens_eq_error.mp hb
    rw [Parser.State.ofTokens_eof hbs] at hv
    have hne : e ≠ .fault .outOfFuel := by
      rintro rfl
      exact ofTokens_ne_outOfFuel _ hb
    rw [ofTokens_eq_error, Parser.State.ofTokens_eof hkinds, hm.1]
    exact herror e v hv hne

/-- How many labels the code of a program defines. -/
def labelCount (p : Program) : Nat := (p.routines.flatMap fun r => Instr.labels r.code).length

theorem routines_append (p q : Program) :
    (Program.mk (p.functions ++ q.functions)).routines =
      p.routines ++ q.routines.map (Routine.raise p.labelCount) := by
  have hcount : p.labelCount = (Routine.ofFunctions p.functions 0).2 := by
    have h := (Routine.ofFunctions_labels p.functions 0).perm.length_eq
    simpa [labelCount, routines] using h
  have hraise := Routine.ofFunctions_raise p.labelCount q.functions 0
  rw [Nat.add_zero] at hraise
  simp only [routines, Routine.ofFunctions_append, ← hcount, hraise]

end Program

theorem Position.after_newline (cs : List Char) :
    (Position.start.after cs).next '\n' = Position.start.down (1 + cs.count '\n') := by
  have h := Position.start.line_after cs
  simp only [Position.next, Position.down, Position.start] at h ⊢
  simp [h]
  omega

/-- The tokens of two texts joined by a newline. -/
theorem Token.ofSource_newline {a b : String} {ts us : List Token} (ha : ofSource a = .ok ts)
    (hb : ofSource b = .ok us) : ∃ as p bs q, ts = as ++ [eof p] ∧ us = bs ++ [eof q] ∧
      (∀ t ∈ as, t.kind ≠ .eof) ∧ (∀ t ∈ bs, t.kind ≠ .eof) ∧
      ofSource (a ++ "\n" ++ b) = .ok (as ++ us.map (down (1 + a.toList.count '\n'))) := by
  obtain ⟨as, has, hkinds, hrest⟩ := scan_append ha (Nat.zero_le _)
  obtain ⟨bs, hbs, hkinds', -⟩ := scan_append hb (Nat.zero_le _)
  refine ⟨as, _, bs, _, has, hbs, hkinds, hkinds', ?_⟩
  have htext : (a ++ "\n" ++ b).toList = a.toList ++ '\n' :: b.toList := by simp
  rw [ofSource, ofText, htext, hrest, Position.after_newline, scan_down _ hb]
  rfl

/-- Two accepted source texts joined by a newline compile to the functions of the first followed by
those of the second, and to their code with the labels of the second counted on from those of the
first. If the second text starts with a function and cannot be read, the joined text is rejected for
the same reason, found as many lines further down as the first text and the newline take. -/
theorem Program.ofSource_join {a b : String} {p : Program} (ha : ofSource a = .ok p) :
    (∀ q, ofSource b = .ok q → ∃ r, ofSource (a ++ "\n" ++ b) = .ok r ∧
      r.functions = p.functions ++ q.functions ∧
      r.routines = p.routines ++ q.routines.map (Routine.raise p.labelCount)) ∧
    (∀ t ts e, Token.ofSource b = .ok (t :: ts) → t.kind = .keyword .func → ofSource b = .error e →
      ofSource (a ++ "\n" ++ b) = .error (e.map (Diagnostic.down (1 + a.toList.count '\n')))) := by
  obtain ⟨ts, hts, hp⟩ := exists_tokens_of_ofSource ha
  constructor
  · intro q hq
    obtain ⟨us, hus, hq⟩ := exists_tokens_of_ofSource hq
    obtain ⟨as, i, bs, j, rfl, rfl, has, hbs, hjoin⟩ := Token.ofSource_newline hts hus
    have hstart : ∀ t ∈ bs.head?, t.kind = .keyword .func := by
      obtain ⟨s, hs⟩ := ofTokens_eq_ok.mp hq
      rw [Parser.State.ofTokens_eof hbs] at hs
      exact (Phrase.parse_program_isProgram hbs hs).starts
    refine ⟨⟨p.functions ++ q.functions⟩, ?_, rfl, routines_append p q⟩
    rw [ofSource_of_tokens hjoin, ofTokens_append has hbs hp hstart, hq]
  · intro t us e hus ht he
    obtain ⟨as, i, bs, j, rfl, hbs', has, hbs, hjoin⟩ := Token.ofSource_newline hts hus
    have hstart : ∀ t ∈ bs.head?, t.kind = .keyword .func := by
      cases bs with
      | nil => simp
      | cons t' bs =>
        cases hbs'
        simpa using ht
    rw [ofSource_of_tokens hus] at he
    rw [ofSource_of_tokens hjoin, hbs', ofTokens_append has hbs hp hstart, ← hbs', he]

/-- The first text ends in a comment and defines two labels; of the texts behind it, one is a loop and
one declares `x` twice. -/
theorem Program.ofSource_join_of_labels :
    let a := "fun f(x) = if x 1\n  else 2 ;;; no more"
    let b := "fun g(x) = while x x"
    let c := "fun g() = \x7b var x;\n  var x; \x7d"
    let p : Program :=
      ⟨[⟨"f", 1, .last (.ifElse (.fetch 0) (.last (.literal "1")) (.last (.literal "2")))⟩]⟩
    let q : Program := ⟨[⟨"g", 1, .last (.loop (.fetch 0) (.last (.fetch 0)))⟩]⟩
    ofSource a = .ok p ∧ ofSource b = .ok q ∧
    (∃ r, ofSource (a ++ "\n" ++ b) = .ok r ∧ r.functions = p.functions ++ q.functions ∧
      r.routines = p.routines ++ q.routines.map (Routine.raise 2)) ∧
    ofSource c = .error (.found ⟨.alreadyDeclared "x", ⟨2, 7⟩⟩) ∧
    ofSource (a ++ "\n" ++ c) = .error (.found ⟨.alreadyDeclared "x", ⟨4, 7⟩⟩) := by
  intro a b c p q
  have ha : ofSource a = .ok p := by decide +kernel
  have hb : ofSource b = .ok q := by decide +kernel
  have hc : ofSource c = .error (.found ⟨.alreadyDeclared "x", ⟨2, 7⟩⟩) := by decide +kernel
  have hcount : p.labelCount = 2 := by decide +kernel
  have hfirst : ((Token.ofSource c).toOption.getD []).head?.map Token.kind = some (.keyword .func) := by
    decide +kernel
  refine ⟨ha, hb, ?_, hc, ?_⟩
  · rw [← hcount]
    exact (Program.ofSource_join ha).1 q hb
  · cases hts : Token.ofSource c with
    | ok ts =>
      rw [hts] at hfirst
      obtain ⟨t, ht, hkind⟩ := Option.map_eq_some_iff.mp hfirst
      obtain ⟨us, rfl⟩ := List.head?_eq_some_iff.mp ht
      have hlines : a.toList.count '\n' = 1 := by decide +kernel
      have h := (Program.ofSource_join ha).2 t us _ hts hkind hc
      rwa [hlines] at h
    | error d =>
      rw [hts] at hfirst
      cases hfirst

end Morpho
