import Morpho.Proofs.Fuel

/-! Reading a token list always ends, with a program or with a finding about the list. Readers only go
forward and stop at the first end of the file, and every scope that is closed or written to is open. -/
namespace Morpho

namespace Parser

variable {α β : Type}

/-- `t` stands where `s` does, or further on. -/
structure State.Follows (t s : State) : Prop where
  tokens : t.tokens <:+ s.tokens
  stop : t.stop = s.stop

namespace State.Follows

variable {s t u : State}

theorem refl (s : State) : s.Follows s := ⟨List.suffix_rfl, rfl⟩

theorem trans (h : u.Follows t) (h' : t.Follows s) : u.Follows s :=
  ⟨h.tokens.trans h'.tokens, h.stop.trans h'.stop⟩

theorem tail (s : State) : State.Follows { s with tokens := s.tokens.tail } s :=
  ⟨List.tail_suffix _, rfl⟩

end State.Follows

/-- The innermost `n` scopes lie upon `rest`. -/
def Upon (n : Nat) (rest : List Scope) (scopes : Scopes) : Prop :=
  ∃ inner, scopes.stack = inner ++ rest ∧ inner.length = n

/-- From `s` on, `x` only goes forward. A success leaves `n` scopes upon `rest`, and a failure is a
finding unless the fuel is spent. -/
structure Safe (n : Nat) (rest : List Scope) (x : Parser α) (s : State) : Prop where
  ok : ∀ {a t}, x s = .ok a t → t.Follows s ∧ Upon n rest t.scopes
  error : ∀ {e t}, x s = .error e t → t.Follows s ∧ ∀ f, e = .fault f → f = .outOfFuel

namespace Safe

variable {m n : Nat} {rest under : List Scope} {s t : State}

theorem of_eq {x y : Parser α} (h : Safe n rest x t) (hy : y s = x t) (ht : t.Follows s) :
    Safe n rest y s where
  ok hs := by
    obtain ⟨hu, hscopes⟩ := h.ok (hy ▸ hs)
    exact ⟨hu.trans ht, hscopes⟩
  error hs := by
    obtain ⟨hu, hfault⟩ := h.error (hy ▸ hs)
    exact ⟨hu.trans ht, hfault⟩

theorem finish {x : Parser α} {a : α} (hx : x s = .ok a t) (ht : t.Follows s)
    (h : Upon n rest t.scopes) : Safe n rest x s where
  ok hs := by
    cases hx.symm.trans hs
    exact ⟨ht, h⟩
  error hs := by cases hx.symm.trans hs

theorem fails {x : Parser α} {d : Diagnostic} (hx : x s = .error (.found d) s) :
    Safe n rest x s where
  ok hs := by cases hx.symm.trans hs
  error hs := by
    cases hx.symm.trans hs
    exact ⟨.refl s, nofun⟩

theorem bind {x : Parser α} {f : α → Parser β} (hx : Safe m under x s)
    (hf : ∀ a t, Upon m under t.scopes → Safe n rest (f a) t) : Safe n rest (x >>= f) s := by
  cases h : x s with
  | ok a t =>
    obtain ⟨ht, hscopes⟩ := hx.ok h
    refine (hf a t hscopes).of_eq ?_ ht
    simp only [Bind.bind, EStateM.bind, h]
  | error e t =>
    have hbind : (x >>= f) s = .error e t := by simp only [Bind.bind, EStateM.bind, h]
    constructor
    · intro b u hb
      cases hbind.symm.trans hb
    · intro e' u hu
      cases hbind.symm.trans hu
      exact hx.error h

theorem openScope (h : Upon n rest s.scopes) : Safe (n + 1) rest openScope s := by
  obtain ⟨inner, hstack, hlength⟩ := h
  refine finish rfl ⟨List.suffix_rfl, rfl⟩ ⟨[] :: inner, ?_, by simp [hlength]⟩
  exact congrArg ([] :: ·) hstack

theorem closeScope (h : Upon (n + 1) rest s.scopes) : Safe n rest closeScope s := by
  obtain ⟨inner, hstack, hlength⟩ := h
  cases inner with
  | nil => cases hlength
  | cons x inner =>
    have hpop : s.scopes.pop = .ok (x, ⟨inner ++ rest⟩) := by rw [Scopes.pop, hstack]; rfl
    refine finish (by rw [Parser.closeScope, hpop]) ?_ ?_
    · exact ⟨List.suffix_rfl, rfl⟩
    · exact ⟨inner, rfl, Nat.succ.inj hlength⟩

theorem declare (t : Token) (h : Upon (n + 1) rest s.scopes) : Safe (n + 1) rest (declare t) s := by
  obtain ⟨inner, hstack, hlength⟩ := h
  cases inner with
  | nil => cases hlength
  | cons x inner =>
    by_cases hx : (x.lookup t.lexeme).isSome = true
    · have hbind : s.scopes.bind t.lexeme = .error (.found (.alreadyDeclared t.lexeme)) := by
        rw [Scopes.bind, hstack]
        exact if_pos hx
      have hs : Parser.declare t s = .error (.found ⟨.alreadyDeclared t.lexeme, t.pos⟩) s := by
        rw [Parser.declare, hbind]
        rfl
      exact fails hs
    · have hbind : s.scopes.bind t.lexeme =
          .ok (s.scopes.count, ⟨((t.lexeme, s.scopes.count) :: x) :: (inner ++ rest)⟩) := by
        rw [Scopes.bind, hstack]
        exact if_neg hx
      refine finish (by rw [Parser.declare, hbind]) ?_ ?_
      · exact ⟨List.suffix_rfl, rfl⟩
      · exact ⟨_ :: inner, rfl, by simpa using hlength⟩

theorem resolve (t : Token) (h : Upon n rest s.scopes) : Safe n rest (resolve t) s := by
  cases hfind : s.scopes.find t.lexeme with
  | ok slot => exact finish (by rw [Parser.resolve, hfind]) (.refl s) h
  | error c => exact fails (by rw [Parser.resolve, hfind])

end Safe

/-- If the phrases inside are read safely, so is the whole. -/
theorem Steps.safe {move : Position → Position} {x y : (p : Phrase) → Parser p.Tree}
    (hx : ∀ p s rest, p ≠ .program → Upon p.around rest s.scopes → Safe p.around rest (x p) s)
    {home seen limit opened : Nat} {a b : Parser α}
    (h : Steps (fun _ => True) move x y home seen limit opened a b) (hlimit : limit ≤ 16) :
    ∀ {s : State} {rest : List Scope}, Upon opened rest s.scopes → Safe home rest a s := by
  induction h with
  | finish a =>
    intro s rest hs
    exact .finish rfl (.refl s) hs
  | fails hw =>
    intro s rest _
    exact .fails rfl
  | @current seen limit opened f g some none ih =>
    intro s rest hs
    by_cases hend : s.current.kind = .eof
    · obtain ⟨w, -, hf, -⟩ := none s.current hend
      have hfail : (Parser.current >>= f) s = .error (.found (s.current.diagnostic w)) s := by
        change f s.current s = _
        rw [hf]
        rfl
      exact .fails hfail
    · exact (ih s.current trivial hend hlimit hs).of_eq rfl (.refl s)
  | @check seen limit opened k f g _ yes no ihyes ihno =>
    intro s rest hs
    by_cases hkind : s.current.kind = k
    · exact (ihyes hlimit hs).of_eq (check_bind_of_kind hkind) (.refl s)
    · exact (ihno hlimit hs).of_eq (check_bind_of_ne hkind) (.refl s)
  | @checkSecond seen limit opened k f g _ _ yes no ihyes ihno =>
    intro s rest hs
    cases hsecond : s.tokens[1]?.any (·.kind = k) with
    | true => exact (ihyes hlimit hs).of_eq (checkSecond_bind hsecond) (.refl s)
    | false => exact (ihno hlimit hs).of_eq (checkSecond_bind hsecond) (.refl s)
  | glance h ih =>
    intro s rest hs
    exact (ih _ true hlimit hs).of_eq rfl (.refl s)
  | advance h ih =>
    intro s rest hs
    have htail := ih s.current trivial (Nat.le_refl 16) (s := { s with tokens := s.tokens.tail }) hs
    exact htail.of_eq rfl (.tail s)
  | @expect seen limit opened k f g _ h ih =>
    intro s rest hs
    by_cases hkind : s.current.kind = k
    · have htail := ih s.current trivial (Nat.le_refl 16) (s := { s with tokens := s.tokens.tail }) hs
      exact htail.of_eq (expect_bind_of_kind hkind) (.tail s)
    · exact .fails (expect_bind_of_ne hkind)
  | openScope h ih =>
    intro s rest hs
    exact .bind (.openScope hs) fun _ t ht => ih hlimit ht
  | closeScope h ih =>
    intro s rest hs
    exact .bind (.closeScope hs) fun _ t ht => ih hlimit ht
  | declare _ h ih =>
    intro s rest hs
    exact .bind (.declare _ hs) fun _ t ht => ih hlimit ht
  | resolve _ h ih =>
    intro s rest hs
    exact .bind (.resolve _ hs) fun slot t ht => ih slot hlimit ht
  | tell e h ih =>
    intro s rest hs
    have htold := ih hlimit (s := { s with log := e :: s.log }) hs
    exact htold.of_eq rfl ⟨List.suffix_rfl, rfl⟩
  | @read seen limit opened p f g hp h ih =>
    intro s rest hs
    -- the phrase inside counts on some of the scopes only, and leaves the others below
    obtain ⟨inner, hstack, hlength⟩ := hs
    have hsplit := List.take_append_drop p.around inner
    have hupon : Upon p.around (inner.drop p.around ++ rest) s.scopes := by
      refine ⟨inner.take p.around, ?_, ?_⟩
      · rw [hstack, ← List.append_assoc, hsplit]
      · rw [List.length_take, hlength]
        exact Nat.min_eq_left hp.2
    refine .bind (hx p s _ (Phrase.ne_program_of_rank hp.1 hlimit) hupon) fun a t ht => ?_
    obtain ⟨front, hfront, hcount⟩ := ht
    refine ih a hlimit ⟨front ++ inner.drop p.around, ?_, ?_⟩
    · rw [hfront, List.append_assoc]
    · rw [List.length_append, List.length_drop, hcount, hlength]
      exact Nat.add_sub_cancel' hp.2

end Parser

namespace Grammar

theorem IsNames.ne_nil {ts : List Token} {n : Nat} (h : IsNames ts n) : ts ≠ [] := by
  cases h <;> exact nofun

theorem IsFunction.ne_nil {ts : List Token} {f : Function} (h : IsFunction ts f) : ts ≠ [] := by
  cases h
  exact nofun

theorem IsIf.ne_nil {ts : List Token} {e : Expr} (h : IsIf ts e) : ts ≠ [] := by
  cases h <;> exact nofun

theorem IsSmall.ne_nil {ts : List Token} {e : Expr} (h : IsSmall ts e) : ts ≠ [] := by
  cases h with
  | cond h => exact h.ne_nil
  | _ => exact nofun

theorem IsBinary.ne_nil : ∀ {c : Option OpClass} {ts : List Token} {e : Expr}, IsBinary c ts e → ts ≠ []
  | _, _, _, .left .. | _, _, _, .right .. => by simp
  | _, _, _, .tighter h => h.ne_nil
  | _, _, _, .small h => h.ne_nil

theorem IsNegation.ne_nil {ts : List Token} {e : Expr} (h : IsNegation ts e) : ts ≠ [] := by
  cases h with
  | not => exact nofun
  | binary h => exact h.ne_nil

theorem IsConjunction.ne_nil {ts : List Token} {e : Expr} (h : IsConjunction ts e) : ts ≠ [] := by
  cases h with
  | negation h => exact h.ne_nil
  | and => simp

theorem IsDisjunction.ne_nil {ts : List Token} {e : Expr} (h : IsDisjunction ts e) : ts ≠ [] := by
  cases h with
  | conjunction h => exact h.ne_nil
  | or => simp

theorem IsExpr.ne_nil {ts : List Token} {e : Expr} (h : IsExpr ts e) : ts ≠ [] := by
  cases h with
  | disjunction h => exact h.ne_nil
  | _ => exact nofun

theorem IsVars.ne_nil {ts : List Token} {b : Body} (h : IsVars ts b) : ts ≠ [] := by
  cases h with
  | one h => cases h <;> exact nofun
  | more => simp

theorem IsBody.ne_nil {ts : List Token} {b : Body} (h : IsBody ts b) : ts ≠ [] := by
  cases h with
  | bare h => exact h.ne_nil
  | braces => exact nofun

end Grammar

/-- Phrases that at least one token is read for. -/
def Phrase.takes : Phrase → Bool
  | program | params | chain _ => false
  | _ => true

theorem Phrase.Sentence.ne_nil {p : Phrase} (hp : p.takes = true) {ts : List Token} {a : p.Tree}
    (h : p.Sentence ts a) : ts ≠ [] := by
  cases p with
  | program | params | chain => cases hp
  | function => exact Grammar.IsFunction.ne_nil h
  | paramList => exact Grammar.IsNames.ne_nil h
  | body => exact Grammar.IsBody.ne_nil h
  | expr => exact Grammar.IsExpr.ne_nil h
  | declarations => exact Grammar.IsVars.ne_nil h
  | disjunction => exact Grammar.IsDisjunction.ne_nil h
  | conjunction => exact Grammar.IsConjunction.ne_nil h
  | negation => exact Grammar.IsNegation.ne_nil h
  | binary => exact Grammar.IsBinary.ne_nil h
  | small => exact Grammar.IsSmall.ne_nil h
  | statements | arguments | argumentList =>
    -- the last token closes the phrase
    obtain ⟨us, r, rfl, -⟩ := h
    simp

namespace Phrase

open Morpho.Parser

theorem parse_zero_safe (p : Phrase) (n : Nat) (rest : List Scope) (s : State) :
    Safe n rest (parse 0 p) s := by
  have hs : parse 0 p s = .error (.fault .outOfFuel) s := by
    rw [parse]
    rfl
  constructor
  · intro a t h
    cases hs.symm.trans h
  · intro e t h
    cases hs.symm.trans h
    refine ⟨.refl s, ?_⟩
    rintro _ ⟨⟩
    rfl

theorem parse_inner_safe (n : Nat) (p : Phrase) (s : State) (rest : List Scope) (hp : p ≠ program)
    (hs : Upon p.around rest s.scopes) : Safe p.around rest (parse n p) s := by
  induction n generalizing p s rest with
  | zero => exact parse_zero_safe p _ rest s
  | succ n ih => exact (parse_steps _ id n n hp).safe ih p.rank_le hs

theorem parse_program_safe (n : Nat) (s : State) (rest : List Scope) (hs : Upon 0 rest s.scopes) :
    Safe 0 rest (parse n program) s := by
  induction n generalizing s with
  | zero => exact parse_zero_safe program _ rest s
  | succ n ih =>
    by_cases hend : s.current.kind = .eof
    · exact .finish (parse_program_end hend) (.refl s) hs
    · refine Safe.of_eq ?_ (parse_program_more hend) (.refl s)
      refine (parse_inner_safe n function s rest nofun hs).bind fun f t ht => ?_
      exact (ih t ht).bind fun fs u hu => .finish rfl (.refl u) hu

theorem parse_safe (n : Nat) (p : Phrase) (s : State) (rest : List Scope)
    (hs : Upon p.around rest s.scopes) : Safe p.around rest (parse n p) s := by
  by_cases hp : p = program
  · subst hp
    exact parse_program_safe n s rest hs
  · exact parse_inner_safe n p s rest hp hs

theorem le_of_outOfFuel {n : Nat} {p : Phrase} {s t : State}
    (h : parse n p s = .error (.fault .outOfFuel) t) : n ≤ 16 * s.tokens.length + p.rank := by
  by_contra hn
  have hends : Ends (parse n p) s := by
    by_cases hp : p = program
    · subst hp
      exact parse_program_ends n s (by simp only [rank] at hn; omega)
    · exact parse_ends n p s hp (by omega)
  simp only [Ends, h] at hends
  exact hends rfl

theorem length_lt_of_takes {n : Nat} {p : Phrase} {s t : State} {a : p.Tree} (hp : p.takes = true)
    (h : parse n p s = .ok a t) : t.tokens.length < s.tokens.length := by
  have hprogram : p ≠ program := by
    rintro rfl
    cases hp
  obtain ⟨ts, hts, hsentence⟩ := parse_takes n p hprogram s a t List.nil_prefix h
  have hpos := List.length_pos_iff.mpr (Sentence.ne_nil hp hsentence)
  rw [List.nil_append] at hpos
  rw [hts, List.length_append]
  omega

end Phrase

/-- The tokens that are read: those of the list, and an end of the file if the list has none at its
end. -/
def Token.withEof (ts : List Token) : List Token :=
  match ts.getLast? with
  | some t => if t.kind = .eof then ts else ts ++ [.eof t.stop]
  | none => [.eof .start]

namespace Parser.State

/-- `s` stands at place `i` of the token vector. -/
structure At (vector : List Token) (i : Nat) (s : State) : Prop where
  /-- The place has a token, and that is the one to be read. -/
  token : ∃ t, vector[i]? = some t ∧ s.current.kind = t.kind ∧ s.current.pos = t.pos ∧
    s.current.description = t.description
  /-- No end of the file was passed. -/
  before : ∀ t ∈ vector.take i, t.kind ≠ .eof
  left : ∀ t ∈ s.tokens, t.kind ≠ .eof
  /-- Behind the tokens left comes the end of the file. -/
  stop : ∃ e, s.tokens ++ [e] <+: vector.drop i ∧ e.kind = .eof ∧ e.pos = s.stop

namespace At

variable {vector : List Token} {i : Nat} {s t : State}

theorem of_stop (hbefore : ∀ t ∈ vector.take i, t.kind ≠ .eof)
    (hleft : ∀ t ∈ s.tokens, t.kind ≠ .eof) {e : Token} (hstop : s.tokens ++ [e] <+: vector.drop i)
    (he : e.kind = .eof) (hpos : e.pos = s.stop) : s.At vector i := by
  refine ⟨?_, hbefore, hleft, e, hstop, he, hpos⟩
  obtain ⟨after, hafter⟩ := hstop
  have hget : vector[i]? = (s.tokens ++ [e] ++ after)[0]? := by
    rw [hafter, List.getElem?_drop, Nat.add_zero]
  cases htokens : s.tokens with
  | nil =>
    refine ⟨e, by rw [hget, htokens]; rfl, ?_⟩
    simp [State.current, htokens, Token.eof, Token.description, he, hpos]
  | cons t ts =>
    refine ⟨t, by rw [hget, htokens]; rfl, ?_⟩
    simp [State.current, htokens]

/-- Whoever goes forward stays in the vector. -/
theorem of_follows (hs : s.At vector i) (ht : t.Follows s) :
    ∃ j, t.At vector j ∧ i ≤ j ∧ (t.tokens.length < s.tokens.length → i < j) := by
  obtain ⟨taken, htaken⟩ := ht.tokens
  obtain ⟨e, ⟨after, hafter⟩, he, hpos⟩ := hs.stop
  have hleft : ∀ u ∈ taken ++ t.tokens, u.kind ≠ .eof := htaken ▸ hs.left
  rw [← htaken, List.append_assoc, List.append_assoc] at hafter
  have htake : vector.take (i + taken.length) = vector.take i ++ taken := by
    rw [List.take_add, ← hafter, List.take_left]
  have hdrop : vector.drop (i + taken.length) = t.tokens ++ ([e] ++ after) := by
    rw [← List.drop_drop, ← hafter, List.drop_left]
  refine ⟨i + taken.length, ?_, Nat.le_add_right _ _, ?_⟩
  · apply of_stop (e := e)
    · rw [htake]
      exact List.forall_mem_append.mpr ⟨hs.before, (List.forall_mem_append.mp hleft).1⟩
    · exact (List.forall_mem_append.mp hleft).2
    · exact ⟨after, by rw [hdrop, List.append_assoc]⟩
    · exact he
    · rw [hpos, ht.stop]
  · intro hlt
    rw [← htaken, List.length_append] at hlt
    omega

end At

/-- Reading starts at the first token of the vector. -/
theorem at_ofTokens (ts : List Token) : (ofTokens ts).At (Token.withEof ts) 0 := by
  have hleft : ∀ t ∈ (ofTokens ts).tokens, t.kind ≠ .eof := by
    intro t ht
    simpa using List.mem_takeWhile_imp ht
  cases hfind : ts.find? (·.kind = .eof) with
  | some e =>
    obtain ⟨he, before, after, rfl, hbefore⟩ := List.find?_eq_some_iff_append.mp hfind
    have hkind : e.kind = .eof := by simpa using he
    have htokens : (ofTokens (before ++ e :: after)).tokens = before := by
      have hall : ∀ t ∈ before, decide (t.kind ≠ .eof) = true := by simpa using hbefore
      rw [ofTokens, List.takeWhile_append_of_pos hall]
      simp [hkind]
    have hvector : before ++ e :: after <+: Token.withEof (before ++ e :: after) := by
      unfold Token.withEof
      split
      · split
        · exact List.prefix_rfl
        · exact List.prefix_append _ _
      · next hnone => simp at hnone
    refine .of_stop (by simp) hleft (e := e) ?_ hkind ?_
    · rw [htokens, List.drop_zero]
      exact List.IsPrefix.trans ⟨after, by simp⟩ hvector
    · rw [ofTokens, stopOf, hfind]
  | none =>
    have hall : ∀ t ∈ ts, decide (t.kind ≠ .eof) = true := by simpa using List.find?_eq_none.mp hfind
    have htokens : (ofTokens ts).tokens = ts := by rw [ofTokens, List.takeWhile_eq_self_iff.mpr hall]
    refine .of_stop (by simp) hleft (e := .eof (stopOf ts)) ?_ rfl rfl
    rw [htokens, List.drop_zero]
    unfold Token.withEof stopOf
    rw [hfind]
    cases hlast : ts.getLast? with
    | none =>
      rw [List.getLast?_eq_none_iff.mp hlast]
      exact List.prefix_rfl
    | some t =>
      have hkind : t.kind ≠ .eof := by simpa using hall t (List.mem_of_getLast? hlast)
      simp [hkind]

end Parser.State

namespace Phrase

open Morpho.Parser

/-- How reading the phrase at place `i` of the vector can end. -/
def Outcome (vector : List Token) (i n : Nat) (p : Phrase) (s : State) :
    EStateM.Result (Failure Diagnostic) State p.Tree → Prop
  | .ok _ t => ∃ j, t.At vector j ∧ i ≤ j ∧ (p.takes = true → i < j) ∧ t.scopes.depth = s.scopes.depth
  | .error e t => (∃ j, t.At vector j ∧ i ≤ j) ∧
    ∀ f, e = .fault f → f = .outOfFuel ∧ n ≤ 16 * s.tokens.length + p.rank

theorem outcome_parse {vector : List Token} {i n : Nat} {p : Phrase} {s : State} (hs : s.At vector i)
    (hscopes : p.around ≤ s.scopes.depth) : Outcome vector i n p s (parse n p s) := by
  have hupon : Upon p.around (s.scopes.stack.drop p.around) s.scopes := by
    refine ⟨s.scopes.stack.take p.around, by simp, ?_⟩
    rw [List.length_take]
    exact Nat.min_eq_left hscopes
  have hsafe := parse_safe n p s _ hupon
  cases h : parse n p s with
  | ok a t =>
    obtain ⟨ht, inner, hstack, hlength⟩ := hsafe.ok h
    obtain ⟨j, hj, hle, hlt⟩ := hs.of_follows ht
    refine ⟨j, hj, hle, fun hp => hlt (length_lt_of_takes hp h), ?_⟩
    rw [Scopes.depth, hstack, List.length_append, hlength, List.length_drop]
    exact Nat.add_sub_cancel' hscopes
  | error e t =>
    obtain ⟨ht, hfault⟩ := hsafe.error h
    obtain ⟨j, hj, hle, -⟩ := hs.of_follows ht
    refine ⟨⟨j, hj, hle⟩, ?_⟩
    rintro f rfl
    obtain rfl := hfault f rfl
    exact ⟨rfl, le_of_outOfFuel h⟩

end Phrase

namespace Program

open Morpho.Parser

theorem ofTokens_ne_fault (ts : List Token) (f : Fault) : ofTokens ts ≠ .error (.fault f) := by
  intro h
  obtain ⟨s, hs⟩ := ofTokens_eq_error.mp h
  have hsafe := Phrase.parse_safe (Phrase.fuel ts) .program (.ofTokens ts) [] ⟨[], rfl, rfl⟩
  obtain rfl := (hsafe.error hs).2 f rfl
  exact ofTokens_ne_outOfFuel ts h

/-- Every token list is read as a program, or something is found wrong with it. All the while the
reader stays in the token vector and passes no end of the file, wherever it starts, whatever phrase it
reads and however the reading ends. Every phrase with a first token takes one. No scope is closed or
written to that is not open: the scopes open at the start of a phrase are open again at its end. No body
is empty, and a class of operators has a number from one to seven. -/
theorem ofTokens_total (ts : List Token) :
    ((∃ p, ofTokens ts = .ok p) ∨ ∃ d, ofTokens ts = .error (.found d)) ∧
    (State.ofTokens ts).At (Token.withEof ts) 0 ∧
    (∀ (n : Nat) (p : Phrase) (s : State) (i : Nat), s.At (Token.withEof ts) i →
      p.around ≤ s.scopes.depth →
      Phrase.Outcome (Token.withEof ts) i n p s (Phrase.parse n p s)) ∧
    (∀ b : Body, b.toList ≠ [] ∧ Body.ofList? b.toList = some b) ∧
    (∀ (level : Nat) (c : OpClass), OpClass.ofNumber? level = some c →
      level = c.number ∧ 1 ≤ level ∧ level ≤ 7) := by
  refine ⟨?_, State.at_ofTokens ts, fun n p s i => Phrase.outcome_parse, ?_, ?_⟩
  · cases h : ofTokens ts with
    | ok p => exact .inl ⟨p, rfl⟩
    | error e =>
      cases e with
      | fault f => exact absurd h (ofTokens_ne_fault ts f)
      | found d => exact .inr ⟨d, rfl⟩
  · intro b
    refine ⟨?_, b.ofList?_toList⟩
    cases b <;> exact nofun
  · intro level c h
    unfold OpClass.ofNumber? at h
    split at h <;> cases h <;> decide

/-- The list breaks off at an end of the file in its middle, and its last token is a name that is none.
The literal at place 6 is still read as an expression. -/
theorem ofTokens_total_of_broken :
    let tok (k : Token.Kind) (lexeme : String) : Token := ⟨k, lexeme, .start⟩
    let ts := [tok (.keyword .func) "fun", tok .name "f", tok (.punct '(') "(", tok (.punct ')') ")",
      tok (.punct '=') "=", tok (.punct '{') "[", tok .literal "7", tok .eof "?", tok .name "+"]
    let s : State := ⟨[tok .literal "7"], .start, ⟨[[]]⟩, []⟩
    ofTokens ts = .error (.found ⟨.expected "';'" "end of file", .start⟩) ∧
    s.At (Token.withEof ts) 6 ∧ Phrase.expr.around ≤ s.scopes.depth ∧
    Phrase.Outcome (Token.withEof ts) 6 32 .expr s (Phrase.parse 32 .expr s) := by
  intro tok ts s
  have hparse : ofTokens ts = .error (.found ⟨.expected "';'" "end of file", .start⟩) := by
    decide +kernel
  have hat : s.At (Token.withEof ts) 6 := by
    refine .of_stop (e := tok .eof "?") ?_ ?_ ?_ rfl rfl <;> decide
  have hscopes : Phrase.expr.around ≤ s.scopes.depth := by decide
  exact ⟨hparse, hat, hscopes, (ofTokens_total ts).2.2.1 32 .expr s 6 hat hscopes⟩

end Program
end Morpho
