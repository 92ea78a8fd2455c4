import Morpho.Proofs.Grammar
import Morpho.Proofs.Runs
import Mathlib.Data.List.TakeWhile

/-! What the readers take is a phrase of the grammar, and what they give is its tree. -/
namespace Morpho

namespace Parser

variable {α β : Type}

/-- `x` leaves the tokens as they are. -/
def Keeps (x : Parser α) : Prop := ∀ s a s', x s = .ok a s' → s'.tokens = s.tokens

namespace Keeps

theorem openScope : Keeps openScope := by
  intro s a s' h
  cases h
  rfl

theorem closeScope : Keeps closeScope := by
  intro s a s' h
  simp only [Parser.closeScope] at h
  split at h <;> cases h
  rfl

theorem declare (t : Token) : Keeps (declare t) := by
  intro s a s' h
  simp only [Parser.declare] at h
  split at h <;> cases h
  rfl

theorem resolve (t : Token) : Keeps (resolve t) := by
  intro s a s' h
  simp only [Parser.resolve] at h
  split at h <;> cases h
  rfl

theorem tell (e : Log.Event) : Keeps (tell e) := by
  intro s a s' h
  cases h
  rfl

end Keeps

/-- Where the tokens `known` are next, `x` takes tokens that make up, behind the tokens `pre`, what
`P` says of them and of the result. -/
def Takes (P : List Token → α → Prop) (pre known : List Token) (x : Parser α) : Prop :=
  ∀ s a s', known <+: s.tokens → x s = .ok a s' → ∃ ts, s.tokens = ts ++ s'.tokens ∧ P (pre ++ ts) a

namespace Takes

variable {P : List Token → α → Prop} {pre known : List Token}

theorem finish {a : α} (h : P pre a) : Takes P pre known (pure a) := by
  intro s b s' _ hs
  obtain ⟨rfl, rfl⟩ := pure_eq_ok.mp hs
  exact ⟨[], rfl, by simpa using h⟩

theorem fails (wanted : String) : Takes P pre known (unexpected wanted) := by
  intro s a s' _ hs
  cases hs

/-- Less may be known than is. -/
theorem weaken {x : Parser α} (h : Takes P pre [] x) : Takes P pre known x :=
  fun s a s' _ hs => h s a s' List.nil_prefix hs

/-- A phrase inside takes tokens `ts` of its own. -/
theorem part {Q : List Token → β → Prop} {x : Parser β} {f : β → Parser α} (hx : Takes Q [] [] x)
    (h : ∀ ts b, Q ts b → Takes P (pre ++ ts) [] (f b)) : Takes P pre known (x >>= f) := by
  intro s a s' _ hs
  obtain ⟨b, t, hb, ha⟩ := bind_eq_ok.mp hs
  obtain ⟨ts, hts, hQ⟩ := hx s b t List.nil_prefix hb
  obtain ⟨us, hus, hP⟩ := h ts b hQ t a s' List.nil_prefix ha
  refine ⟨ts ++ us, ?_, ?_⟩
  · rw [hts, hus, List.append_assoc]
  · rw [← List.append_assoc]
    exact hP

theorem keeps {x : Parser β} {f : β → Parser α} (hx : Keeps x) (h : ∀ b, Takes P pre known (f b)) :
    Takes P pre known (x >>= f) := by
  intro s a s' hknown hs
  obtain ⟨b, t, hb, ha⟩ := bind_eq_ok.mp hs
  have ht := hx s b t hb
  rw [← ht] at hknown ⊢
  exact h b t a s' hknown ha

theorem check {k : Token.Kind} {f : Bool → Parser α} (hk : k ≠ .eof)
    (yes : ∀ t : Token, t.kind = k → Takes P pre [t] (f true)) (no : Takes P pre [] (f false)) :
    Takes P pre [] (check k >>= f) := by
  intro s a s' _ hs
  change f (decide (s.current.kind = k)) s = .ok a s' at hs
  by_cases h : s.current.kind = k
  · rw [decide_eq_true h] at hs
    obtain ⟨tokens, stop, scopes, log⟩ := s
    cases tokens with
    | nil => exact absurd h.symm hk
    | cons t ts => exact yes t h _ a s' (by simp) hs
  · rw [decide_eq_false h] at hs
    exact no s a s' List.nil_prefix hs

theorem checkSecond {k : Token.Kind} {t : Token} {f : Bool → Parser α}
    (yes : ∀ t' : Token, t'.kind = k → Takes P pre [t, t'] (f true))
    (no : Takes P pre [t] (f false)) : Takes P pre [t] (checkSecond k >>= f) := by
  intro s a s' hknown hs
  change f (s.tokens[1]?.any (·.kind = k)) s = .ok a s' at hs
  obtain ⟨ts, hts⟩ := hknown
  cases ts with
  | nil =>
    have hnone : s.tokens[1]? = none := by simp [← hts]
    rw [hnone] at hs
    exact no s a s' ⟨[], hts⟩ hs
  | cons t' ts =>
    have hsome : s.tokens[1]? = some t' := by simp [← hts]
    rw [hsome] at hs
    by_cases h : t'.kind = k
    · simp only [Option.any_some, h, decide_true] at hs
      exact yes t' h s a s' ⟨ts, hts⟩ hs
    · simp only [Option.any_some, h, decide_false] at hs
      exact no s a s' ⟨t' :: ts, hts⟩ hs

/-- The second token does not matter. -/
theorem checkSecond_any {k : Token.Kind} {f : Bool → Parser α} (h : ∀ b, Takes P pre known (f b)) :
    Takes P pre known (Parser.checkSecond k >>= f) := by
  intro s a s' hknown hs
  exact h _ s a s' hknown hs

theorem advance {t : Token} {f : Token → Parser α} (h : Takes P (pre ++ [t]) known (f t)) :
    Takes P pre (t :: known) (advance >>= f) := by
  intro s a s' hknown hs
  obtain ⟨tokens, stop, scopes, log⟩ := s
  obtain ⟨ts, hts⟩ := hknown
  obtain rfl : tokens = t :: (known ++ ts) := hts.symm
  obtain ⟨us, hus, hP⟩ := h _ a s' ⟨ts, rfl⟩ hs
  refine ⟨t :: us, ?_, ?_⟩
  · exact congrArg (t :: ·) hus
  · rw [List.append_cons]
    exact hP

theorem current {f : Token → Parser α} (some : ∀ t : Token, t.kind ≠ .eof → Takes P pre [t] (f t))
    (none : ∀ t : Token, t.kind = .eof → Takes P pre [] (f t)) :
    Takes P pre [] (current >>= f) := by
  intro s a s' _ hs
  change f s.current s = .ok a s' at hs
  by_cases h : s.current.kind = .eof
  · exact none s.current h s a s' List.nil_prefix hs
  · obtain ⟨tokens, stop, scopes, log⟩ := s
    cases tokens with
    | nil => exact absurd rfl h
    | cons t ts => exact some t h _ a s' (by simp) hs

theorem accept {k : Token.Kind} {f : Bool → Parser α} (hk : k ≠ .eof)
    (yes : ∀ t : Token, t.kind = k → Takes P (pre ++ [t]) [] (f true))
    (no : Takes P pre [] (f false)) : Takes P pre [] (accept k >>= f) := by
  rw [Parser.accept, bind_assoc]
  refine .check hk (fun t ht => ?_) (by simpa using no)
  have h : Takes P pre [t] (Parser.advance >>= fun _ => f true) := .advance (yes t ht)
  simpa using h

theorem expect {k : Token.Kind} {f : Token → Parser α} (hk : k ≠ .eof)
    (h : ∀ t : Token, t.kind = k → Takes P (pre ++ [t]) [] (f t)) :
    Takes P pre [] (expect k >>= f) := by
  rw [Parser.expect, bind_assoc]
  refine .check hk (fun t ht => .advance (h t ht)) ?_
  intro s a s' _ hs
  obtain ⟨_, _, hfail, -⟩ := bind_eq_ok.mp hs
  cases hfail

end Takes
end Parser

namespace Phrase

open Morpho.Parser Morpho.Grammar

/-- What the tokens that are read as a phrase are, with the tree that they are read as. A phrase that
goes on to a closing brace or parenthesis takes that as its last token, and a chain of operators makes
a longer binary expression out of any that stands before it. -/
def Sentence : (p : Phrase) → List Token → p.Tree → Prop
  | program => IsProgram
  | function => IsFunction
  | params => IsParams
  | paramList => IsNames
  | body _ => IsBody
  | statements => fun ts b => ∃ us r, ts = us ++ [r] ∧ IsStatements us b ∧ r.kind = .punct '}'
  | expr => IsExpr
  | declarations => IsVars
  | disjunction => IsDisjunction
  | conjunction => IsConjunction
  | negation => IsNegation
  | binary c => IsBinary c
  | chain c => fun ts ops => c ≠ .op2 → ∀ us e, IsBinary (some c) us e →
    IsBinary (some c) (us ++ ts) (fromLeft e ops)
  | small => IsSmall
  | arguments => fun ts es => ∃ us r, ts = us ++ [r] ∧ IsArgs us es ∧ r.kind = .punct ')'
  | argumentList => fun ts es => ∃ us r, ts = us ++ [r] ∧ IsExprs us es ∧ r.kind = .punct ')'

section

variable {n : Nat} (ih : ∀ p : Phrase, p ≠ program → Takes p.Sentence [] [] (parse n p))

include ih

theorem parse_function_takes : Takes function.Sentence [] [] (parse (n + 1) function) := by
  rw [parse]
  refine .expect nofun fun t ht => .expect nofun fun x hx => .keeps .openScope fun _ => ?_
  refine .expect nofun fun l hl => .part (ih params nofun) fun ts k hk => ?_
  refine .expect nofun fun r hr => .expect nofun fun q hq => ?_
  refine .part (ih (body false) nofun) fun us b hb => .keeps .closeScope fun _ => ?_
  refine .keeps (.tell _) fun _ => .finish ?_
  simpa [Sentence] using IsFunction.mk ht hx hl hk hr hq hb

theorem parse_params_takes : Takes params.Sentence [] [] (parse (n + 1) params) := by
  rw [parse]
  refine .check nofun (fun t ht => ?_) (.finish .none)
  intro s k s' _ h
  obtain ⟨ts, hts, hk⟩ := ih paramList nofun s k s' List.nil_prefix h
  exact ⟨ts, hts, .some hk⟩

theorem parse_paramList_takes : Takes paramList.Sentence [] [] (parse (n + 1) paramList) := by
  rw [parse]
  refine .expect nofun fun x hx => .keeps (.declare x) fun _ => .accept nofun (fun c hc => ?_) ?_
  · refine .part (ih paramList nofun) fun ts k hk => .finish ?_
    exact .more hx hc hk
  · exact .finish (.one hx)

theorem parse_body_takes (opens : Bool) :
    Takes (body opens).Sentence [] [] (parse (n + 1) (body opens)) := by
  -- behind an opening brace, with or without a scope of its own
  have braces : ∀ {l : Token} {ts : List Token} {b : Body}, l.kind = .punct '{' →
      statements.Sentence ts b → IsBody ([] ++ [l] ++ ts) b := by
    intro l ts b hl hb
    obtain ⟨us, r, rfl, hus, hr⟩ := hb
    exact .braces hl hus hr
  rw [parse]
  refine .accept nofun (fun l hl => ?_) ?_
  · cases opens with
    | true =>
      refine .keeps .openScope fun _ => .part (ih statements nofun) fun ts b hb => ?_
      exact .keeps .closeScope fun _ => .finish (braces hl hb)
    | false => exact .part (ih statements nofun) fun ts b hb => .finish (braces hl hb)
  · exact .part (ih expr nofun) fun ts e he => .finish (.bare he)

theorem parse_statements_takes : Takes statements.Sentence [] [] (parse (n + 1) statements) := by
  rw [parse]
  refine .part (ih expr nofun) fun ts e he => .expect nofun fun s hs => ?_
  refine .accept nofun (fun r hr => ?_) ?_
  · exact .finish ⟨ts ++ [s], r, by simp, .one he hs, hr⟩
  · refine .part (ih statements nofun) fun us b hb => .finish ?_
    obtain ⟨vs, r, rfl, hvs, hr⟩ := hb
    exact ⟨ts ++ s :: vs, r, by simp, .more he hs hvs, hr⟩

theorem parse_expr_takes : Takes expr.Sentence [] [] (parse (n + 1) expr) := by
  -- anything but a return, a declaration or an assignment
  have other : Takes expr.Sentence [] [] (parse n disjunction) := by
    intro s e s' _ h
    obtain ⟨ts, hts, he⟩ := ih disjunction nofun s e s' List.nil_prefix h
    exact ⟨ts, hts, .disjunction he⟩
  rw [parse]
  refine .accept nofun (fun t ht => ?_) (.accept nofun (fun t ht => ?_) ?_)
  · exact .part (ih expr nofun) fun ts e he => .finish (.ret ht he)
  · exact .part (ih declarations nofun) fun ts b hb => .finish (.var ht hb)
  · refine .check nofun (fun x hx => .checkSecond (fun q hq => ?_) ?_) ?_
    · refine .advance (.keeps (.resolve x) fun slot => .advance ?_)
      exact .part (ih expr nofun) fun ts e he => .finish (.store slot hx hq he)
    · exact other.weaken
    · exact .checkSecond_any fun b => other

theorem parse_declarations_takes :
    Takes declarations.Sentence [] [] (parse (n + 1) declarations) := by
  -- behind one declaration, perhaps more of them
  have rest : ∀ {x : Token} {ts : List Token} {e : Expr}, IsVar ts (.decl e) →
      Takes declarations.Sentence ts []
        (do
          declare x
          if ← accept (.punct ',') then return .cons (.decl e) (← parse n declarations)
          else return .last (.decl e)) := by
    intro x ts e he
    refine .keeps (.declare x) fun _ => .accept nofun (fun c hc => ?_) ?_
    · refine .part (ih declarations nofun) fun us b hb => .finish ?_
      rw [List.append_assoc]
      exact .more he hc hb
    · exact .finish (.one he)
  rw [parse]
  refine .expect nofun fun x hx => .accept nofun (fun q hq => ?_) ?_
  · exact .part (ih expr nofun) fun ts e he => rest (.init hx hq he)
  · exact rest (.bare hx)

theorem parse_disjunction_takes : Takes disjunction.Sentence [] [] (parse (n + 1) disjunction) := by
  rw [parse]
  refine .part (ih conjunction nofun) fun ts l hl => .accept nofun (fun t ht => ?_) ?_
  · refine .part (ih disjunction nofun) fun us r hr => .finish ?_
    simpa [Sentence] using IsDisjunction.or hl ht hr
  · exact .finish (.conjunction hl)

theorem parse_conjunction_takes : Takes conjunction.Sentence [] [] (parse (n + 1) conjunction) := by
  rw [parse]
  refine .part (ih negation nofun) fun ts l hl => .accept nofun (fun t ht => ?_) ?_
  · refine .part (ih negation nofun) fun us r hr => .finish ?_
    simpa [Sentence] using IsConjunction.and hl ht hr
  · exact .finish (.negation hl)

theorem parse_negation_takes : Takes negation.Sentence [] [] (parse (n + 1) negation) := by
  rw [parse]
  refine .accept nofun (fun t ht => ?_) ?_
  · exact .part (ih negation nofun) fun ts e he => .finish (.not ht he)
  · intro s e s' _ h
    obtain ⟨ts, hts, he⟩ := ih (binary (some .op1)) nofun s e s' List.nil_prefix h
    exact ⟨ts, hts, .binary he⟩

theorem parse_binary_takes (c : Option OpClass) :
    Takes (binary c).Sentence [] [] (parse (n + 1) (binary c)) := by
  cases c with
  | none =>
    rw [parse]
    intro s e s' _ h
    obtain ⟨ts, hts, he⟩ := ih small nofun s e s' List.nil_prefix h
    exact ⟨ts, hts, .small he⟩
  | some c =>
    rw [parse]
    refine .part (ih (binary c.tighter?) nofun) fun ts l hl => ?_
    by_cases hc : c = .op2
    · subst hc
      refine .check nofun (fun t ht => .advance ?_) (.finish (.tighter hl))
      refine .part (ih (binary (some .op2)) nofun) fun us r hr => .finish ?_
      simpa [Sentence] using IsBinary.right hl ht hr
    · have hleft : c.groupsRight = false := by simpa [OpClass.groupsRight] using hc
      simp only [hleft, Bool.false_eq_true, if_false]
      refine .part (ih (chain c) nofun) fun us ops hops => .finish ?_
      exact hops hc ts l (.tighter hl)

theorem parse_chain_takes (c : OpClass) :
    Takes (chain c).Sentence [] [] (parse (n + 1) (chain c)) := by
  rw [parse]
  refine .check nofun (fun t ht => .advance ?_) (.finish ?_)
  · refine .part (ih (binary c.tighter?) nofun) fun ts r hr => ?_
    refine .part (ih (chain c) nofun) fun us ops hops => .finish ?_
    intro hc vs e he
    have h := hops hc _ _ (.left hc he ht hr)
    simpa [fromLeft] using h
  · intro _ us e he
    simpa [fromLeft] using he

theorem parse_small_takes : Takes small.Sentence [] [] (parse (n + 1) small) := by
  rw [parse]
  refine .current (fun t ht => ?_) (fun t ht => ?_)
  · split
    · next hname =>
      refine .advance (.accept (by decide) (fun l hl => ?_) ?_)
      · refine .part (ih arguments (by decide)) fun ts es hes => .finish ?_
        obtain ⟨us, r, rfl, hus, hr⟩ := hes
        simpa [Sentence] using IsSmall.call hname hl hus hr
      · exact .keeps (.resolve t) fun slot => .finish (.fetch slot hname)
    · next hlit => exact .advance (.finish (.literal hlit))
    · next hl =>
      refine .advance (.part (ih expr (by decide)) fun ts e he => ?_)
      refine .expect (by decide) fun r hr => .finish ?_
      simpa [Sentence] using IsSmall.parens hl he hr
    · next c hop =>
      exact .advance (.part (ih small (by decide)) fun ts e he => .finish (.unary hop he))
    · next hif =>
      refine .advance (.part (ih expr (by decide)) fun ts e he => ?_)
      refine .part (ih (body true) (by decide)) fun us b hb => .accept (by decide) (fun u hu => ?_) ?_
      · refine .part (ih (body true) (by decide)) fun vs b' hb' => .finish (.cond ?_)
        simpa using IsIf.ifElse hif he hb hu hb'
      · exact .finish (.cond (.ifThen hif he hb))
    · next hloop =>
      refine .advance (.part (ih expr (by decide)) fun ts e he => ?_)
      exact .part (ih (body true) (by decide)) fun us b hb => .finish (.loop hloop he hb)
    · exact .fails _
    · exact .fails _
  · rw [ht]
    exact .fails _

theorem parse_arguments_takes : Takes arguments.Sentence [] [] (parse (n + 1) arguments) := by
  rw [parse]
  refine .accept nofun (fun r hr => ?_) ?_
  · exact .finish ⟨[], r, rfl, .none, hr⟩
  · intro s es s' _ h
    obtain ⟨ts, hts, us, r, hus, hes, hr⟩ := ih argumentList nofun s es s' List.nil_prefix h
    exact ⟨ts, hts, us, r, hus, .some hes, hr⟩

theorem parse_argumentList_takes :
    Takes argumentList.Sentence [] [] (parse (n + 1) argumentList) := by
  rw [parse]
  refine .part (ih expr nofun) fun ts e he => .accept nofun (fun c hc => ?_) ?_
  · refine .part (ih argumentList nofun) fun us es hes => .finish ?_
    obtain ⟨vs, r, rfl, hvs, hr⟩ := hes
    exact ⟨ts ++ c :: vs, r, by simp, .more he hc hvs, hr⟩
  · exact .expect nofun fun r hr => .finish ⟨ts, r, rfl, .one he, hr⟩

end

/-- What is read as a function, or as a phrase inside one, is a phrase of the grammar. -/
theorem parse_takes (n : Nat) (p : Phrase) (hp : p ≠ program) :
    Takes p.Sentence [] [] (parse n p) := by
  induction n generalizing p with
  | zero =>
    intro s a s' _ h
    cases h
  | succ n ih =>
    cases p with
    | program => exact absurd rfl hp
    | function => exact parse_function_takes ih
    | params => exact parse_params_takes ih
    | paramList => exact parse_paramList_takes ih
    | body opens => exact parse_body_takes ih opens
    | statements => exact parse_statements_takes ih
    | expr => exact parse_expr_takes ih
    | declarations => exact parse_declarations_takes ih
    | disjunction => exact parse_disjunction_takes ih
    | conjunction => exact parse_conjunction_takes ih
    | negation => exact parse_negation_takes ih
    | binary c => exact parse_binary_takes ih c
    | chain c => exact parse_chain_takes ih c
    | small => exact parse_small_takes ih
    | arguments => exact parse_arguments_takes ih
    | argumentList => exact parse_argumentList_takes ih

/-- A function takes its tokens from the front. -/
theorem parse_function_eq_ok {n : Nat} {s s' : State} {f : Function}
    (h : parse n function s = .ok f s') : ∃ ts, s.tokens = ts ++ s'.tokens ∧ IsFunction ts f :=
  parse_takes n function nofun s f s' List.nil_prefix h

/-- Functions are read until no token is left. -/
theorem parse_program_isProgram {n : Nat} {s s' : State} {fs : List Function}
    (hs : ∀ t ∈ s.tokens, t.kind ≠ .eof) (h : parse n program s = .ok fs s') :
    IsProgram s.tokens fs := by
  induction n generalizing s fs with
  | zero => cases h
  | succ n ih =>
    by_cases hend : s.current.kind = .eof
    · rw [parse_program_end hend] at h
      cases h
      rw [State.tokens_eq_nil hs hend]
      exact .nil
    · simp only [parse_program_more hend, bind_eq_ok, pure_eq_ok] at h
      obtain ⟨f, t, hf, rest, u, hrest, rfl, rfl⟩ := h
      obtain ⟨ts, hts, hfun⟩ := parse_function_eq_ok hf
      have ht : ∀ a ∈ t.tokens, a.kind ≠ .eof := by
        intro a ha
        exact hs a (by simp [hts, ha])
      rw [hts]
      exact .cons hfun (ih ht hrest)

end Phrase

/-- For every token list that is read as a program: its tokens before the first end of the file are a
sentence of the grammar, and the program is the tree of a derivation of it. -/
theorem Program.isProgram_of_ofTokens {ts : List Token} {p : Program} (h : ofTokens ts = .ok p) :
    Grammar.IsProgram (ts.takeWhile (·.kind ≠ .eof)) p.functions := by
  obtain ⟨s, hs⟩ := ofTokens_eq_ok.mp h
  apply Phrase.parse_program_isProgram ?_ hs
  intro t ht
  have hkind := List.mem_takeWhile_imp ht
  simpa using hkind

/-- Parentheses leave no node, operators of one class group from the left, and a variable without an
initial value is null. -/
theorem Program.isProgram_of_chain :
    let tok (k : Token.Kind) (lexeme : String) : Token := ⟨k, lexeme, .start⟩
    let ts := [tok (.keyword .func) "fun", tok .name "f", tok (.punct '(') "(", tok .name "a",
      tok (.punct ')') ")", tok (.punct '=') "=", tok (.punct '{') "\x7b", tok (.keyword .var) "var",
      tok .name "b", tok (.punct ';') ";", tok (.punct '(') "(", tok .name "a", tok (.punct ')') ")",
      tok (.op .op6) "-", tok .name "b", tok (.op .op6) "+", tok .literal "1", tok (.punct ';') ";",
      tok (.punct '}') "\x7d", tok .eof "", tok .name "a"]
    let p : Program := ⟨[⟨"f", 1, .cons (.block (.last (.decl .null)))
      (.last (.call "+" [.call "-" [.fetch 0, .fetch 1], .literal "1"]))⟩]⟩
    ofTokens ts = .ok p ∧ Grammar.IsProgram (ts.takeWhile (·.kind ≠ .eof)) p.functions := by
  intro tok ts p
  have h : ofTokens ts = .ok p := by decide +kernel
  exact ⟨h, isProgram_of_ofTokens h⟩

end Morpho
