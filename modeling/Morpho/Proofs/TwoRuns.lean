import Morpho.Proofs.Renaming
import Morpho.Proofs.Totality

/-! Two runs of a reader. The second has the tokens of the first under new names, as far as these are
known; behind the known tokens, anything may come. While the first run stays among the known tokens, the
second does the same under the new names. A reader decides on the kinds of tokens and never on what they
say, and it looks no further than at the next token, but for the one after a name: there it goes on to
take the name, whatever follows. -/
namespace Morpho

namespace Parser

variable {α β : Type} {r : String → String} {k : Nat} {all : List Token}

namespace State

/-- The tokens to come, with the end of the file. -/
def upcoming (s : State) : List Token := s.tokens ++ [.eof s.stop]

/-- The state behind the next token. -/
@[reducible] def tail (s : State) : State := { s with tokens := s.tokens.tail }

theorem exists_upcoming_eq (s : State) : ∃ ts, s.upcoming = s.current :: ts := by
  obtain ⟨tokens, stop, scopes, log⟩ := s
  cases tokens with
  | nil => exact ⟨[], rfl⟩
  | cons t ts => exact ⟨ts ++ [.eof stop], rfl⟩

theorem tokens_eq_cons {s : State} (h : s.current.kind ≠ .eof) :
    s.tokens = s.current :: s.tail.tokens := by
  obtain ⟨tokens, stop, scopes, log⟩ := s
  cases tokens with
  | nil => exact absurd rfl h
  | cons t ts => rfl

theorem upcoming_eq_cons {s : State} (h : s.current.kind ≠ .eof) :
    s.upcoming = s.current :: s.tail.upcoming := by
  rw [upcoming, tokens_eq_cons h]
  rfl

/-- The tokens of `u` are those of `s` under new names, all but the last `k` to come in `s`, and so are
the scopes. -/
structure Alike (r : String → String) (k : Nat) (s u : State) : Prop where
  tokens : (s.upcoming.take (s.tokens.length + 1 - k)).map (Token.rename r) <+: u.upcoming
  scopes : u.scopes = s.scopes.rename r

namespace Alike

variable {s u : State}

/-- The next token is known as long as `k` tokens are left. -/
theorem current (h : s.Alike r k u) (hk : k ≤ s.tokens.length) : u.current = s.current.rename r := by
  obtain ⟨ts, hts⟩ := s.exists_upcoming_eq
  obtain ⟨us, hus⟩ := u.exists_upcoming_eq
  have htokens := h.tokens
  rw [Nat.succ_sub hk, hts, hus, List.take_succ_cons, List.map_cons, List.cons_prefix_cons] at htokens
  exact htokens.1.symm

theorem kind (h : s.Alike r k u) (hk : k ≤ s.tokens.length) : u.current.kind = s.current.kind := by
  rw [h.current hk, Token.rename_kind]

theorem tail (h : s.Alike r k u) (hk : k ≤ s.tokens.length) (hkind : s.current.kind ≠ .eof) :
    s.tail.Alike r k u.tail where
  tokens := by
    have hlength : s.tokens.length = s.tail.tokens.length + 1 := by
      rw [tokens_eq_cons hkind, List.length_cons]
    have hu : u.current.kind ≠ .eof := by rwa [h.kind hk]
    have htokens := h.tokens
    rw [Nat.succ_sub hk, upcoming_eq_cons hkind, upcoming_eq_cons hu, List.take_succ_cons,
      List.map_cons, List.cons_prefix_cons, hlength] at htokens
    exact htokens.2
  scopes := h.scopes

end Alike

/-- From `s`, a reader has gone on to `t`, and past a token if it must. -/
structure Onward (must : Prop) (s t : State) : Prop where
  tokens : t.tokens <:+ s.tokens
  less : must → t.tokens.length < s.tokens.length

namespace Onward

variable {must : Prop} {s t u : State}

theorem of_eq (h : t.tokens = s.tokens) : Onward False s t := ⟨h ▸ List.suffix_rfl, False.elim⟩

theorem tail (h : s.current.kind ≠ .eof) : Onward must s s.tail := by
  refine ⟨List.tail_suffix _, fun _ => ?_⟩
  rw [tokens_eq_cons h]
  exact Nat.lt_succ_self _

theorem length_le (h : Onward must s t) : t.tokens.length ≤ s.tokens.length := h.tokens.length_le

theorem trans (h : Onward must s t) (h' : Onward False t u) : Onward must s u :=
  ⟨h'.tokens.trans h.tokens, fun hm => Nat.lt_of_le_of_lt h'.length_le (h.less hm)⟩

end Onward
end State

theorem bind_eq_error {x : Parser α} {f : α → Parser β} {s s' : State} {e : Failure Diagnostic} :
    (x >>= f) s = .error e s' ↔
      x s = .error e s' ∨ ∃ a t, x s = .ok a t ∧ f a t = .error e s' := by
  simp only [Bind.bind, EStateM.bind]
  cases x s with
  | ok a t => simp [and_assoc]
  | error e t => simp

/-- The second token to come is the next one behind the next, be it the end of the file. -/
theorem checkSecond_eq {c : Token.Kind} (hc : c ≠ .eof) (s : State) :
    checkSecond c s = .ok (s.tail.current.kind = c) s := by
  obtain ⟨tokens, stop, scopes, log⟩ := s
  match tokens with
  | [] | [_] => simp [checkSecond, State.current, Token.eof, hc.symm]
  | _ :: t :: _ => simp [checkSecond, State.current]

/-- What a finding at `s` can be about, where `all` are the tokens of the whole list: the next token,
the name just taken, or a name taken before. -/
inductive Concerns (all : List Token) (s : State) : Diagnostic → Prop
  | next (wanted : String) : Concerns all s (s.current.diagnostic wanted)
  | last {t : Token} (ht : t.kind = .name) (hs : t :: s.tokens <:+ all) :
    Concerns all s ⟨.undeclared t.lexeme, t.pos⟩
  | before (name : String) (pos : Position) : Concerns all s ⟨.alreadyDeclared name, pos⟩

/-- From every state that is like `s`, `y` does what `x` does from `s`, under the new names, as long as
`x` stays among the known tokens. Running out of fuel apart, `x` takes a token if it must. -/
structure Echoes (r : String → String) (k : Nat) (all : List Token) (must : Prop) (φ : α → α)
    (x y : Parser α) (s : State) : Prop where
  ok : ∀ {a s'}, s.tokens <:+ all → x s = .ok a s' → s.Onward must s' ∧
    ∀ u, s.Alike r k u → k ≤ s'.tokens.length → ∃ u', y u = .ok (φ a) u' ∧ s'.Alike r k u'
  error : ∀ {e s'}, s.tokens <:+ all → x s = .error e s' → e ≠ .fault .outOfFuel →
    s.Onward must s' ∧ (∀ d, e = .found d → Concerns all s' d) ∧
    ∀ u, s.Alike r k u → k ≤ s'.tokens.length →
      ∃ u', y u = .error (e.map (·.rename r s'.current)) u'

namespace Echoes

variable {must : Prop} {φ : α → α} {ψ : β → β} {x y : Parser α} {s : State}

theorem bind {f g : α → Parser β} (hx : Echoes r k all must φ x y s)
    (hf : ∀ a t, Echoes r k all False ψ (f a) (g (φ a)) t) :
    Echoes r k all must ψ (x >>= f) (y >>= g) s where
  ok hall h := by
    obtain ⟨a, t, ha, hb⟩ := bind_eq_ok.mp h
    obtain ⟨ht, hy⟩ := hx.ok hall ha
    obtain ⟨ht', hg⟩ := (hf a t).ok (ht.tokens.trans hall) hb
    refine ⟨ht.trans ht', fun u hu hk => ?_⟩
    obtain ⟨v, hv, htv⟩ := hy u hu (hk.trans ht'.length_le)
    obtain ⟨w, hw, hsw⟩ := hg v htv hk
    exact ⟨w, bind_eq_ok.mpr ⟨φ a, v, hv, hw⟩, hsw⟩
  error hall h he := by
    rcases bind_eq_error.mp h with h | ⟨a, t, ha, hb⟩
    · obtain ⟨ht, hd, hy⟩ := hx.error hall h he
      refine ⟨ht, hd, fun u hu hk => ?_⟩
      obtain ⟨v, hv⟩ := hy u hu hk
      exact ⟨v, bind_eq_error.mpr (.inl hv)⟩
    · obtain ⟨ht, hy⟩ := hx.ok hall ha
      obtain ⟨ht', hd, hg⟩ := (hf a t).error (ht.tokens.trans hall) hb he
      refine ⟨ht.trans ht', hd, fun u hu hk => ?_⟩
      obtain ⟨v, hv, htv⟩ := hy u hu (hk.trans ht'.length_le)
      obtain ⟨w, hw⟩ := hg v htv hk
      exact ⟨w, bind_eq_error.mpr (.inr ⟨φ a, v, hv, hw⟩)⟩

/-- A reader counts on its tokens being the last ones of the list. -/
theorem of_suffix (h : s.tokens <:+ all → Echoes r k all must φ x y s) :
    Echoes r k all must φ x y s where
  ok hall hx := (h hall).ok hall hx
  error hall hx he := (h hall).error hall hx he

/-- One more step in front, which brings each run on to where the rest starts. -/
theorem step {must' : Prop} {x' y' : Parser α} {t : State} (h : Echoes r k all must φ x y t)
    (hx : x' s = x t) (ht : t.tokens <:+ s.tokens) (hon : ∀ {t'}, t.Onward must t' → s.Onward must' t')
    (hy : ∀ {u t'}, s.Alike r k u → s.Onward must' t' → k ≤ t'.tokens.length →
      ∃ v, t.Alike r k v ∧ y' u = y v) : Echoes r k all must' φ x' y' s where
  ok hall hs := by
    obtain ⟨ht', hrest⟩ := h.ok (ht.trans hall) (hx ▸ hs)
    refine ⟨hon ht', fun u hu hk => ?_⟩
    obtain ⟨v, hv, heq⟩ := hy hu (hon ht') hk
    rw [heq]
    exact hrest v hv hk
  error hall hs he := by
    obtain ⟨ht', hd, hrest⟩ := h.error (ht.trans hall) (hx ▸ hs) he
    refine ⟨hon ht', hd, fun u hu hk => ?_⟩
    obtain ⟨v, hv, heq⟩ := hy hu (hon ht') hk
    rw [heq]
    exact hrest v hv hk

theorem mono {must' : Prop} (h : Echoes r k all must φ x y s) (hm : must' → must) :
    Echoes r k all must' φ x y s := by
  refine h.step rfl List.suffix_rfl (fun ht => ?_) fun hu _ _ => ⟨_, hu, rfl⟩
  exact ⟨ht.tokens, fun hmust => ht.less (hm hmust)⟩

theorem weaken (h : Echoes r k all must φ x y s) : Echoes r k all False φ x y s := h.mono False.elim

/-- The step in front looks at tokens only. If a token is taken later on, the second one to come is
known too. -/
theorem look {x' y' : Parser α} (h : Echoes r k all must φ x y s) (hx : x' s = x s)
    (hy : ∀ u, s.Alike r k u → k ≤ s.tokens.length → (must → k < s.tokens.length) → y' u = y u) :
    Echoes r k all must φ x' y' s := by
  refine h.step hx List.suffix_rfl id fun {u t'} hu ht' hk => ⟨u, hu, ?_⟩
  exact hy u hu (hk.trans ht'.length_le) fun hm => Nat.lt_of_le_of_lt hk (ht'.less hm)

/-- The step in front takes the next token. -/
theorem take {x' y' : Parser α} (hkind : s.current.kind ≠ .eof)
    (h : s.current :: s.tail.tokens <:+ all → Echoes r k all False φ x y s.tail)
    (hx : x' s = x s.tail) (hy : ∀ u, s.Alike r k u → k ≤ s.tokens.length → y' u = y u.tail) :
    Echoes r k all must φ x' y' s := by
  refine of_suffix fun hall => ?_
  have hrest := h (State.tokens_eq_cons hkind ▸ hall)
  refine hrest.step hx (List.tail_suffix _) (State.Onward.tail hkind).trans fun {u t'} hu ht' hk => ?_
  have hknown := hk.trans ht'.length_le
  exact ⟨u.tail, hu.tail hknown hkind, hy u hu hknown⟩

theorem succeeds {a : α} {s' : State} (hx : x s = .ok a s') (htokens : s'.tokens = s.tokens)
    (hy : ∀ u, s.Alike r k u → ∃ u', y u = .ok (φ a) u' ∧ s'.Alike r k u') :
    Echoes r k all False φ x y s where
  ok hall hs := by
    cases hx.symm.trans hs
    exact ⟨.of_eq htokens, fun u hu _ => hy u hu⟩
  error hall hs := by cases hx.symm.trans hs

theorem fails {e : Failure Diagnostic} (hx : x s = .error e s)
    (hd : ∀ d, e = .found d → Concerns all s d)
    (hy : ∀ u, s.Alike r k u → k ≤ s.tokens.length →
      y u = .error (e.map (·.rename r s.current)) u) : Echoes r k all False φ x y s where
  ok hall hs := by cases hx.symm.trans hs
  error hall hs he := by
    cases hx.symm.trans hs
    exact ⟨.of_eq rfl, hd, fun u hu hk => ⟨u, hy u hu hk⟩⟩

theorem finish {a b : α} (h : φ a = b) : Echoes r k all False φ (pure a) (pure b) s :=
  succeeds rfl rfl fun u hu => ⟨u, h ▸ rfl, hu⟩

theorem unexpected (wanted : String) :
    Echoes r k all False φ (unexpected wanted) (unexpected wanted) s := by
  refine fails rfl ?_ fun u hu hk => ?_
  · rintro _ ⟨⟩
    exact .next wanted
  · rw [Parser.unexpected, hu.current hk, ← Diagnostic.rename_diagnostic]
    rfl

theorem current {f g : Token → Parser α}
    (h : Echoes r k all must φ (f s.current) (g (s.current.rename r)) s) :
    Echoes r k all must φ (current >>= f) (current >>= g) s := by
  refine h.look rfl fun u hu hk _ => ?_
  rw [← hu.current hk]
  rfl

theorem check {c : Token.Kind} {f g : Bool → Parser α}
    (yes : s.current.kind = c → Echoes r k all must φ (f true) (g true) s)
    (no : s.current.kind ≠ c → Echoes r k all must φ (f false) (g false) s) :
    Echoes r k all must φ (check c >>= f) (check c >>= g) s := by
  by_cases h : s.current.kind = c
  · exact (yes h).look (check_bind_of_kind h) fun u hu hk _ => check_bind_of_kind (hu.kind hk ▸ h)
  · exact (no h).look (check_bind_of_ne h) fun u hu hk _ => check_bind_of_ne (hu.kind hk ▸ h)

/-- Looking at the second token to come does no harm where the next one is taken later on: a run that
takes a token and still stays among the known ones knows the second. -/
theorem checkSecond {c : Token.Kind} (hc : c ≠ .eof) (hkind : s.current.kind ≠ .eof)
    {f g : Bool → Parser α}
    (yes : s.tail.current.kind = c → Echoes r k all True φ (f true) (g true) s)
    (no : Echoes r k all True φ (f false) (g false) s) :
    Echoes r k all True φ (checkSecond c >>= f) (checkSecond c >>= g) s := by
  have hbind : ∀ (f : Bool → Parser α) (u : State),
      (Parser.checkSecond c >>= f) u = f (u.tail.current.kind = c) u := by
    intro f u
    simp only [Bind.bind, EStateM.bind, checkSecond_eq hc]
  have hsecond : ∀ u, s.Alike r k u → k ≤ s.tokens.length → k < s.tokens.length →
      u.tail.current.kind = s.tail.current.kind := by
    intro u hu hk hlt
    refine (hu.tail hk hkind).kind ?_
    rw [State.tokens_eq_cons hkind] at hlt
    exact Nat.le_of_lt_succ hlt
  by_cases h : s.tail.current.kind = c
  · refine (yes h).look ?_ fun u hu hk hlt => ?_
    · rw [hbind, decide_eq_true h]
    · rw [hbind, hsecond u hu hk (hlt trivial), decide_eq_true h]
  · refine no.look ?_ fun u hu hk hlt => ?_
    · rw [hbind, decide_eq_false h]
    · rw [hbind, hsecond u hu hk (hlt trivial), decide_eq_false h]

theorem advance {f g : Token → Parser α} (hkind : s.current.kind ≠ .eof)
    (h : s.current :: s.tail.tokens <:+ all →
      Echoes r k all False φ (f s.current) (g (s.current.rename r)) s.tail) :
    Echoes r k all must φ (advance >>= f) (advance >>= g) s := by
  refine take hkind h rfl fun u hu hk => ?_
  rw [← hu.current hk]
  rfl

theorem accept {c : Token.Kind} (hc : c ≠ .eof) {f g : Bool → Parser α}
    (yes : ∀ t, Echoes r k all False φ (f true) (g true) t)
    (no : s.current.kind ≠ c → Echoes r k all must φ (f false) (g false) s) :
    Echoes r k all must φ (accept c >>= f) (accept c >>= g) s := by
  rw [Parser.accept, bind_assoc, bind_assoc]
  refine check (fun h => ?_) no
  exact take (h ▸ hc) (fun _ => yes s.tail) rfl fun _ _ _ => rfl

theorem expect {c : Token.Kind} (hc : c ≠ .eof) {f g : Token → Parser α}
    (h : ∀ t s', t.kind = c → Echoes r k all False φ (f t) (g (t.rename r)) s') :
    Echoes r k all False φ (expect c >>= f) (expect c >>= g) s := by
  rw [Parser.expect, bind_assoc, bind_assoc]
  refine check (fun hkind => ?_) fun _ => ?_
  · exact advance (hkind ▸ hc) fun _ => h s.current s.tail hkind
  · exact unexpected c.description

theorem openScope : Echoes r k all False id openScope openScope s := by
  refine succeeds rfl rfl fun u hu => ⟨_, rfl, hu.tokens, ?_⟩
  rw [Scopes.rename_push, ← hu.scopes]

theorem closeScope : Echoes r k all False id closeScope closeScope s := by
  have hpop : ∀ u, s.Alike r k u →
      u.scopes.pop = s.scopes.pop.map (Prod.map (Scope.rename r) (Scopes.rename r)) := by
    intro u hu
    rw [hu.scopes, Scopes.pop_rename]
  cases h : s.scopes.pop with
  | ok p =>
    have hs : Parser.closeScope s =
        .ok () { s with scopes := p.2, log := .closed p.2.depth p.1.length :: s.log } := by
      rw [Parser.closeScope, h]
    refine succeeds hs rfl fun u hu => ?_
    have hu' : Parser.closeScope u = .ok ()
        { u with
          scopes := p.2.rename r
          log := .closed (p.2.rename r).depth (Scope.rename r p.1).length :: u.log } := by
      rw [Parser.closeScope, hpop u hu, h]
      rfl
    exact ⟨_, hu', hu.tokens, rfl⟩
  | error f =>
    have hs : Parser.closeScope s = .error (.fault f) s := by rw [Parser.closeScope, h]
    refine fails hs (by rintro _ ⟨⟩) fun u hu _ => ?_
    rw [Parser.closeScope, hpop u hu, h]
    rfl

theorem tell (e e' : Log.Event) : Echoes r k all False id (tell e) (tell e') s :=
  succeeds rfl rfl fun _ hu => ⟨_, rfl, hu.tokens, hu.scopes⟩

section Names

variable (hr : Function.Injective r) {t : Token} (ht : t.kind = .name)

include hr ht

theorem declare : Echoes r k all False id (declare t) (declare (t.rename r)) s := by
  have hlexeme : (t.rename r).lexeme = r t.lexeme := Token.rename_lexeme (by rw [ht]; rfl)
  have hbind : ∀ u, s.Alike r k u → u.scopes.bind (t.rename r).lexeme =
      ((s.scopes.bind t.lexeme).map (Prod.map id (Scopes.rename r))).mapError
        (Failure.map fun _ => .alreadyDeclared (r t.lexeme)) := by
    intro u hu
    rw [hu.scopes, hlexeme, Scopes.bind_rename hr]
  cases h : s.scopes.bind t.lexeme with
  | ok p =>
    have hs : Parser.declare t s =
        .ok () { s with scopes := p.2, log := .bound t.lexeme p.1 :: s.log } := by
      rw [Parser.declare, h]
    refine succeeds hs rfl fun u hu => ?_
    have hu' : Parser.declare (t.rename r) u = .ok ()
        { u with scopes := p.2.rename r, log := .bound (t.rename r).lexeme p.1 :: u.log } := by
      rw [Parser.declare, hbind u hu, h]
      rfl
    exact ⟨_, hu', hu.tokens, rfl⟩
  | error e =>
    have hs : Parser.declare t s = .error (e.map (⟨·, t.pos⟩)) s := by rw [Parser.declare, h]
    cases e with
    | fault f =>
      refine fails hs (by rintro _ ⟨⟩) fun u hu _ => ?_
      rw [Parser.declare, hbind u hu, h]
      rfl
    | found c =>
      obtain rfl : c = .alreadyDeclared t.lexeme := by
        simp only [Scopes.bind] at h
        grind
      refine fails hs ?_ fun u hu _ => ?_
      · rintro _ ⟨⟩
        exact .before _ _
      · rw [Parser.declare, hbind u hu, h, Token.rename_pos]
        rfl

theorem resolve {f g : Nat → Parser α} (hs : t :: s.tokens <:+ all)
    (hf : ∀ slot, Echoes r k all False φ (f slot) (g slot) s) :
    Echoes r k all False φ (resolve t >>= f) (resolve (t.rename r) >>= g) s := by
  have hlexeme : (t.rename r).lexeme = r t.lexeme := Token.rename_lexeme (by rw [ht]; rfl)
  have hslot : ∀ u, s.Alike r k u → u.scopes.slot? (r t.lexeme) = s.scopes.slot? t.lexeme := by
    intro u hu
    rw [hu.scopes, Scopes.slot?_rename hr]
  cases h : s.scopes.slot? t.lexeme with
  | some slot =>
    refine (hf slot).look ?_ fun u hu _ _ => ?_
    · simp only [Bind.bind, EStateM.bind, Parser.resolve, Scopes.find, h]
    · simp only [Bind.bind, EStateM.bind, Parser.resolve, Scopes.find, hlexeme, hslot u hu, h]
  | none =>
    have hfail : (Parser.resolve t >>= f) s = .error (.found ⟨.undeclared t.lexeme, t.pos⟩) s := by
      simp only [Bind.bind, EStateM.bind, Parser.resolve, Scopes.find, h]
    refine fails hfail ?_ fun u hu _ => ?_
    · rintro _ ⟨⟩
      exact .last ht hs
    · simp only [Bind.bind, EStateM.bind, Parser.resolve, Scopes.find, hlexeme, hslot u hu, h,
        Token.rename_pos]
      rfl

end Names
end Echoes
end Parser

namespace Phrase

open Morpho.Parser

/-- Phrases that begin with an operand: if a name comes next, they take it before anything else. -/
def isOperand : Phrase → Bool
  | disjunction | conjunction | negation | binary _ | small => true
  | _ => false

/-- The phrase has to take the next token, for it is a name. -/
def Must (p : Phrase) (s : State) : Prop := p.isOperand = true ∧ s.current.kind = .name

section Inside

variable {r : String → String} {k : Nat} {all : List Token} {n : Nat} {s : State}
  (ih : ∀ (p : Phrase) (s : State), Echoes r k all (p.Must s) (p.rename r) (parse n p) (parse n p) s)

include ih

theorem parse_program_echoes : Echoes r k all False (program.rename r) (parse (n + 1) program)
    (parse (n + 1) program) s := by
  rw [parse]
  refine .check (fun _ => .finish rfl) fun _ => ?_
  refine .bind (ih function s).weaken fun f t => ?_
  exact .bind (ih program t).weaken fun fs _ => .finish rfl

theorem parse_function_echoes : Echoes r k all False (function.rename r) (parse (n + 1) function)
    (parse (n + 1) function) s := by
  rw [parse]
  refine .expect (by decide) fun _ _ _ => .expect (by decide) fun name _ hname => ?_
  refine .bind .openScope fun _ _ => ?_
  refine .expect (by decide) fun _ _ _ => .bind (ih params _).weaken fun arity _ => ?_
  refine .expect (by decide) fun _ _ _ => .expect (by decide) fun _ _ _ => ?_
  refine .bind (ih (body false) _).weaken fun b _ => .bind .closeScope fun _ _ => ?_
  refine .bind (.tell _ _) fun _ _ => .finish ?_
  rw [Token.rename_lexeme (by rw [hname]; rfl)]
  rfl

theorem parse_params_echoes : Echoes r k all False (params.rename r) (parse (n + 1) params)
    (parse (n + 1) params) s := by
  rw [parse]
  exact .check (fun _ => (ih paramList s).weaken) fun _ => .finish rfl

theorem parse_paramList_echoes (hr : Function.Injective r) : Echoes r k all False (paramList.rename r)
    (parse (n + 1) paramList) (parse (n + 1) paramList) s := by
  rw [parse]
  refine .expect (by decide) fun t _ ht => .bind (.declare hr ht) fun _ _ => ?_
  refine .accept (by decide) (fun t => ?_) fun _ => .finish rfl
  exact .bind (ih paramList t).weaken fun _ _ => .finish rfl

theorem parse_body_echoes (opens : Bool) : Echoes r k all False ((body opens).rename r)
    (parse (n + 1) (body opens)) (parse (n + 1) (body opens)) s := by
  rw [parse]
  refine .accept (by decide) (fun t => ?_) fun _ => .bind (ih expr s).weaken fun _ _ => .finish rfl
  cases opens with
  | true =>
    refine .bind .openScope fun _ t => .bind (ih statements t).weaken fun b _ => ?_
    exact .bind .closeScope fun _ _ => .finish rfl
  | false => exact .bind (ih statements t).weaken fun b _ => .finish rfl

theorem parse_statements_echoes : Echoes r k all False (statements.rename r) (parse (n + 1) statements)
    (parse (n + 1) statements) s := by
  rw [parse]
  refine .bind (ih expr s).weaken fun e _ => .expect (by decide) fun _ _ _ => ?_
  refine .accept (by decide) (fun _ => .finish rfl) fun _ => ?_
  exact .bind (ih statements _).weaken fun b _ => .finish rfl

theorem parse_expr_echoes (hr : Function.Injective r) : Echoes r k all False (expr.rename r)
    (parse (n + 1) expr) (parse (n + 1) expr) s := by
  rw [parse]
  refine .accept (by decide) (fun t => ?ret) fun _ => .accept (by decide) (fun t => ?var) fun _ => ?_
  case ret => exact .bind (ih expr t).weaken fun e _ => .finish rfl
  case var => exact .bind (ih declarations t).weaken fun b _ => .finish rfl
  refine .check (fun hname => ?_) fun _ => ?_
  · -- the name is taken, whether it is assigned to or not
    have hkind : s.current.kind ≠ .eof := by
      rw [hname]
      decide
    refine (Echoes.checkSecond (by decide) hkind (fun hsecond => ?_) ?_).weaken
    · refine .advance hkind fun hs => .resolve hr hname hs fun slot => ?_
      refine .advance (by rw [hsecond]; decide) fun _ => ?_
      exact .bind (ih expr _).weaken fun e _ => .finish rfl
    · exact (ih disjunction s).mono fun _ => ⟨rfl, hname⟩
  · exact (ih disjunction s).weaken.look rfl fun _ _ _ _ => rfl

theorem parse_declarations_echoes (hr : Function.Injective r) : Echoes r k all False
    (declarations.rename r) (parse (n + 1) declarations) (parse (n + 1) declarations) s := by
  -- behind the initial value comes the name, then perhaps more of them
  have rest : ∀ (t : Token) (e : Expr) (s : State), t.kind = .name →
      Echoes r k all False (declarations.rename r)
      (do
        declare t
        if ← accept (.punct ',') then return Body.cons (.decl e) (← parse n declarations)
        else return Body.last (.decl e))
      (do
        declare (t.rename r)
        if ← accept (.punct ',') then return Body.cons (.decl (e.rename r)) (← parse n declarations)
        else return Body.last (.decl (e.rename r))) s := by
    intro t e s ht
    refine .bind (.declare hr ht) fun _ _ => ?_
    refine .accept (by decide) (fun t => ?_) fun _ => .finish rfl
    exact .bind (ih declarations t).weaken fun b _ => .finish rfl
  rw [parse]
  refine .expect (by decide) fun t _ ht => .accept (by decide) (fun s => ?_) fun _ => rest t .null _ ht
  exact .bind (ih expr s).weaken fun e s => rest t e s ht

theorem parse_disjunction_echoes : Echoes r k all (disjunction.Must s) (disjunction.rename r)
    (parse (n + 1) disjunction) (parse (n + 1) disjunction) s := by
  rw [parse]
  refine .bind (ih conjunction s) fun l _ => .accept (by decide) (fun t => ?_) fun _ => .finish rfl
  exact .bind (ih disjunction t).weaken fun r _ => .finish rfl

theorem parse_conjunction_echoes : Echoes r k all (conjunction.Must s) (conjunction.rename r)
    (parse (n + 1) conjunction) (parse (n + 1) conjunction) s := by
  rw [parse]
  refine .bind (ih negation s) fun l _ => .accept (by decide) (fun t => ?_) fun _ => .finish rfl
  exact .bind (ih negation t).weaken fun r _ => .finish rfl

theorem parse_negation_echoes : Echoes r k all (negation.Must s) (negation.rename r)
    (parse (n + 1) negation) (parse (n + 1) negation) s := by
  rw [parse]
  refine .accept (by decide) (fun t => ?_) fun _ => ih (binary (some .op1)) s
  exact .bind (ih negation t).weaken fun e _ => .finish rfl

theorem parse_binary_echoes (c : Option OpClass) : Echoes r k all ((binary c).Must s)
    ((binary c).rename r) (parse (n + 1) (binary c)) (parse (n + 1) (binary c)) s := by
  cases c with
  | none =>
    rw [parse]
    exact ih small s
  | some c =>
    rw [parse]
    refine .bind (ih (binary c.tighter?) s) fun l t => ?_
    cases c.groupsRight with
    | true =>
      refine .check (fun hop => ?_) fun _ => .finish rfl
      refine .advance (by simp [hop]) fun _ => ?_
      refine .bind (ih (binary (some c)) _).weaken fun e _ => .finish ?_
      rw [Token.rename_lexeme (by rw [hop]; rfl)]
      rfl
    | false => exact .bind (ih (chain c) t).weaken fun ops _ => .finish (rename_fromLeft r l ops)

theorem parse_chain_echoes (c : OpClass) : Echoes r k all False ((chain c).rename r)
    (parse (n + 1) (chain c)) (parse (n + 1) (chain c)) s := by
  rw [parse]
  refine .check (fun hop => ?_) fun _ => .finish rfl
  refine .advance (by simp [hop]) fun _ => ?_
  refine .bind (ih (binary c.tighter?) _).weaken fun e t => ?_
  refine .bind (ih (chain c) t).weaken fun ops _ => .finish ?_
  rw [Token.rename_lexeme (by rw [hop]; rfl)]
  rfl

theorem parse_small_echoes (hr : Function.Injective r) : Echoes r k all (small.Must s)
    (small.rename r) (parse (n + 1) small) (parse (n + 1) small) s := by
  rw [parse]
  refine .current ?_
  simp only [Token.rename_kind]
  split
  · next hname =>
    refine .advance (by rw [hname]; decide) fun hs => .accept (by decide) (fun t => ?_) fun _ => ?_
    · refine .bind (ih arguments t).weaken fun es _ => .finish ?_
      rw [Token.rename_lexeme (by rw [hname]; rfl)]
      rfl
    · exact .resolve hr hname hs fun slot => .finish rfl
  · next hliteral =>
    refine .advance (by rw [hliteral]; decide) fun _ => .finish ?_
    rw [Token.rename_of_not (by rw [hliteral]; rfl)]
    rfl
  · next hopen =>
    refine .advance (by rw [hopen]; decide) fun _ => .bind (ih expr _).weaken fun e _ => ?_
    exact .expect (by decide) fun _ _ _ => .finish rfl
  · next hop =>
    refine .advance (by simp [hop]) fun _ => .bind (ih small _).weaken fun e _ => .finish ?_
    rw [Token.rename_lexeme (by rw [hop]; rfl)]
    rfl
  · next hcond =>
    refine .advance (by rw [hcond]; decide) fun _ => .bind (ih expr _).weaken fun c _ => ?_
    refine .bind (ih (body true) _).weaken fun yes _ => ?_
    refine .accept (by decide) (fun t => ?_) fun _ => .finish rfl
    exact .bind (ih (body true) t).weaken fun no _ => .finish rfl
  · next hloop =>
    refine .advance (by rw [hloop]; decide) fun _ => .bind (ih expr _).weaken fun c t => ?_
    exact .bind (ih (body true) t).weaken fun b _ => .finish rfl
  · next halt =>
    refine (Echoes.unexpected _).mono fun hmust => ?_
    cases halt.symm.trans hmust.2
  · next hname _ _ _ _ _ _ => exact (Echoes.unexpected _).mono fun hmust => hname hmust.2

theorem parse_arguments_echoes : Echoes r k all False (arguments.rename r) (parse (n + 1) arguments)
    (parse (n + 1) arguments) s := by
  rw [parse]
  exact .accept (by decide) (fun _ => .finish rfl) fun _ => (ih argumentList s).weaken

theorem parse_argumentList_echoes : Echoes r k all False (argumentList.rename r)
    (parse (n + 1) argumentList) (parse (n + 1) argumentList) s := by
  rw [parse]
  refine .bind (ih expr s).weaken fun e _ => .accept (by decide) (fun t => ?_) fun _ => ?_
  · exact .bind (ih argumentList t).weaken fun es _ => .finish rfl
  · exact .expect (by decide) fun _ _ _ => .finish rfl

end Inside

/-- Every reader of a phrase does the same in both runs. -/
theorem parse_echoes {r : String → String} (hr : Function.Injective r) (k : Nat) (all : List Token)
    (n : Nat) (p : Phrase) (s : State) :
    Echoes r k all (p.Must s) (p.rename r) (parse n p) (parse n p) s := by
  induction n generalizing p s with
  | zero =>
    have hzero : parse 0 p s = .error (.fault .outOfFuel) s := by
      rw [parse]
      rfl
    constructor
    · intro a t _ h
      cases hzero.symm.trans h
    · intro e t _ h hfuel
      cases hzero.symm.trans h
      exact absurd rfl hfuel
  | succ n ih =>
    have hnot : p.isOperand = false → ¬ p.Must s := by
      intro hp hmust
      cases hp.symm.trans hmust.1
    cases p with
    | program => exact (parse_program_echoes ih).mono (hnot rfl)
    | function => exact (parse_function_echoes ih).mono (hnot rfl)
    | params => exact (parse_params_echoes ih).mono (hnot rfl)
    | paramList => exact (parse_paramList_echoes ih hr).mono (hnot rfl)
    | body opens => exact (parse_body_echoes ih opens).mono (hnot rfl)
    | statements => exact (parse_statements_echoes ih).mono (hnot rfl)
    | expr => exact (parse_expr_echoes ih hr).mono (hnot rfl)
    | declarations => exact (parse_declarations_echoes ih hr).mono (hnot rfl)
    | disjunction => exact parse_disjunction_echoes ih
    | conjunction => exact parse_conjunction_echoes ih
    | negation => exact parse_negation_echoes ih
    | binary c => exact parse_binary_echoes ih c
    | chain c => exact (parse_chain_echoes ih c).mono (hnot rfl)
    | small => exact parse_small_echoes ih hr
    | arguments => exact (parse_arguments_echoes ih).mono (hnot rfl)
    | argumentList => exact (parse_argumentList_echoes ih).mono (hnot rfl)

end Phrase
end Morpho
