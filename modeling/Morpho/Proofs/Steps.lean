import Morpho.Proofs.Runs

/-! The steps of the readers of phrases. A reader looks at a token or two, takes a token that it has
seen, opens or closes a scope, declares or looks up a variable that such a token names, or reads a
phrase inside. Two readers that differ only in how the phrases inside are read, and in the places of the
tokens, take the same steps. -/
namespace Morpho

/-- The place `d` lines further down. -/
def Position.down (d : Nat) (p : Position) : Position := { p with line := p.line + d }

/-- The same token `d` lines further down. -/
def Token.down (d : Nat) (t : Token) : Token := { t with pos := t.pos.down d }

/-- The same finding `d` lines further down. -/
def Diagnostic.down (d : Nat) (e : Diagnostic) : Diagnostic := { e with pos := e.pos.down d }

@[simp] theorem Token.down_kind (d : Nat) (t : Token) : (t.down d).kind = t.kind := rfl

/-- The same token at the place where `move` puts it. -/
def Token.move (move : Position → Position) (t : Token) : Token := { t with pos := move t.pos }

/-- The same finding at the place where `move` puts it. -/
def Diagnostic.move (move : Position → Position) (e : Diagnostic) : Diagnostic :=
  { e with pos := move e.pos }

theorem Token.move_id : Token.move id = id := rfl
theorem Token.move_down (d : Nat) : Token.move (Position.down d) = Token.down d := rfl

@[simp] theorem Token.move_kind (move : Position → Position) (t : Token) :
    (t.move move).kind = t.kind := rfl
@[simp] theorem Token.move_lexeme (move : Position → Position) (t : Token) :
    (t.move move).lexeme = t.lexeme := rfl

/-- Kinds of tokens that stand inside a function. -/
def Token.Kind.inner : Token.Kind → Bool
  | eof | keyword .func => false
  | _ => true

/-- How deep phrases may nest before the first token of this one is taken. -/
def Phrase.rank : Phrase → Nat
  | function | paramList | declarations | chain _ | small => 1
  | params | binary none => 2
  | binary (some c) => 10 - c.number
  | negation => 10
  | conjunction => 11
  | disjunction => 12
  | expr => 13
  | body _ | statements | argumentList => 14
  | arguments => 15
  | program => 16

/-- How many open scopes a phrase counts on. -/
def Phrase.around (p : Phrase) : Nat := p.inner.toNat

theorem Phrase.rank_le (p : Phrase) : p.rank ≤ 16 := by
  unfold rank
  split <;> omega

/-- Only the program itself has a rank as high as that. -/
theorem Phrase.ne_program_of_rank {p : Phrase} {limit : Nat} (h : p.rank < limit)
    (hlimit : limit ≤ 16) : p ≠ program := by
  rintro rfl
  exact absurd (Nat.lt_of_lt_of_le h hlimit) (by decide)

theorem Phrase.rank_tighter (c : OpClass) : (binary c.tighter?).rank < (binary (some c)).rank := by
  cases c <;> decide

namespace Parser

/-- What a reader can want in place of the token it has. -/
inductive Wanted : String → Prop
  | kind (k : Token.Kind) : Wanted k.description
  | expression : Wanted "an expression"
  | cond : Wanted "'if' before 'else'"

/-- The two parsers take the same steps, where `x` and `y` read the phrases inside and the tokens of the
second stand where `move` puts those of the first. All tokens satisfy `T`. At the start, `seen` tokens
are known to be left, and `opened` scopes are known to be open; at the end there are `home` of these.
Until a token is taken, only phrases of a rank below `limit` are read. -/
inductive Steps {α : Type} (T : Token → Prop) (move : Position → Position)
    (x y : (p : Phrase) → Parser p.Tree) (home : Nat) :
    (seen limit opened : Nat) → Parser α → Parser α → Prop
  | finish {seen limit : Nat} (a : α) : Steps T move x y home seen limit home (pure a) (pure a)
  | fails {seen limit opened : Nat} {wanted : String} (hw : Wanted wanted) :
    Steps T move x y home seen limit opened (unexpected wanted) (unexpected wanted)
  | current {seen limit opened : Nat} {f g : Token → Parser α}
    (some : ∀ t : Token, T t → t.kind ≠ .eof →
      Steps T move x y home (max seen 1) limit opened (f t) (g (t.move move)))
    (none : ∀ t : Token, t.kind = .eof →
      ∃ wanted, Wanted wanted ∧ f t = unexpected wanted ∧ g (t.move move) = unexpected wanted) :
    Steps T move x y home seen limit opened (current >>= f) (current >>= g)
  | check {seen limit opened : Nat} {k : Token.Kind} {f g : Bool → Parser α} (hk : k.inner = true)
    (yes : Steps T move x y home (max seen 1) limit opened (f true) (g true))
    (no : Steps T move x y home seen limit opened (f false) (g false)) :
    Steps T move x y home seen limit opened (check k >>= f) (check k >>= g)
  | checkSecond {seen limit opened : Nat} {k : Token.Kind} {f g : Bool → Parser α}
    (hk : k.inner = true) (hseen : 1 ≤ seen)
    (yes : Steps T move x y home (max seen 2) limit opened (f true) (g true))
    (no : Steps T move x y home seen limit opened (f false) (g false)) :
    Steps T move x y home seen limit opened (checkSecond k >>= f) (checkSecond k >>= g)
  /-- The second token is looked at, but the next step does not depend on it. -/
  | glance {seen limit opened : Nat} {k : Token.Kind} {f g : Bool → Parser α}
    (h : ∀ b c, Steps T move x y home seen limit opened (f b) (g c)) :
    Steps T move x y home seen limit opened (checkSecond k >>= f) (checkSecond k >>= g)
  | advance {seen limit opened : Nat} {f g : Token → Parser α}
    (h : ∀ t, T t → Steps T move x y home seen 16 opened (f t) (g (t.move move))) :
    Steps T move x y home (seen + 1) limit opened (advance >>= f) (advance >>= g)
  | expect {seen limit opened : Nat} {k : Token.Kind} {f g : Token → Parser α} (hk : k ≠ .eof)
    (h : ∀ t, T t → Steps T move x y home 0 16 opened (f t) (g (t.move move))) :
    Steps T move x y home seen limit opened (expect k >>= f) (expect k >>= g)
  | openScope {seen limit opened : Nat} {f g : Unit → Parser α}
    (h : Steps T move x y home seen limit (opened + 1) (f ()) (g ())) :
    Steps T move x y home seen limit opened (openScope >>= f) (openScope >>= g)
  | closeScope {seen limit opened : Nat} {f g : Unit → Parser α}
    (h : Steps T move x y home seen limit opened (f ()) (g ())) :
    Steps T move x y home seen limit (opened + 1) (closeScope >>= f) (closeScope >>= g)
  | declare {seen limit opened : Nat} {t : Token} (ht : T t) {f g : Unit → Parser α}
    (h : Steps T move x y home seen limit (opened + 1) (f ()) (g ())) :
    Steps T move x y home seen limit (opened + 1) (declare t >>= f) (declare (t.move move) >>= g)
  | resolve {seen limit opened : Nat} {t : Token} (ht : T t) {f g : Nat → Parser α}
    (h : ∀ slot, Steps T move x y home seen limit opened (f slot) (g slot)) :
    Steps T move x y home seen limit opened (resolve t >>= f) (resolve (t.move move) >>= g)
  | tell {seen limit opened : Nat} (e : Log.Event) {f g : Unit → Parser α}
    (h : Steps T move x y home seen limit opened (f ()) (g ())) :
    Steps T move x y home seen limit opened (tell e >>= f) (tell e >>= g)
  | read {seen limit opened : Nat} (p : Phrase) {f g : p.Tree → Parser α}
    (hp : p.rank < limit ∧ p.around ≤ opened)
    (h : ∀ a, Steps T move x y home 0 limit opened (f a) (g a)) :
    Steps T move x y home seen limit opened (x p >>= f) (y p >>= g)

namespace Steps

variable {α : Type} {T : Token → Prop} {move : Position → Position}
  {x y : (p : Phrase) → Parser p.Tree} {home seen limit opened : Nat}

theorem accept {k : Token.Kind} {f g : Bool → Parser α} (hk : k.inner = true)
    (yes : Steps T move x y home 0 16 opened (f true) (g true))
    (no : Steps T move x y home 0 limit opened (f false) (g false)) :
    Steps T move x y home 0 limit opened (accept k >>= f) (accept k >>= g) := by
  rw [Parser.accept, bind_assoc, bind_assoc]
  apply Steps.check hk
  · have h : Steps T move x y home 1 limit opened (Parser.advance >>= fun _ => f true)
        (Parser.advance >>= fun _ => g true) := .advance fun _ _ => yes
    simpa using h
  · simpa using no

/-- The phrase inside comes last. -/
theorem last (p : Phrase) (hp : p.rank < limit ∧ p.around ≤ home) :
    Steps T move x y home seen limit home (x p) (y p) := by
  rw [← bind_pure (x p), ← bind_pure (y p)]
  exact .read p hp .finish

end Steps
end Parser

namespace Phrase

open Morpho.Parser

variable {T : Token → Prop} {move : Position → Position} {n m : Nat}

theorem parse_function_steps : Steps T move (parse n) (parse m) 0 0 function.rank 0
    (parse (n + 1) function) (parse (m + 1) function) := by
  rw [parse, parse]
  refine .expect (by decide) fun _ _ => .expect (by decide) fun name _ => .openScope ?_
  refine .expect (by decide) fun _ _ => .read params (by decide) fun arity => ?_
  refine .expect (by decide) fun _ _ => .expect (by decide) fun _ _ => ?_
  exact .read (body false) (by decide) fun b => .closeScope (.tell _ (.finish _))

theorem parse_params_steps : Steps T move (parse n) (parse m) 1 0 params.rank 1
    (parse (n + 1) params) (parse (m + 1) params) := by
  rw [parse, parse]
  exact .check rfl (.last paramList (by decide)) (.finish 0)

theorem parse_paramList_steps : Steps T move (parse n) (parse m) 1 0 paramList.rank 1
    (parse (n + 1) paramList) (parse (m + 1) paramList) := by
  rw [parse, parse]
  refine .expect (by decide) fun t ht => .declare ht (.accept rfl ?_ ?_)
  · exact .read paramList (by decide) fun k => .finish _
  · exact .finish _

theorem parse_body_steps (opens : Bool) : Steps T move (parse n) (parse m) 1 0 (body opens).rank 1
    (parse (n + 1) (body opens)) (parse (m + 1) (body opens)) := by
  rw [parse, parse]
  refine .accept rfl ?_ ?_
  · cases opens with
    | true =>
      exact .openScope (.read statements (by decide) fun b => .closeScope (.finish b))
    | false => exact .read statements (by decide) fun b => .finish b
  · exact .read expr ⟨Nat.lt_succ_self 13, Nat.le_refl 1⟩ fun e => .finish _

theorem parse_statements_steps : Steps T move (parse n) (parse m) 1 0 statements.rank 1
    (parse (n + 1) statements) (parse (m + 1) statements) := by
  rw [parse, parse]
  refine .read expr (by decide) fun e => .expect (by decide) fun _ _ => .accept rfl ?_ ?_
  · exact .finish _
  · exact .read statements (by decide) fun b => .finish _

theorem parse_expr_steps : Steps T move (parse n) (parse m) 1 0 expr.rank 1
    (parse (n + 1) expr) (parse (m + 1) expr) := by
  rw [parse, parse]
  refine .accept rfl ?_ (.accept rfl ?_ ?_)
  · exact .read expr (by decide) fun e => .finish _
  · exact .read declarations (by decide) fun b => .finish _
  · -- the second token is looked at in any case
    refine .check rfl (.checkSecond rfl (by decide) ?_ ?_) (.glance fun _ _ => ?_)
    · refine .advance fun t ht => .resolve ht fun slot => .advance fun _ _ => ?_
      exact .read expr (by decide) fun e => .finish _
    · exact .last disjunction (by decide)
    · exact .last disjunction (by decide)

theorem parse_declarations_steps : Steps T move (parse n) (parse m) 1 0 declarations.rank 1
    (parse (n + 1) declarations) (parse (m + 1) declarations) := by
  -- behind the initial value comes the name, then perhaps more of them
  have rest : ∀ (t : Token) (e : Expr), T t → Steps T move (parse n) (parse m) 1 0 16 1
      (do
        declare t
        if ← accept (.punct ',') then return Body.cons (.decl e) (← parse n declarations)
        else return Body.last (.decl e))
      (do
        declare (t.move move)
        if ← accept (.punct ',') then return Body.cons (.decl e) (← parse m declarations)
        else return Body.last (.decl e)) := by
    intro t e ht
    refine .declare ht (.accept rfl ?_ ?_)
    · exact .read declarations (by decide) fun b => .finish _
    · exact .finish _
  rw [parse, parse]
  refine .expect (by decide) fun t ht => .accept rfl ?_ ?_
  · exact .read expr (by decide) fun e => rest t e ht
  · exact rest t .null ht

theorem parse_disjunction_steps : Steps T move (parse n) (parse m) 1 0 disjunction.rank 1
    (parse (n + 1) disjunction) (parse (m + 1) disjunction) := by
  rw [parse, parse]
  refine .read conjunction (by decide) fun l => .accept rfl ?_ ?_
  · exact .read disjunction (by decide) fun r => .finish _
  · exact .finish l

theorem parse_conjunction_steps : Steps T move (parse n) (parse m) 1 0 conjunction.rank 1
    (parse (n + 1) conjunction) (parse (m + 1) conjunction) := by
  rw [parse, parse]
  refine .read negation (by decide) fun l => .accept rfl ?_ ?_
  · exact .read negation (by decide) fun r => .finish _
  · exact .finish l

theorem parse_negation_steps : Steps T move (parse n) (parse m) 1 0 negation.rank 1
    (parse (n + 1) negation) (parse (m + 1) negation) := by
  rw [parse, parse]
  refine .accept rfl ?_ ?_
  · exact .read negation (by decide) fun e => .finish _
  · exact .last (binary (some .op1)) (by decide)

theorem parse_binary_steps (c : Option OpClass) : Steps T move (parse n) (parse m) 1 0 (binary c).rank 1
    (parse (n + 1) (binary c)) (parse (m + 1) (binary c)) := by
  cases c with
  | none =>
    rw [parse, parse]
    exact .last small (by decide)
  | some c =>
    rw [parse, parse]
    refine .read (binary c.tighter?) ⟨rank_tighter c, Nat.le_refl 1⟩ fun l => ?_
    cases c.groupsRight with
    | true =>
      refine .check rfl (.advance fun op _ => ?_) (.finish l)
      exact .read (binary (some c)) (by cases c <;> decide) fun r => .finish _
    | false => exact .read (chain c) (by cases c <;> decide) fun ops => .finish _

theorem parse_chain_steps (c : OpClass) : Steps T move (parse n) (parse m) 1 0 (chain c).rank 1
    (parse (n + 1) (chain c)) (parse (m + 1) (chain c)) := by
  rw [parse, parse]
  refine .check rfl (.advance fun op _ => ?_) (.finish [])
  refine .read (binary c.tighter?) (by cases c <;> decide) fun r => ?_
  exact .read (chain c) ⟨by simp [rank], Nat.le_refl 1⟩ fun ops => .finish _

theorem parse_small_steps : Steps T move (parse n) (parse m) 1 0 small.rank 1
    (parse (n + 1) small) (parse (m + 1) small) := by
  rw [parse, parse]
  refine .current ?_ ?_
  · intro t ht hend
    simp only [Token.move_kind, Token.move_lexeme]
    split
    · refine .advance fun _ _ => .accept rfl ?_ ?_
      · exact .read arguments (by decide) fun es => .finish _
      · exact .resolve ht fun slot => .finish _
    · exact .advance fun _ _ => .finish _
    · refine .advance fun _ _ => .read expr (by decide) fun e => ?_
      exact .expect (by decide) fun _ _ => .finish e
    · exact .advance fun _ _ => .read small (by decide) fun e => .finish _
    · refine .advance fun _ _ => .read expr (by decide) fun c =>
        .read (body true) (by decide) fun yes => .accept rfl ?_ ?_
      · exact .read (body true) (by decide) fun no => .finish _
      · exact .finish _
    · refine .advance fun _ _ => .read expr (by decide) fun c => ?_
      exact .read (body true) (by decide) fun b => .finish _
    · exact .fails .cond
    · exact .fails .expression
  · intro t hend
    refine ⟨_, .expression, ?_, ?_⟩
    · rw [hend]
    · rw [Token.move_kind, hend]

theorem parse_arguments_steps : Steps T move (parse n) (parse m) 1 0 arguments.rank 1
    (parse (n + 1) arguments) (parse (m + 1) arguments) := by
  rw [parse, parse]
  refine .accept rfl ?_ ?_
  · exact .finish []
  · exact .last argumentList (by decide)

theorem parse_argumentList_steps : Steps T move (parse n) (parse m) 1 0 argumentList.rank 1
    (parse (n + 1) argumentList) (parse (m + 1) argumentList) := by
  rw [parse, parse]
  refine .read expr (by decide) fun e => .accept rfl ?_ ?_
  · exact .read argumentList (by decide) fun es => .finish _
  · exact .expect (by decide) fun _ _ => .finish _

/-- The readers of a function, or of a phrase inside one, take the same steps with any two amounts of
fuel. -/
theorem parse_steps (T : Token → Prop) (move : Position → Position) (n m : Nat) {p : Phrase}
    (hp : p ≠ program) : Steps T move (parse n) (parse m) p.around 0 p.rank p.around
      (parse (n + 1) p) (parse (m + 1) p) := by
  cases p with
  | program => exact absurd rfl hp
  | function => exact parse_function_steps
  | params => exact parse_params_steps
  | paramList => exact parse_paramList_steps
  | body opens => exact parse_body_steps opens
  | statements => exact parse_statements_steps
  | expr => exact parse_expr_steps
  | declarations => exact parse_declarations_steps
  | disjunction => exact parse_disjunction_steps
  | conjunction => exact parse_conjunction_steps
  | negation => exact parse_negation_steps
  | binary c => exact parse_binary_steps c
  | chain c => exact parse_chain_steps c
  | small => exact parse_small_steps
  | arguments => exact parse_arguments_steps
  | argumentList => exact parse_argumentList_steps

end Phrase
end Morpho
