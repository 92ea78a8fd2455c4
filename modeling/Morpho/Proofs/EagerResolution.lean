import Morpho.Proofs.Tracks

/-! Resolving names while reading is reading first and resolving names then. -/
namespace Morpho

namespace Phrase

open Morpho.Parser

/-- How the names of a phrase inside a function resolve. -/
def resolve : (p : Phrase) → p.Named → Naming p.Tree
  | program, _ | function, _ => fun _ _ => none
  | params, names | paramList, names => do
    Naming.declareAll names
    return names.length
  | body opens, b => b.resolve opens
  | statements, list => list.resolve
  | declarations, list => list.resolve
  | chain _, ops => ops.mapM fun op => do return (op.1, ← op.2.resolve)
  | arguments, es | argumentList, es => Outline.resolveAll es
  | expr, e | disjunction, e | conjunction, e | negation, e | binary _, e | small, e => e.resolve

theorem resolve_namedFromLeft (left : Outline) (ops : List (String × Outline)) :
    (namedFromLeft left ops).resolve = do
      let l ← left.resolve
      return fromLeft l (← ops.mapM fun op => do return (op.1, ← op.2.resolve)) := by
  induction ops generalizing left with
  | nil => simp [namedFromLeft, fromLeft]
  | cons op ops ih =>
    have h := ih (.call op.1 [left, op.2])
    simp only [namedFromLeft, List.foldl_cons] at h ⊢
    rw [h]
    simp [fromLeft, Outline.resolve, Outline.resolveAll]

/-- Both readers read the phrase alike, up to names. -/
def Eager (n : Nat) (p : Phrase) : Prop :=
  Tracks (pure ()) (fun _ => parse n p) (outline n p) p.resolve

section

variable {n : Nat} (ih : ∀ p : Phrase, p.inner = true → Eager n p)

include ih

theorem eager_params : Eager (n + 1) params := by
  rw [Eager, parse, outline]
  apply Tracks.reads (.check _)
  intro b
  cases b with
  | true => exact ih .paramList rfl
  | false => exact .finish (by simp [resolve, Naming.declareAll])

theorem eager_paramList : Eager (n + 1) paramList := by
  rw [Eager, parse, outline]
  apply Tracks.reads (.expect _)
  intro t
  apply Tracks.scope (.declare t)
  apply Tracks.reads (.accept _)
  intro b
  cases b with
  | true =>
    apply Tracks.part (ih .paramList rfl)
    intro names
    apply Tracks.finish
    simp [resolve, Naming.declareAll]
  | false =>
    apply Tracks.finish
    simp [resolve, Naming.declareAll]

theorem eager_body (opens : Bool) : Eager (n + 1) (body opens) := by
  rw [Eager, parse, outline]
  apply Tracks.reads (.accept _)
  intro b
  cases b with
  | true =>
    cases opens with
    | true => exact .rename (.inScope (ih .statements rfl)) fun o => rfl
    | false =>
      apply Tracks.part (ih .statements rfl)
      intro o
      apply Tracks.finish
      simp [resolve, Outline.Arm.resolve]
  | false =>
    apply Tracks.part (ih .expr rfl)
    intro o
    apply Tracks.finish
    simp [resolve, Outline.Arm.resolve]

theorem eager_statements : Eager (n + 1) statements := by
  rw [Eager, parse, outline]
  apply Tracks.part (ih .expr rfl)
  intro o
  apply Tracks.reads (.expect _)
  intro _
  apply Tracks.reads (.accept _)
  intro b
  cases b with
  | true =>
    apply Tracks.finish
    simp [resolve, Outline.Block.resolve]
  | false =>
    apply Tracks.part (ih .statements rfl)
    intro rest
    apply Tracks.finish
    simp [resolve, Outline.Block.resolve]

theorem eager_expr : Eager (n + 1) expr := by
  rw [Eager, parse, outline]
  apply Tracks.reads (.accept _)
  intro b
  cases b with
  | true =>
    apply Tracks.part (ih .expr rfl)
    intro o
    apply Tracks.finish
    simp [resolve, Outline.resolve]
  | false =>
    apply Tracks.reads (.accept _)
    intro b
    cases b with
    | true =>
      apply Tracks.part (ih .declarations rfl)
      intro o
      apply Tracks.finish
      simp [resolve, Outline.resolve]
    | false =>
      apply Tracks.reads (.check _)
      intro b
      apply Tracks.reads (.checkSecond _)
      intro b'
      cases b && b' with
      | true =>
        apply Tracks.reads .advance
        intro t
        apply Tracks.scope (.resolve t)
        apply Tracks.reads .advance
        intro _
        apply Tracks.part (ih .expr rfl)
        intro o
        apply Tracks.finish
        simp [resolve, Outline.resolve]
      | false => exact ih .disjunction rfl

theorem eager_declarations : Eager (n + 1) declarations := by
  -- behind the initial value comes the name, then perhaps more of them
  have rest : ∀ (t : Token) {δ : Type} (m : Naming δ) (value : δ → Expr) (o : Outline),
      (o.resolve = m >>= fun d => pure (value d)) →
      Tracks m
        (fun d => do
          declare t
          if ← accept (.punct ',') then return .cons (.decl (value d)) (← parse n declarations)
          else return .last (.decl (value d)))
        (do
          if ← accept (.punct ',') then return .cons t.lexeme o (← outline n declarations)
          else return .last t.lexeme o) declarations.resolve := by
    intro t δ m value o ho
    apply Tracks.scope (.declare t)
    apply Tracks.reads (.accept _)
    intro b
    cases b with
    | true =>
      apply Tracks.part (ih .declarations rfl)
      intro list
      apply Tracks.finish
      simp [resolve, Outline.Vars.resolve, ho]
    | false =>
      apply Tracks.finish
      simp [resolve, Outline.Vars.resolve, ho]
  rw [Eager, parse, outline]
  apply Tracks.reads (.expect _)
  intro t
  apply Tracks.reads (.accept _)
  intro b
  cases b with
  | true =>
    apply Tracks.part (ih .expr rfl)
    intro o
    apply rest t _ Prod.snd o
    simp [resolve]
  | false =>
    apply rest t _ (fun _ => .null) (.literal "null")
    simp [Outline.resolve, Expr.null]

theorem eager_disjunction : Eager (n + 1) disjunction := by
  rw [Eager, parse, outline]
  apply Tracks.part (ih .conjunction rfl)
  intro l
  apply Tracks.reads (.accept _)
  intro b
  cases b with
  | true =>
    apply Tracks.part (ih .disjunction rfl)
    intro r
    apply Tracks.finish
    simp [resolve, Outline.resolve]
  | false =>
    apply Tracks.finish
    simp [resolve]

theorem eager_conjunction : Eager (n + 1) conjunction := by
  rw [Eager, parse, outline]
  apply Tracks.part (ih .negation rfl)
  intro l
  apply Tracks.reads (.accept _)
  intro b
  cases b with
  | true =>
    apply Tracks.part (ih .negation rfl)
    intro r
    apply Tracks.finish
    simp [resolve, Outline.resolve]
  | false =>
    apply Tracks.finish
    simp [resolve]

theorem eager_negation : Eager (n + 1) negation := by
  rw [Eager, parse, outline]
  apply Tracks.reads (.accept _)
  intro b
  cases b with
  | true =>
    apply Tracks.part (ih .negation rfl)
    intro o
    apply Tracks.finish
    simp [resolve, Outline.resolve]
  | false => exact ih (.binary (some .op1)) rfl

theorem eager_binary (c : Option OpClass) : Eager (n + 1) (binary c) := by
  cases c with
  | none =>
    rw [Eager, parse, outline]
    exact ih .small rfl
  | some c =>
    rw [Eager, parse, outline]
    apply Tracks.part (ih (.binary c.tighter?) rfl)
    intro l
    cases c.groupsRight with
    | true =>
      apply Tracks.reads (.check _)
      intro b
      cases b with
      | true =>
        apply Tracks.reads .advance
        intro op
        apply Tracks.part (ih (.binary (some c)) rfl)
        intro r
        apply Tracks.finish
        simp [resolve, Outline.resolve, Outline.resolveAll]
      | false =>
        apply Tracks.finish
        simp [resolve]
    | false =>
      apply Tracks.part (ih (.chain c) rfl)
      intro ops
      apply Tracks.finish
      simp [resolve, resolve_namedFromLeft]

theorem eager_chain (c : OpClass) : Eager (n + 1) (chain c) := by
  rw [Eager, parse, outline]
  apply Tracks.reads (.check _)
  intro b
  cases b with
  | true =>
    apply Tracks.reads .advance
    intro op
    apply Tracks.part (ih (.binary c.tighter?) rfl)
    intro r
    apply Tracks.part (ih (.chain c) rfl)
    intro ops
    apply Tracks.finish
    simp [resolve]
  | false =>
    apply Tracks.finish
    simp [resolve]

theorem eager_small : Eager (n + 1) small := by
  rw [Eager, parse, outline]
  apply Tracks.reads .current
  intro t
  generalize t.kind = k
  cases k with
  | name =>
    apply Tracks.reads .advance
    intro _
    apply Tracks.reads (.accept _)
    intro b
    cases b with
    | true =>
      apply Tracks.part (ih .arguments rfl)
      intro os
      apply Tracks.finish
      simp [resolve, Outline.resolve]
    | false =>
      apply Tracks.scope (.resolve t)
      apply Tracks.finish
      simp [resolve, Outline.resolve]
  | literal =>
    apply Tracks.reads .advance
    intro _
    apply Tracks.finish
    simp [resolve, Outline.resolve]
  | op c =>
    apply Tracks.reads .advance
    intro _
    apply Tracks.part (ih .small rfl)
    intro o
    apply Tracks.finish
    simp [resolve, Outline.resolve, Outline.resolveAll]
  | punct c =>
    by_cases hc : c = '('
    · subst hc
      apply Tracks.reads .advance
      intro _
      apply Tracks.part (ih .expr rfl)
      intro o
      apply Tracks.reads (.expect _)
      intro _
      apply Tracks.finish
      simp [resolve]
    · simp only [Token.Kind.punct.injEq, hc, imp_self]
      exact .fails
  | keyword w =>
    cases w with
    | cond =>
      apply Tracks.reads .advance
      intro _
      apply Tracks.part (ih .expr rfl)
      intro c
      apply Tracks.part (ih (.body true) rfl)
      intro yes
      apply Tracks.reads (.accept _)
      intro b
      cases b with
      | true =>
        apply Tracks.part (ih (.body true) rfl)
        intro no
        apply Tracks.finish
        simp [resolve, Outline.resolve]
      | false =>
        apply Tracks.finish
        simp [resolve, Outline.resolve]
    | loop =>
      apply Tracks.reads .advance
      intro _
      apply Tracks.part (ih .expr rfl)
      intro c
      apply Tracks.part (ih (.body true) rfl)
      intro b
      apply Tracks.finish
      simp [resolve, Outline.resolve]
    | func | var | ret | alt | and | or | not => exact .fails
  | eof => exact .fails

theorem eager_arguments : Eager (n + 1) arguments := by
  rw [Eager, parse, outline]
  apply Tracks.reads (.accept _)
  intro b
  cases b with
  | true =>
    apply Tracks.finish
    simp [resolve, Outline.resolveAll]
  | false => exact ih .argumentList rfl

theorem eager_argumentList : Eager (n + 1) argumentList := by
  rw [Eager, parse, outline]
  apply Tracks.part (ih .expr rfl)
  intro o
  apply Tracks.reads (.accept _)
  intro b
  cases b with
  | true =>
    apply Tracks.part (ih .argumentList rfl)
    intro os
    apply Tracks.finish
    simp [resolve, Outline.resolveAll]
  | false =>
    apply Tracks.reads (.expect _)
    intro _
    apply Tracks.finish
    simp [resolve, Outline.resolveAll]

end

/-- Every phrase inside a function is read alike. -/
theorem eager (n : Nat) (p : Phrase) (hp : p.inner = true) : Eager n p := by
  induction n generalizing p with
  | zero =>
    refine ⟨fun _ _ hx => ?_, fun hy _ => ?_⟩
    · cases hx
    · cases hy
  | succ n ih =>
    cases p with
    | program | function => cases hp
    | params => exact eager_params ih
    | paramList => exact eager_paramList ih
    | body opens => exact eager_body ih opens
    | statements => exact eager_statements ih
    | expr => exact eager_expr ih
    | declarations => exact eager_declarations ih
    | disjunction => exact eager_disjunction ih
    | conjunction => exact eager_conjunction ih
    | negation => exact eager_negation ih
    | binary c => exact eager_binary ih c
    | chain c => exact eager_chain ih c
    | small => exact eager_small ih
    | arguments => exact eager_arguments ih
    | argumentList => exact eager_argumentList ih

/-- What follows the name of a function. -/
def header (n : Nat) : Parser (Nat × Body) := do
  let _ ← expect (.punct '(')
  let arity ← parse n params
  let _ ← expect (.punct ')')
  let _ ← expect (.punct '=')
  let b ← parse n (body false)
  return (arity, b)

def namedHeader (n : Nat) : Parser (List String × Outline.Arm) := do
  let _ ← expect (.punct '(')
  let names ← outline n params
  let _ ← expect (.punct ')')
  let _ ← expect (.punct '=')
  let b ← outline n (body false)
  return (names, b)

theorem parse_function (n : Nat) : parse (n + 1) function = do
    let _ ← expect (.keyword .func)
    let name ← expect .name
    openScope
    let q ← header n
    closeScope
    tell (.parsed name.lexeme q.1)
    return ⟨name.lexeme, q.1, q.2⟩ := by
  simp [parse, header]

theorem outline_function (n : Nat) : outline (n + 1) function = do
    let _ ← expect (.keyword .func)
    let name ← expect .name
    let q ← namedHeader n
    return ⟨name.lexeme, q.1, q.2⟩ := by
  simp [outline, namedHeader]

theorem eager_header (n : Nat) : Tracks (pure ()) (fun _ => header n) (namedHeader n)
    (fun q => Outline.resolveHeader q.1 q.2) := by
  rw [header, namedHeader]
  apply Tracks.reads (.expect _)
  intro _
  apply Tracks.part (eager n params rfl)
  intro names
  apply Tracks.reads (.expect _)
  intro _
  apply Tracks.reads (.expect _)
  intro _
  apply Tracks.part (eager n (body false) rfl)
  intro b
  apply Tracks.finish
  simp [resolve, Outline.resolveHeader]

/-- Both readers are at the same token, and no scope is open. -/
structure Outside (s u : State) : Prop where
  tokens : s.tokens = u.tokens
  stop : s.stop = u.stop
  scopes : s.scopes.stack = []

theorem Outside.take {s u : State} (h : Outside s u) (ts : List Token) :
    Outside { s with tokens := ts } { u with tokens := ts } :=
  ⟨rfl, h.stop, h.scopes⟩

theorem Outside.open {s u : State} (h : Outside s u) (ts : List Token) :
    Beside { s with
      tokens := ts
      scopes := s.scopes.push
      log := .opened (s.scopes.depth + 1) :: s.log } { u with tokens := ts } [] [] :=
  ⟨rfl, h.stop, congrArg ([] :: ·) h.scopes⟩

theorem parse_function_sound {n : Nat} {s s' u : State} {f : Function} (hs : Outside s u)
    (h : parse n function s = .ok f s') :
    ∃ o u', outline n function u = .ok o u' ∧ o.resolve = some f ∧ Outside s' u' := by
  cases n with
  | zero => cases h
  | succ n =>
    simp only [parse_function, bind_eq_ok, pure_eq_ok] at h
    obtain ⟨t, s₁, h₁, name, s₂, h₂, _, s₃, h₃, q, s₄, h₄, _, s₅, h₅, _, s₆, h₆, rfl, rfl⟩ := h
    obtain ⟨ts, rfl, hu⟩ := Reads.expect _ _ _ _ h₁
    obtain ⟨ts', rfl, hv⟩ := Reads.expect _ _ _ _ h₂
    have hu₁ := hu u hs.tokens.symm hs.stop.symm
    have hu₂ := hv { u with tokens := ts } rfl hs.stop.symm
    cases h₃
    have hpure : (pure () : Naming Unit) [] [] = some ((), []) := rfl
    obtain ⟨o, u', here, ho, hr, hs₄⟩ := (eager_header n).sound hpure (hs.open ts') h₄
    obtain rfl := (closeScope_eq_ok hs₄.scopes).mp h₅
    cases h₆
    refine ⟨⟨name.lexeme, o.1, o.2⟩, u', ?_, ?_, hs₄.tokens, hs₄.stop, rfl⟩
    · simp only [outline_function, bind_eq_ok, pure_eq_ok]
      exact ⟨t, _, hu₁, name, _, hu₂, o, u', ho, rfl, rfl⟩
    · have hr' : Outline.resolveHeader o.1 o.2 [] [] = some (q, here) := hr
      simp [Outline.Proc.resolve, hr']

theorem parse_function_complete {n : Nat} {s u u' : State} {o : Outline.Proc} {f : Function}
    (hs : Outside s u) (h : outline n function u = .ok o u') (hf : o.resolve = some f) :
    ∃ s', parse n function s = .ok f s' ∧ Outside s' u' := by
  cases n with
  | zero => cases h
  | succ n =>
    simp only [outline_function, bind_eq_ok, pure_eq_ok] at h
    obtain ⟨t, u₁, h₁, name, u₂, h₂, q, u₃, h₃, rfl, rfl⟩ := h
    obtain ⟨ts, rfl, hu⟩ := Reads.expect _ _ _ _ h₁
    obtain ⟨ts', rfl, hv⟩ := Reads.expect _ _ _ _ h₂
    have hs₁ := hu s hs.tokens hs.stop
    have hs₂ := hv { s with tokens := ts } rfl hs.stop
    obtain ⟨⟨r, here⟩, hr, rfl⟩ := Option.map_eq_some_iff.mp hf
    have hr' : Outline.resolveHeader q.1 q.2 (List.flatten []) [] = some (r, here) := hr
    obtain ⟨_, mid, hm, hall⟩ := (eager_header n).complete h₃ hr'
    obtain ⟨-, rfl⟩ := Naming.pure_eq_some.mp hm
    obtain ⟨s₄, h₄, hs₄⟩ := hall _ (hs.open ts')
    have h₅ := (closeScope_eq_ok hs₄.scopes).mpr rfl
    refine ⟨{ s₄ with
      scopes := ⟨[]⟩
      log := .parsed name.lexeme r.1 :: .closed 0 here.length :: s₄.log },
      ?_, hs₄.tokens, hs₄.stop, rfl⟩
    simp only [parse_function, bind_eq_ok, pure_eq_ok]
    exact ⟨t, _, hs₁, name, _, hs₂, (), _, rfl, r, s₄, h₄, (), _, h₅, (), _, rfl, rfl, rfl⟩

theorem parse_program_sound {n : Nat} {s s' u : State} {fs : List Function} (hs : Outside s u)
    (h : parse n program s = .ok fs s') :
    ∃ os u', outline n program u = .ok os u' ∧ os.mapM Outline.Proc.resolve = some fs := by
  induction n generalizing s u fs with
  | zero => cases h
  | succ n ih =>
    simp only [parse, bind_eq_ok] at h
    obtain ⟨b, s₁, h₁, h⟩ := h
    obtain ⟨ts, rfl, hu⟩ := Reads.check _ _ _ _ h₁
    have hu₁ := hu u hs.tokens.symm hs.stop.symm
    simp only [outline, bind_eq_ok]
    cases b with
    | true =>
      obtain ⟨rfl, rfl⟩ := pure_eq_ok.mp h
      exact ⟨[], _, ⟨true, _, hu₁, pure_ok⟩, rfl⟩
    | false =>
      simp only [Bool.false_eq_true, if_false, bind_eq_ok, pure_eq_ok] at h
      obtain ⟨f, t, hf, rest, v, hrest, rfl, rfl⟩ := h
      obtain ⟨o, u₂, ho, hof, hs₂⟩ := parse_function_sound (hs.take ts) hf
      obtain ⟨os, u₃, hos, hall⟩ := ih hs₂ hrest
      refine ⟨o :: os, u₃, ⟨false, _, hu₁, ?_⟩, by simp [hof, hall]⟩
      simp only [Bool.false_eq_true, if_false, bind_eq_ok, pure_eq_ok]
      exact ⟨o, u₂, ho, os, u₃, hos, rfl, rfl⟩

theorem parse_program_complete {n : Nat} {s u u' : State} {os : List Outline.Proc}
    {fs : List Function} (hs : Outside s u) (h : outline n program u = .ok os u')
    (hfs : os.mapM Outline.Proc.resolve = some fs) : ∃ s', parse n program s = .ok fs s' := by
  induction n generalizing s u os fs with
  | zero => cases h
  | succ n ih =>
    simp only [outline, bind_eq_ok] at h
    obtain ⟨b, u₁, h₁, h⟩ := h
    obtain ⟨ts, rfl, hu⟩ := Reads.check _ _ _ _ h₁
    have hs₁ := hu s hs.tokens hs.stop
    simp only [parse, bind_eq_ok]
    cases b with
    | true =>
      obtain ⟨rfl, rfl⟩ := pure_eq_ok.mp h
      cases hfs
      exact ⟨_, true, _, hs₁, pure_ok⟩
    | false =>
      simp only [Bool.false_eq_true, if_false, bind_eq_ok, pure_eq_ok] at h
      obtain ⟨o, u₂, ho, os, u₃, hos, rfl, rfl⟩ := h
      simp only [List.mapM_cons, Option.bind_eq_bind, Option.bind_eq_some_iff, Option.pure_def,
        Option.some.injEq] at hfs
      obtain ⟨f, hof, rest, hrest, rfl⟩ := hfs
      obtain ⟨s₂, hf, hs₂⟩ := parse_function_complete (hs.take ts) ho hof
      obtain ⟨s₃, hp⟩ := ih hs₂ hos hrest
      refine ⟨s₃, false, _, hs₁, ?_⟩
      simp only [Bool.false_eq_true, if_false, bind_eq_ok, pure_eq_ok]
      exact ⟨f, s₂, hf, rest, s₃, hp, rfl, rfl⟩

end Phrase

/-- For every token list: reading it with names resolved on the way gives a program exactly if reading
it with names kept succeeds and the names of what was read resolve, and then to that program. -/
theorem Program.ofTokens_eq_ok_iff_resolve (ts : List Token) (p : Program) :
    Program.ofTokens ts = .ok p ↔
      ∃ os, Outline.ofTokens ts = .ok os ∧ Outline.Proc.resolveProgram os = some p := by
  have hs : Phrase.Outside (.ofTokens ts) (.ofTokens ts) := ⟨rfl, rfl, rfl⟩
  constructor
  · intro h
    simp only [Program.ofTokens, Program.loggedOfTokens, Phrase.run] at h
    cases hp : Phrase.parse (Phrase.fuel ts) .program (.ofTokens ts) with
    | ok fs s =>
      rw [hp] at h
      obtain rfl : Program.mk fs = p := by simpa [Except.map] using h
      obtain ⟨os, u, hos, hall⟩ := Phrase.parse_program_sound hs hp
      refine ⟨os, ?_, ?_⟩
      · rw [Outline.ofTokens, hos]
      · rw [Outline.Proc.resolveProgram, hall]
        rfl
    | error e s =>
      rw [hp] at h
      simp [Except.map] at h
  · intro h
    obtain ⟨os, hos, hr⟩ := h
    obtain ⟨fs, hall, rfl⟩ := Option.map_eq_some_iff.mp hr
    simp only [Outline.ofTokens] at hos
    cases hp : Phrase.outline (Phrase.fuel ts) .program (.ofTokens ts) with
    | ok os' u =>
      rw [hp] at hos
      cases hos
      obtain ⟨s, hs⟩ := Phrase.parse_program_complete hs hp hall
      simp only [Program.ofTokens, Program.loggedOfTokens, Phrase.run]
      rw [hs]
      rfl
    | error e u =>
      rw [hp] at hos
      cases hos

/-- An initial value still sees the variable outside that its own hides. -/
example :
    Outline.Proc.resolve ⟨"f", ["x"], .braces (.cons
      (.ifThen (.fetch "x") (.braces (.cons (.decls (.last "x" (.fetch "x"))) (.last (.fetch "x")))))
      (.last (.fetch "x")))⟩ =
    some ⟨"f", 1, .cons
      (.ifThen (.fetch 0) (.cons (.block (.last (.decl (.fetch 0)))) (.last (.fetch 1))))
      (.last (.fetch 0))⟩ := by decide

end Morpho
