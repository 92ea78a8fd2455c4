import Morpho.Proofs.EagerResolution

/-! What reading does to the open scopes. A phrase inside a function adds variables to the innermost
scope and leaves all others as they are; what stands in braces of its own, and a whole function, leaves
them all as they are. It is enough to see this of the pass that resolves names, which reading follows
step by step. -/
namespace Morpho

/-- The scope holds what `old` holds, and perhaps more. What had a slot has the same one. -/
structure Scope.Extends (new old : Scope) : Prop where
  suffix : old <:+ new
  lookup : ∀ {name : String} {slot : Nat}, old.lookup name = some slot → new.lookup name = some slot

namespace Scope.Extends

variable {x y z : Scope}

theorem refl (x : Scope) : Scope.Extends x x := ⟨List.suffix_rfl, fun h => h⟩

theorem trans (h : Scope.Extends z y) (h' : Scope.Extends y x) : Scope.Extends z x where
  suffix := h'.suffix.trans h.suffix
  lookup hx := h.lookup (h'.lookup hx)

/-- A new variable hides none of its own scope. -/
theorem cons {name : String} (h : (x.lookup name).isSome = false) (slot : Nat) :
    Scope.Extends ((name, slot) :: x) x := by
  refine ⟨List.suffix_cons _ _, ?_⟩
  intro other found hother
  have hne : other ≠ name := by
    intro heq
    rw [← heq, hother] at h
    cases h
  rw [List.lookup_cons, beq_false_of_ne hne]
  exact hother

end Scope.Extends

/-- As many scopes are open as in `s`. Those around the innermost one are the same, and that one only
holds more. -/
structure Scopes.Extends (t s : Scopes) : Prop where
  depth : t.depth = s.depth
  outer : t.stack.tail = s.stack.tail
  innermost : Scope.Extends (t.stack.headD []) (s.stack.headD [])

namespace Naming

variable {α β : Type}

/-- The work only adds variables to its scope. -/
def Extends (m : Naming α) : Prop :=
  ∀ (outer here here' : Scope) (a : α), m outer here = some (a, here') → Scope.Extends here' here

namespace Extends

theorem pure (a : α) : Extends (Pure.pure a) := by
  intro outer here here' b h
  obtain ⟨-, rfl⟩ := pure_eq_some.mp h
  exact .refl here

theorem bind {m : Naming α} {f : α → Naming β} (hm : Extends m) (hf : ∀ a, Extends (f a)) :
    Extends (m >>= f) := by
  intro outer here here' b h
  obtain ⟨a, mid, h₁, h₂⟩ := bind_eq_some.mp h
  exact (hf a outer mid here' b h₂).trans (hm outer here mid a h₁)

/-- The work comes last but for the form of its result. -/
theorem map {m : Naming α} (hm : Extends m) (f : α → β) : Extends (m >>= fun a => Pure.pure (f a)) :=
  hm.bind fun a => .pure (f a)

theorem find (name : String) : Extends (Naming.find name) := by
  intro outer here here' slot h
  obtain ⟨_, -, heq⟩ := Option.map_eq_some_iff.mp h
  cases heq
  exact .refl here

theorem declare (name : String) : Extends (Naming.declare name) := by
  intro outer here here' u h
  by_cases hfound : (here.lookup name).isSome = true
  · simp [Naming.declare, hfound] at h
  · simp only [Naming.declare, hfound, Bool.false_eq_true, if_false, Option.some.injEq] at h
    cases h
    exact .cons (eq_false_of_ne_true hfound) _

theorem inScope (m : Naming α) : Extends (Naming.inScope m) := by
  intro outer here here' a h
  obtain ⟨_, -, heq⟩ := Option.map_eq_some_iff.mp h
  cases heq
  exact .refl here

theorem declareAll (names : List String) : Extends (Naming.declareAll names) := by
  induction names with
  | nil => exact .pure ()
  | cons name names ih => exact .bind (.declare name) fun _ => ih

theorem mapM {f : α → Naming β} (hf : ∀ a, Extends (f a)) (as : List α) : Extends (as.mapM f) := by
  induction as with
  | nil => exact .pure []
  | cons a as ih =>
    rw [List.mapM_cons]
    exact .bind (hf a) fun b => ih.map (b :: ·)

end Extends
end Naming

mutual

theorem Outline.resolve_extends : ∀ o : Outline, o.resolve.Extends
  | .literal t => by
    rw [Outline.resolve]
    exact .pure _
  | .fetch x => by
    rw [Outline.resolve]
    exact (Naming.Extends.find x).map _
  | .store x e => by
    rw [Outline.resolve]
    exact .bind (.find x) fun slot => e.resolve_extends.map _
  | .call f args => by
    rw [Outline.resolve]
    exact (Outline.resolveAll_extends args).map _
  | .ret e => by
    rw [Outline.resolve]
    exact e.resolve_extends.map _
  | .ifThen c y => by
    rw [Outline.resolve]
    exact .bind c.resolve_extends fun _ => (y.resolve_extends true).map _
  | .ifElse c y o => by
    rw [Outline.resolve]
    refine .bind c.resolve_extends fun _ => .bind (y.resolve_extends true) fun _ => ?_
    exact (o.resolve_extends true).map _
  | .decls ds => by
    rw [Outline.resolve]
    exact ds.resolve_extends.map _
  | .loop c b => by
    rw [Outline.resolve]
    exact .bind c.resolve_extends fun _ => (b.resolve_extends true).map _
  | .or l r => by
    rw [Outline.resolve]
    exact .bind l.resolve_extends fun _ => r.resolve_extends.map _
  | .and l r => by
    rw [Outline.resolve]
    exact .bind l.resolve_extends fun _ => r.resolve_extends.map _
  | .not e => by
    rw [Outline.resolve]
    exact e.resolve_extends.map _

theorem Outline.Arm.resolve_extends : ∀ (arm : Outline.Arm) (opens : Bool), (arm.resolve opens).Extends
  | .bare e, opens => by
    rw [Outline.Arm.resolve]
    exact e.resolve_extends.map _
  | .braces list, true => .inScope _
  | .braces list, false => list.resolve_extends

theorem Outline.Block.resolve_extends : ∀ list : Outline.Block, list.resolve.Extends
  | .last e => by
    rw [Outline.Block.resolve]
    exact e.resolve_extends.map _
  | .cons e rest => by
    rw [Outline.Block.resolve]
    exact .bind e.resolve_extends fun _ => rest.resolve_extends.map _

theorem Outline.Vars.resolve_extends : ∀ list : Outline.Vars, list.resolve.Extends
  | .last x e => by
    rw [Outline.Vars.resolve]
    exact .bind e.resolve_extends fun _ => (Naming.Extends.declare x).map _
  | .cons x e rest => by
    rw [Outline.Vars.resolve]
    refine .bind e.resolve_extends fun _ => .bind (.declare x) fun _ => ?_
    exact rest.resolve_extends.map _

theorem Outline.resolveAll_extends : ∀ es : List Outline, (Outline.resolveAll es).Extends
  | [] => by
    rw [Outline.resolveAll]
    exact .pure []
  | e :: es => by
    rw [Outline.resolveAll]
    exact .bind e.resolve_extends fun _ => (Outline.resolveAll_extends es).map _

end

namespace Phrase

open Morpho.Parser

theorem resolve_extends {p : Phrase} (hp : p.inner = true) (o : p.Named) : (p.resolve o).Extends := by
  cases p with
  | program | function => cases hp
  | params | paramList => exact (Naming.Extends.declareAll o).map _
  | body opens => exact o.resolve_extends opens
  | statements | declarations => exact o.resolve_extends
  | chain => exact .mapM (fun op => op.2.resolve_extends.map _) o
  | arguments | argumentList => exact Outline.resolveAll_extends o
  | expr | disjunction | conjunction | negation | binary | small => exact o.resolve_extends

theorem stack_of_inner {n : Nat} {p : Phrase} (hp : p.inner = true) {s t : State} {a : p.Tree}
    {here : Scope} {rest : List Scope} (hs : s.scopes.stack = here :: rest)
    (h : parse n p s = .ok a t) :
    ∃ more, t.scopes.stack = more :: rest ∧ Scope.Extends more here := by
  obtain ⟨o, u, more, -, hr, ht⟩ := (eager n p hp).sound Naming.pure_some ⟨rfl, rfl, hs⟩ h
  exact ⟨more, ht.scopes, resolve_extends hp o _ _ _ _ hr⟩

/-- Closing the scope that was opened upon `around` leaves `around`. -/
theorem scopes_of_closeScope {s t : State} {more : Scope} {around : Scopes}
    (hs : s.scopes.stack = more :: around.stack) (h : closeScope s = .ok () t) :
    t.scopes = around := by
  rw [(closeScope_eq_ok hs).mp h]

theorem scopes_of_braces {n : Nat} {s t : State} {b : Body} (hs : s.current.kind = .punct '{')
    (h : parse n (body true) s = .ok b t) : t.scopes = s.scopes := by
  cases n with
  | zero => cases h
  | succ n =>
    simp only [parse, bind_eq_ok] at h
    obtain ⟨braces, s₁, h₁, h⟩ := h
    have haccept : accept (.punct '{') s = .ok true { s with tokens := s.tokens.tail } :=
      check_bind_of_kind hs
    cases haccept.symm.trans h₁
    simp only [if_true, bind_eq_ok, pure_eq_ok] at h
    obtain ⟨_, s₂, h₂, list, s₃, h₃, _, s₄, h₄, rfl, rfl⟩ := h
    cases h₂
    obtain ⟨more, hmore, -⟩ := stack_of_inner (p := statements) rfl rfl h₃
    exact scopes_of_closeScope hmore h₄

theorem scopes_of_function {n : Nat} {s t : State} {f : Function}
    (h : parse n function s = .ok f t) : t.scopes = s.scopes := by
  cases n with
  | zero => cases h
  | succ n =>
    simp only [parse_function, bind_eq_ok, pure_eq_ok] at h
    obtain ⟨_, s₁, h₁, name, s₂, h₂, _, s₃, h₃, q, s₄, h₄, _, s₅, h₅, _, s₆, h₆, rfl, rfl⟩ := h
    obtain ⟨ts, rfl, -⟩ := Reads.expect _ _ _ _ h₁
    obtain ⟨ts', rfl, -⟩ := Reads.expect _ _ _ _ h₂
    cases h₃
    obtain ⟨o, u, more, -, -, ht⟩ := (eager_header n).sound Naming.pure_some ⟨rfl, rfl, rfl⟩ h₄
    cases h₆
    have hclosed : s₅.scopes = s.scopes := scopes_of_closeScope ht.scopes h₅
    exact hclosed

/-- Reading the functions `fs`, one after the other, leads from one state to another. -/
inductive Passes : State → List Function → State → Prop
  | none (s : State) : Passes s [] s
  | more {n : Nat} {s t u : State} {f : Function} {fs : List Function}
    (h : parse n function s = .ok f t) (hs : Passes t fs u) : Passes s (f :: fs) u

theorem Passes.scopes {s t : State} {fs : List Function} (h : Passes s fs t) :
    t.scopes = s.scopes := by
  induction h with
  | none s => rfl
  | more h _ ih => rw [ih, scopes_of_function h]

/-- A part of the functions is passed first. -/
theorem Passes.take {s u : State} {fs : List Function} (h : Passes s fs u) (k : Nat) :
    ∃ t, Passes s (fs.take k) t := by
  induction h generalizing k with
  | none s => exact ⟨s, by simpa using Passes.none s⟩
  | @more n s t u f fs h _ ih =>
    cases k with
    | zero => exact ⟨s, .none s⟩
    | succ k =>
      obtain ⟨v, hv⟩ := ih k
      exact ⟨v, .more h hv⟩

/-- A program is read function by function. -/
theorem passes_of_program {n : Nat} {s t : State} {fs : List Function}
    (h : parse n program s = .ok fs t) : Passes s fs t := by
  induction n generalizing s fs with
  | zero => cases h
  | succ n ih =>
    by_cases hend : s.current.kind = .eof
    · rw [parse_program_end hend] at h
      cases h
      exact .none _
    · rw [parse_program_more hend] at h
      simp only [bind_eq_ok, pure_eq_ok] at h
      obtain ⟨f, u, hf, rest, v, hrest, rfl, rfl⟩ := h
      exact .more hf (ih hrest)

/-- From any place in any tokens on, and with any scopes open, at least one of them: a phrase inside a
function that is read leaves open as many scopes as there were, those around the innermost one as they
were, and that one with nothing but more variables. A body in braces of its own and a function leave all
scopes as they were, so that none is open between the functions of a program, nor behind the last. -/
theorem parse_extends_scopes :
    (∀ (n : Nat) (p : Phrase) (s t : State) (a : p.Tree), p.inner = true → 1 ≤ s.scopes.depth →
      parse n p s = .ok a t → t.scopes.Extends s.scopes) ∧
    (∀ (n : Nat) (s t : State) (b : Body), s.current.kind = .punct '{' →
      parse n (body true) s = .ok b t → t.scopes = s.scopes) ∧
    (∀ (n : Nat) (s t : State) (f : Function), parse n function s = .ok f t → t.scopes = s.scopes) ∧
    (∀ (ts : List Token) (fs : List Function) (t : State), Passes (.ofTokens ts) fs t →
      t.scopes = .empty) ∧
    (∀ (ts : List Token) (p : Program), Program.ofTokens ts = .ok p → ∀ k : Nat,
      ∃ t, Passes (.ofTokens ts) (p.functions.take k) t ∧ t.scopes = .empty) := by
  refine ⟨?_, fun n s t b => scopes_of_braces, fun n s t f => scopes_of_function, ?_, ?_⟩
  · intro n p s t a hp hdepth h
    cases hstack : s.scopes.stack with
    | nil => simp [Scopes.depth, hstack] at hdepth
    | cons here rest =>
      obtain ⟨more, hmore, hextends⟩ := stack_of_inner hp hstack h
      exact ⟨by simp [Scopes.depth, hmore, hstack], by simp [hmore, hstack],
        by simpa [hmore, hstack] using hextends⟩
  · intro ts fs t h
    exact h.scopes
  · intro ts p h k
    obtain ⟨s, hs⟩ := Program.ofTokens_eq_ok.mp h
    obtain ⟨t, ht⟩ := (passes_of_program hs).take k
    exact ⟨t, ht, ht.scopes⟩

-- what is read of given tokens can be found by evaluation
deriving instance DecidableEq for State, EStateM.Result

/-- In `if x { var y = 1; } else var x = y`, read where `x` and `y` are bound further out, the braces
keep their `y` to themselves, and the other arm hands its `x` on. -/
theorem parse_extends_scopes_of_arms :
    let key (k : Keyword) : Token := ⟨.keyword k, k.text, .start⟩
    let mark (c : Char) : Token := ⟨.punct c, c.toString, .start⟩
    let name (lexeme : String) : Token := ⟨.name, lexeme, .start⟩
    let braces := [mark '{', key .var, name "y", mark '=', ⟨.literal, "1", .start⟩, mark ';', mark '}']
    let bare := [key .var, name "x", mark '=', name "y"]
    let state (ts : List Token) (scope : Scope) (log : List Log.Event) : State :=
      ⟨ts, .start, ⟨[scope, [("x", 1), ("y", 0)]]⟩, log⟩
    let s := state (key .cond :: name "x" :: braces ++ key .alt :: bare) [("z", 2)] []
    let t := state [] [("x", 3), ("z", 2)] [.bound "x" 3, .closed 2 1, .bound "y" 3, .opened 3]
    (∃ a, parse 40 expr s = .ok a t) ∧ t.scopes.Extends s.scopes ∧
    ∃ b u, parse 40 (body true) (state braces [("z", 2)] []) = .ok b u ∧
      u.scopes = (state braces [("z", 2)] []).scopes := by
  intro key mark name braces bare state s t
  have hs : parse 40 expr s = .ok (.ifElse (.fetch 1) (.last (.block (.last (.decl (.literal "1")))))
      (.last (.block (.last (.decl (.fetch 0)))))) t := by
    decide +kernel
  have hb : parse 40 (body true) (state braces [("z", 2)] []) =
      .ok (.last (.block (.last (.decl (.literal "1")))))
        (state [] [("z", 2)] [.closed 2 1, .bound "y" 3, .opened 3]) := by
    decide +kernel
  refine ⟨⟨_, hs⟩, ?_, _, _, hb, ?_⟩
  · exact parse_extends_scopes.1 40 expr s t _ rfl (by decide) hs
  · exact parse_extends_scopes.2.1 40 (state braces [("z", 2)] []) _ _ rfl hb

end Phrase
end Morpho
