import Morpho.Proofs.LexicalScope
import Morpho.Proofs.Runs

/-! Two readers side by side: one resolves names while it reads, the other keeps them. Both take the
same tokens, and the open scopes of the first are at every moment what the pass over the names that
the second has recorded so far gives. -/
namespace Morpho

namespace Parser

theorem resolve_eq_ok {t : Token} {s s' : State} {slot : Nat} :
    resolve t s = .ok slot s' ↔ s.scopes.slot? t.lexeme = some slot ∧ s = s' := by
  rw [resolve, Scopes.find]
  cases s.scopes.slot? t.lexeme <;> simp

theorem declare_eq_ok {t : Token} {s s' : State} {here : Scope} {rest : List Scope}
    (h : s.scopes.stack = here :: rest) :
    declare t s = .ok () s' ↔ (here.lookup t.lexeme).isSome = false ∧
      s' = { s with
        scopes := ⟨((t.lexeme, s.scopes.count) :: here) :: rest⟩
        log := .bound t.lexeme s.scopes.count :: s.log } := by
  rw [declare, Scopes.bind, h]
  by_cases hx : (here.lookup t.lexeme).isSome = true
  · simp [hx]
  · simp [hx, eq_comm]

theorem closeScope_eq_ok {s s' : State} {here : Scope} {rest : List Scope}
    (h : s.scopes.stack = here :: rest) :
    closeScope s = .ok () s' ↔
      s' = { s with scopes := ⟨rest⟩, log := .closed rest.length here.length :: s.log } := by
  rw [closeScope, Scopes.pop, h]
  simp [Scopes.depth, eq_comm]

/-- Both readers are at the same token, and the open scopes of the first are `here` and around it
`rest`. -/
structure Beside (s u : State) (here : Scope) (rest : List Scope) : Prop where
  tokens : s.tokens = u.tokens
  stop : s.stop = u.stop
  scopes : s.scopes.stack = here :: rest

theorem Beside.take {s u : State} {here : Scope} {rest : List Scope} (h : Beside s u here rest)
    (ts : List Token) : Beside { s with tokens := ts } { u with tokens := ts } here rest :=
  ⟨rfl, h.stop, h.scopes⟩

theorem Beside.open {s u : State} {here : Scope} {rest : List Scope} (h : Beside s u here rest) :
    Beside { s with scopes := s.scopes.push, log := .opened (s.scopes.depth + 1) :: s.log } u []
      (here :: rest) :=
  ⟨h.tokens, h.stop, congrArg ([] :: ·) h.scopes⟩

/-- What is left of one reader, `x`, and of the other, `y`, from a place on where the names so far
resolve to what `m` gives. All names of what `y` reads resolve by `r`. -/
structure Tracks {α β δ : Type} (m : Naming δ) (x : δ → Parser α) (y : Parser β)
    (r : β → Naming α) : Prop where
  sound : ∀ {u here rest d mid s a s'}, m rest.flatten here = some (d, mid) →
    Beside s u mid rest → x d s = .ok a s' →
    ∃ b u' here', y u = .ok b u' ∧ r b rest.flatten here = some (a, here') ∧
      Beside s' u' here' rest
  complete : ∀ {u here rest b u' a here'}, y u = .ok b u' →
    r b rest.flatten here = some (a, here') →
    ∃ d mid, m rest.flatten here = some (d, mid) ∧ ∀ s, Beside s u mid rest →
      ∃ s', x d s = .ok a s' ∧ Beside s' u' here' rest

namespace Tracks

variable {α β γ δ ε : Type} {m : Naming δ} {r : β → Naming α}

/-- At the end, the names resolve to what was read. -/
theorem finish {f : δ → α} {b : β} (h : r b = m >>= fun d => pure (f d)) :
    Tracks m (fun d => pure (f d)) (pure b) r where
  sound hm hs hx := by
    obtain ⟨rfl, rfl⟩ := pure_eq_ok.mp hx
    refine ⟨b, _, _, pure_ok, ?_, hs⟩
    rw [h]
    exact Naming.bind_eq_some.mpr ⟨_, _, hm, Naming.pure_some⟩
  complete hy hr := by
    obtain ⟨rfl, rfl⟩ := pure_eq_ok.mp hy
    rw [h] at hr
    obtain ⟨d, mid, hm, hf⟩ := Naming.bind_eq_some.mp hr
    obtain ⟨rfl, rfl⟩ := Naming.pure_eq_some.mp hf
    exact ⟨d, mid, hm, fun s hs => ⟨s, pure_ok, hs⟩⟩

theorem fails {w : String} : Tracks m (fun _ => unexpected w) (unexpected w) r where
  sound _ _ hx := by cases hx
  complete hy _ := by cases hy

/-- Both readers look at the tokens. -/
theorem reads {x : Parser γ} {f : δ → γ → Parser α} {g : γ → Parser β} (hx : Reads x)
    (h : ∀ c, Tracks m (fun d => f d c) (g c) r) :
    Tracks m (fun d => x >>= f d) (x >>= g) r where
  sound hm hs hf := by
    obtain ⟨c, t, hc, hf⟩ := bind_eq_ok.mp hf
    obtain ⟨ts, rfl, hu⟩ := hx _ _ _ hc
    have hc' := hu _ hs.tokens.symm hs.stop.symm
    obtain ⟨b, u', here', hb, hr, hs'⟩ := (h c).sound hm (hs.take ts) hf
    exact ⟨b, u', here', bind_eq_ok.mpr ⟨c, _, hc', hb⟩, hr, hs'⟩
  complete hy hr := by
    obtain ⟨c, t, hc, hg⟩ := bind_eq_ok.mp hy
    obtain ⟨ts, rfl, hu⟩ := hx _ _ _ hc
    obtain ⟨d, mid, hm, hall⟩ := (h c).complete hg hr
    refine ⟨d, mid, hm, fun s hs => ?_⟩
    have hc' := hu s hs.tokens hs.stop
    obtain ⟨s', hs', hb⟩ := hall _ (hs.take ts)
    exact ⟨s', bind_eq_ok.mpr ⟨c, _, hc', hs'⟩, hb⟩

/-- Both readers read a part whose names resolve by `q`. -/
theorem part {x : Parser γ} {y : Parser ε} {q : ε → Naming γ} {f : δ → γ → Parser α}
    {g : ε → Parser β} (hx : Tracks (pure ()) (fun _ => x) y q)
    (h : ∀ o, Tracks (m >>= fun d => q o >>= fun c => pure (d, c)) (fun p => f p.1 p.2) (g o) r) :
    Tracks m (fun d => x >>= f d) (y >>= g) r where
  sound hm hs hf := by
    obtain ⟨c, t, hc, hf⟩ := bind_eq_ok.mp hf
    -- the part starts in the scope as `m` has left it
    obtain ⟨o, u₁, mid, ho, hq, hs₁⟩ := hx.sound Naming.pure_some hs hc
    have hm' := Naming.pair_eq_some.mpr ⟨_, hm, hq⟩
    obtain ⟨b, u', here', hb, hr, hs'⟩ := (h o).sound hm' hs₁ hf
    exact ⟨b, u', here', bind_eq_ok.mpr ⟨o, u₁, ho, hb⟩, hr, hs'⟩
  complete hy hr := by
    obtain ⟨o, u₁, ho, hg⟩ := bind_eq_ok.mp hy
    obtain ⟨⟨d, c⟩, mid', hm', hall⟩ := (h o).complete hg hr
    obtain ⟨mid, hm, hq⟩ := Naming.pair_eq_some.mp hm'
    obtain ⟨_, mid₁, hpure, hpart⟩ := hx.complete ho hq
    obtain ⟨-, rfl⟩ := Naming.pure_eq_some.mp hpure
    refine ⟨d, mid, hm, fun s hs => ?_⟩
    obtain ⟨s₁, hs₁, hb₁⟩ := hpart s hs
    obtain ⟨s', hs', hb⟩ := hall s₁ hb₁
    exact ⟨s', bind_eq_ok.mpr ⟨c, s₁, hs₁, hs'⟩, hb⟩

/-- Only the first reader does something, and it does what `q` does. -/
theorem scope {x : Parser γ} {q : Naming γ} {f : δ → γ → Parser α} {y : Parser β}
    (hx : Tracks (pure ()) (fun _ => x) (pure ()) (fun _ : Unit => q))
    (h : Tracks (m >>= fun d => q >>= fun c => pure (d, c)) (fun p => f p.1 p.2) y r) :
    Tracks m (fun d => x >>= f d) y r :=
  part (g := fun _ => y) hx fun _ => h

theorem resolve (t : Token) : Tracks (pure ()) (fun _ => Parser.resolve t) (pure ())
    (fun _ : Unit => Naming.find t.lexeme) where
  sound hm hs hx := by
    obtain ⟨-, rfl⟩ := Naming.pure_eq_some.mp hm
    obtain ⟨hslot, rfl⟩ := resolve_eq_ok.mp hx
    rw [Scopes.slot?_eq_lookup, hs.scopes, List.flatten_cons] at hslot
    exact ⟨(), _, _, pure_ok, by simp [Naming.find, hslot], hs⟩
  complete hy hr := by
    obtain ⟨-, rfl⟩ := pure_eq_ok.mp hy
    obtain ⟨slot, hslot, hpair⟩ := Option.map_eq_some_iff.mp hr
    cases hpair
    refine ⟨(), _, Naming.pure_some, fun s hs => ⟨s, ?_, hs⟩⟩
    rw [resolve_eq_ok, Scopes.slot?_eq_lookup, hs.scopes, List.flatten_cons]
    exact ⟨hslot, rfl⟩

theorem declare (t : Token) : Tracks (pure ()) (fun _ => Parser.declare t) (pure ())
    (fun _ : Unit => Naming.declare t.lexeme) where
  sound hm hs hx := by
    obtain ⟨-, rfl⟩ := Naming.pure_eq_some.mp hm
    obtain ⟨hnew, rfl⟩ := (declare_eq_ok hs.scopes).mp hx
    refine ⟨(), _, _, pure_ok, ?_, hs.tokens, hs.stop, rfl⟩
    simp [Naming.declare, hnew, Scopes.count, hs.scopes]
  complete hy hr := by
    obtain ⟨-, rfl⟩ := pure_eq_ok.mp hy
    simp only [Naming.declare] at hr
    split at hr
    · cases hr
    · next hnew =>
      cases hr
      refine ⟨(), _, Naming.pure_some, fun s hs => ?_⟩
      refine ⟨_, (declare_eq_ok hs.scopes).mpr ⟨eq_false_of_ne_true hnew, rfl⟩, hs.tokens, hs.stop, ?_⟩
      simp [Scopes.count, hs.scopes]

/-- What stands in braces is read in a scope of its own. -/
theorem inScope {x : Parser α} {y : Parser β} (h : Tracks (pure ()) (fun _ => x) y r) :
    Tracks (pure ())
      (fun _ => do
        openScope
        let a ← x
        closeScope
        return a) y (fun b => Naming.inScope (r b)) where
  sound hm hs hx := by
    obtain ⟨-, rfl⟩ := Naming.pure_eq_some.mp hm
    obtain ⟨_, s₁, h₁, hx⟩ := bind_eq_ok.mp hx
    obtain ⟨a, s₂, h₂, hx⟩ := bind_eq_ok.mp hx
    obtain ⟨_, s₃, h₃, hx⟩ := bind_eq_ok.mp hx
    obtain ⟨rfl, rfl⟩ := pure_eq_ok.mp hx
    cases h₁
    have hs₁ := hs.open
    obtain ⟨b, u', here', hb, hr, hs₂⟩ := h.sound Naming.pure_some hs₁ h₂
    obtain rfl := (closeScope_eq_ok hs₂.scopes).mp h₃
    refine ⟨b, u', _, hb, ?_, hs₂.tokens, hs₂.stop, rfl⟩
    rw [List.flatten_cons] at hr
    simp [Naming.inScope, hr]
  complete hy hr := by
    obtain ⟨⟨a, here'⟩, hin, hpair⟩ := Option.map_eq_some_iff.mp hr
    cases hpair
    refine ⟨(), _, Naming.pure_some, fun s hs => ?_⟩
    rw [← List.flatten_cons] at hin
    obtain ⟨_, mid, hm, hall⟩ := h.complete hy hin
    obtain ⟨-, rfl⟩ := Naming.pure_eq_some.mp hm
    obtain ⟨s₂, h₂, hs₂⟩ := hall _ hs.open
    have h₃ := (closeScope_eq_ok hs₂.scopes).mpr rfl
    refine ⟨_, bind_eq_ok.mpr ⟨(), _, rfl, bind_eq_ok.mpr ⟨a, s₂, h₂, bind_eq_ok.mpr
      ⟨(), _, h₃, pure_ok⟩⟩⟩, hs₂.tokens, hs₂.stop, rfl⟩

/-- The second reader gives what it read another form. -/
theorem rename {x : Parser α} {y : Parser ε} {q : ε → Naming α} {f : ε → β}
    (h : Tracks (pure ()) (fun _ => x) y q) (hr : ∀ o, r (f o) = q o) :
    Tracks (pure ()) (fun _ => x) (y >>= fun o => pure (f o)) r where
  sound hm hs hx := by
    obtain ⟨o, u', here', ho, hq, hs'⟩ := h.sound hm hs hx
    refine ⟨f o, u', here', bind_eq_ok.mpr ⟨o, u', ho, pure_ok⟩, ?_, hs'⟩
    rw [hr, hq]
  complete hy hq := by
    obtain ⟨o, u', ho, hf⟩ := bind_eq_ok.mp hy
    obtain ⟨rfl, rfl⟩ := pure_eq_ok.mp hf
    rw [hr] at hq
    exact h.complete ho hq

end Tracks
end Parser
end Morpho
