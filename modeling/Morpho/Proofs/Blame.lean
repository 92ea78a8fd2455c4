import Morpho.Proofs.Fuel

/-! What a reader finds wrong, it finds wrong with a token of its input or with the end of the file. A
name that is declared twice may be reported long after its token was taken, but it is still the token
that the reader took. -/
namespace Morpho

namespace Parser

variable {α β : Type}

/-- What can be found wrong with tokens that satisfy `T` and end at `fin`. -/
inductive Blame (T : Token → Prop) (fin : Position) : Diagnostic → Prop
  | token {t : Token} {wanted : String} (ht : T t) (hw : Wanted wanted) :
    Blame T fin (t.diagnostic wanted)
  | alreadyDeclared {t : Token} (ht : T t) : Blame T fin ⟨.alreadyDeclared t.lexeme, t.pos⟩
  | undeclared {t : Token} (ht : T t) : Blame T fin ⟨.undeclared t.lexeme, t.pos⟩
  | eof {wanted : String} (hw : Wanted wanted) : Blame T fin ((Token.eof fin).diagnostic wanted)

/-- The tokens left satisfy `T`, and the end of the file stands at `fin`. -/
structure State.Within (T : Token → Prop) (fin : Position) (s : State) : Prop where
  tokens : ∀ t ∈ s.tokens, T t
  stop : s.stop = fin

namespace State.Within

variable {T : Token → Prop} {fin : Position} {s : State}

theorem current (h : s.Within T fin) (hs : 1 ≤ s.tokens.length) : T s.current := by
  apply h.tokens
  rw [State.current]
  cases ht : s.tokens with
  | nil => simp [ht] at hs
  | cons t ts => simp

theorem tail (h : s.Within T fin) : { s with tokens := s.tokens.tail }.Within T fin where
  tokens t ht := h.tokens t (List.mem_of_mem_tail ht)
  stop := h.stop

theorem blame (h : s.Within T fin) {wanted : String} (hw : Wanted wanted) :
    Blame T fin (s.current.diagnostic wanted) := by
  by_cases hs : 1 ≤ s.tokens.length
  · exact .token (h.current hs) hw
  · have hnil : s.tokens = [] := List.length_eq_zero_iff.mp (by omega)
    have hcurrent : s.current = .eof fin := by
      rw [State.current, hnil, h.stop]
      rfl
    rw [hcurrent]
    exact .eof hw

end State.Within

/-- From `s` on, `x` blames one of the tokens there or the end of the file, or it leaves no others. -/
structure Blames (T : Token → Prop) (fin : Position) (x : Parser α) (s : State) : Prop where
  ok : ∀ {a s'}, x s = .ok a s' → s'.Within T fin
  error : ∀ {d s'}, x s = .error (.found d) s' → Blame T fin d

namespace Blames

variable {T : Token → Prop} {fin : Position} {s : State}

theorem of_eq {x y : Parser α} {t : State} (h : Blames T fin x t) (hy : y s = x t) :
    Blames T fin y s where
  ok hs := h.ok (hy ▸ hs)
  error hs := h.error (hy ▸ hs)

theorem bind {x : Parser α} {f : α → Parser β} (hx : Blames T fin x s)
    (hf : ∀ a s', x s = .ok a s' → s'.Within T fin → Blames T fin (f a) s') :
    Blames T fin (x >>= f) s := by
  cases h : x s with
  | ok a s' =>
    refine (hf a s' h (hx.ok h)).of_eq ?_
    simp only [Bind.bind, EStateM.bind, h]
  | error e s' =>
    have hbind : (x >>= f) s = .error e s' := by simp only [Bind.bind, EStateM.bind, h]
    constructor
    · intro b u hb
      cases hbind.symm.trans hb
    · intro d u hd
      cases hbind.symm.trans hd
      exact hx.error h

/-- A step that leaves the tokens alone. -/
theorem keeps {x : Parser α} {f : α → Parser β} (hx : Blames T fin x s) (hk : Keeps x)
    (hf : ∀ a s', s'.tokens = s.tokens → s'.Within T fin → Blames T fin (f a) s') :
    Blames T fin (x >>= f) s :=
  hx.bind fun a s' h => hf a s' (hk s a s' h)

theorem finish {x : Parser α} {a : α} {s' : State} (hx : x s = .ok a s') (h : s'.Within T fin) :
    Blames T fin x s where
  ok hs := by
    cases hx.symm.trans hs
    exact h
  error hs := by cases hx.symm.trans hs

theorem fails {x : Parser α} {d : Diagnostic} {s' : State} (hx : x s = .error (.found d) s')
    (h : Blame T fin d) : Blames T fin x s where
  ok hs := by cases hx.symm.trans hs
  error hs := by
    cases hx.symm.trans hs
    exact h

theorem faults {x : Parser α} {f : Fault} {s' : State} (hx : x s = .error (.fault f) s') :
    Blames T fin x s where
  ok hs := by cases hx.symm.trans hs
  error hs := by cases hx.symm.trans hs

theorem openScope (h : s.Within T fin) : Blames T fin openScope s :=
  finish rfl ⟨h.tokens, h.stop⟩

theorem tell (e : Log.Event) (h : s.Within T fin) : Blames T fin (tell e) s :=
  finish rfl ⟨h.tokens, h.stop⟩

theorem closeScope (h : s.Within T fin) : Blames T fin closeScope s := by
  cases hpop : s.scopes.pop with
  | ok r =>
    refine finish (by rw [Parser.closeScope, hpop]) ?_
    exact ⟨h.tokens, h.stop⟩
  | error f => exact faults (by rw [Parser.closeScope, hpop])

theorem declare {t : Token} (ht : T t) (h : s.Within T fin) : Blames T fin (declare t) s := by
  cases hbind : s.scopes.bind t.lexeme with
  | ok r =>
    refine finish (by rw [Parser.declare, hbind]) ?_
    exact ⟨h.tokens, h.stop⟩
  | error e =>
    have hs : Parser.declare t s = .error (e.map (⟨·, t.pos⟩)) s := by rw [Parser.declare, hbind]
    cases e with
    | fault f => exact faults hs
    | found c =>
      obtain rfl : c = .alreadyDeclared t.lexeme := by
        simp only [Scopes.bind] at hbind
        grind
      exact fails hs (.alreadyDeclared ht)

theorem resolve {t : Token} (ht : T t) (h : s.Within T fin) : Blames T fin (resolve t) s := by
  cases hslot : s.scopes.slot? t.lexeme with
  | some slot => exact finish (by rw [Parser.resolve, Scopes.find, hslot]) h
  | none => exact fails (by rw [Parser.resolve, Scopes.find, hslot]) (.undeclared ht)

theorem expect {k : Token.Kind} {f : Token → Parser α} (hk : k ≠ .eof) (h : s.Within T fin)
    (hf : ∀ t s', T t → s'.Within T fin → Blames T fin (f t) s') :
    Blames T fin (expect k >>= f) s := by
  by_cases hkind : s.current.kind = k
  · have hs := State.length_pos_of_kind (s := s) (by rw [hkind]; exact hk)
    exact (hf s.current _ (h.current hs) h.tail).of_eq (expect_bind_of_kind hkind)
  · exact fails (expect_bind_of_ne hkind) (h.blame (.kind k))

end Blames

/-- If the phrases inside blame only what is there, so does the whole. -/
theorem Steps.blames {T : Token → Prop} {fin : Position} {move : Position → Position}
    {x y : (p : Phrase) → Parser p.Tree}
    (hx : ∀ p s, p ≠ .program → s.Within T fin → Blames T fin (x p) s)
    {home seen limit opened : Nat} {a b : Parser α}
    (h : Steps T move x y home seen limit opened a b) (hlimit : limit ≤ 16) :
    ∀ {s : State}, seen ≤ s.tokens.length → s.Within T fin → Blames T fin a s := by
  induction h with
  | finish a =>
    intro s _ hs
    exact .finish rfl hs
  | fails hw =>
    intro s _ hs
    exact .fails rfl (hs.blame hw)
  | @current seen limit opened f g some none ih =>
    intro s hseen hs
    by_cases hend : s.current.kind = .eof
    · obtain ⟨w, hw, hf, -⟩ := none s.current hend
      have hfail : (Parser.current >>= f) s = .error (.found (s.current.diagnostic w)) s := by
        change f s.current s = _
        rw [hf]
        rfl
      exact .fails hfail (hs.blame hw)
    · have h₁ := State.length_pos_of_kind hend
      exact (ih s.current (hs.current h₁) hend hlimit (by omega) hs).of_eq rfl
  | @check seen limit opened k f g hk yes no ihyes ihno =>
    intro s hseen hs
    by_cases hkind : s.current.kind = k
    · have h₁ := State.length_pos_of_inner (hkind ▸ hk)
      exact (ihyes hlimit (by omega) hs).of_eq (check_bind_of_kind hkind)
    · exact (ihno hlimit hseen hs).of_eq (check_bind_of_ne hkind)
  | @checkSecond seen limit opened k f g hk hone yes no ihyes ihno =>
    intro s hseen hs
    cases hsecond : s.tokens[1]?.any (·.kind = k) with
    | true =>
      have h₂ := State.length_of_second hsecond
      exact (ihyes hlimit (by omega) hs).of_eq (checkSecond_bind hsecond)
    | false => exact (ihno hlimit hseen hs).of_eq (checkSecond_bind hsecond)
  | glance h ih =>
    intro s hseen hs
    exact (ih _ true hlimit hseen hs).of_eq rfl
  | @advance seen limit opened f g h ih =>
    intro s hseen hs
    refine (ih s.current (hs.current (by omega)) (Nat.le_refl 16) ?_ hs.tail).of_eq rfl
    simp only [List.length_tail]
    omega
  | expect hk h ih =>
    intro s _ hs
    exact .expect hk hs fun t s' ht hs' => ih t ht (Nat.le_refl 16) (Nat.zero_le _) hs'
  | openScope h ih =>
    intro s hseen hs
    exact .keeps (.openScope hs) .openScope fun _ s' ht hs' => ih hlimit (ht ▸ hseen) hs'
  | closeScope h ih =>
    intro s hseen hs
    exact .keeps (.closeScope hs) .closeScope fun _ s' ht hs' => ih hlimit (ht ▸ hseen) hs'
  | declare ht h ih =>
    intro s hseen hs
    exact .keeps (.declare ht hs) (.declare _) fun _ s' hs₁ hs' => ih hlimit (hs₁ ▸ hseen) hs'
  | resolve ht h ih =>
    intro s hseen hs
    exact .keeps (.resolve ht hs) (.resolve _) fun n s' hs₁ hs' => ih n hlimit (hs₁ ▸ hseen) hs'
  | tell e h ih =>
    intro s hseen hs
    exact .keeps (.tell e hs) (.tell e) fun _ s' ht hs' => ih hlimit (ht ▸ hseen) hs'
  | @read seen limit opened p f g hp h ih =>
    intro s hseen hs
    refine .bind (hx p s (Phrase.ne_program_of_rank hp.1 hlimit) hs) fun a s' _ hs' => ?_
    exact ih a hlimit (Nat.zero_le _) hs'

end Parser

namespace Phrase

open Morpho.Parser

variable {T : Token → Prop} {fin : Position}

theorem parse_blames (n : Nat) (p : Phrase) (s : State) (hp : p ≠ program) (hs : s.Within T fin) :
    Blames T fin (parse n p) s := by
  induction n generalizing p s with
  | zero =>
    rw [parse]
    exact .faults rfl
  | succ n ih => exact (parse_steps T id n n hp).blames ih p.rank_le (Nat.zero_le _) hs

theorem parse_program_blames (n : Nat) (s : State) (hs : s.Within T fin) :
    Blames T fin (parse n program) s := by
  induction n generalizing s with
  | zero =>
    rw [parse]
    exact .faults rfl
  | succ n ih =>
    by_cases hend : s.current.kind = .eof
    · exact .finish (parse_program_end hend) hs
    · refine Blames.of_eq ?_ (parse_program_more hend)
      refine (parse_blames n function s nofun hs).bind fun f s' _ hs' => ?_
      exact (ih s' hs').bind fun fs s'' _ hs'' => .finish rfl hs''

end Phrase

/-- What is wrong with a token list is wrong with one of its tokens or with the end of the file. -/
theorem Program.blame_of_ofTokens {ts : List Token} {fin : Position} {d : Diagnostic}
    (hts : ∀ t ∈ ts, t.kind ≠ .eof) (h : ofTokens (ts ++ [.eof fin]) = .error (.found d)) :
    Parser.Blame (· ∈ ts) fin d := by
  obtain ⟨s, hs⟩ := ofTokens_eq_error.mp h
  rw [Parser.State.ofTokens_eof hts] at hs
  exact (Phrase.parse_program_blames _ _ ⟨fun _ ht => ht, rfl⟩).error hs

end Morpho
