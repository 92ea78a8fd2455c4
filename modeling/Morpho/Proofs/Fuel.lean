import Morpho.Proofs.Steps
import Morpho.Proofs.Derivation

/-! The fuel that reading starts with is enough for every token list: between two tokens phrases nest
less than sixteen deep. More fuel changes nothing. -/
namespace Morpho

namespace Parser

variable {α β : Type}

theorem State.length_pos_of_kind {s : State} (h : s.current.kind ≠ .eof) : 1 ≤ s.tokens.length := by
  obtain ⟨tokens, stop, scopes, log⟩ := s
  cases tokens with
  | nil => exact absurd rfl h
  | cons t ts => simp

theorem State.length_pos_of_inner {s : State} (h : s.current.kind.inner = true) :
    1 ≤ s.tokens.length := by
  apply State.length_pos_of_kind
  intro hend
  rw [hend] at h
  cases h

theorem State.length_of_second {s : State} {k : Token.Kind}
    (h : s.tokens[1]?.any (·.kind = k) = true) : 2 ≤ s.tokens.length := by
  cases ht : s.tokens[1]? with
  | none => simp [ht] at h
  | some t => exact (List.getElem?_eq_some_iff.mp ht).1

/-- From `s` on, `x` has fuel enough, and it leaves no more tokens than there are. -/
def Ends (x : Parser α) (s : State) : Prop :=
  match x s with
  | .ok _ s' => s'.tokens.length ≤ s.tokens.length
  | .error e _ => e ≠ .fault .outOfFuel

namespace Ends

theorem of_eq {x y : Parser α} {s t : State} (h : Ends x t) (hy : y s = x t)
    (hle : t.tokens.length ≤ s.tokens.length) : Ends y s := by
  simp only [Ends, hy] at h ⊢
  split at h
  · exact Nat.le_trans h hle
  · exact h

theorem length_le {x : Parser α} {s t : State} {a : α} (h : Ends x s) (hx : x s = .ok a t) :
    t.tokens.length ≤ s.tokens.length := by
  simpa only [Ends, hx] using h

theorem bind {x : Parser α} {f : α → Parser β} {s : State} (hx : Ends x s)
    (hf : ∀ a t, x s = .ok a t → Ends (f a) t) : Ends (x >>= f) s := by
  cases h : x s with
  | ok a t => exact (hf a t h).of_eq (by simp [Bind.bind, EStateM.bind, h]) (hx.length_le h)
  | error e t =>
    simp only [Ends, h] at hx
    simpa [Ends, Bind.bind, EStateM.bind, h] using hx

/-- A step that leaves the tokens alone. -/
theorem keeps {x : Parser α} {f : α → Parser β} {s : State} (hx : Ends x s) (hk : Keeps x)
    (hf : ∀ a t, t.tokens = s.tokens → Ends (f a) t) : Ends (x >>= f) s :=
  bind hx fun a t h => hf a t (hk s a t h)

theorem closeScope (s : State) : Ends closeScope s := by
  simp only [Ends, Parser.closeScope]
  rcases s with ⟨tokens, stop, ⟨stack⟩, log⟩
  cases stack with
  | nil => rintro ⟨⟩
  | cons x rest => exact Nat.le_refl _

theorem declare (t : Token) (s : State) : Ends (declare t) s := by
  simp only [Ends, Parser.declare]
  rcases s with ⟨tokens, stop, ⟨stack⟩, log⟩
  cases stack with
  | nil => rintro ⟨⟩
  | cons x rest =>
    simp only [Scopes.bind]
    cases (x.lookup t.lexeme).isSome with
    | true => rintro ⟨⟩
    | false => exact Nat.le_refl _

theorem resolve (t : Token) (s : State) : Ends (resolve t) s := by
  simp only [Ends, Parser.resolve]
  cases s.scopes.find t.lexeme with
  | ok slot => exact Nat.le_refl _
  | error c => rintro ⟨⟩

end Ends

/-- With fuel for the phrases inside, there is fuel for all steps. -/
theorem Steps.ends {move : Position → Position} {x y : (p : Phrase) → Parser p.Tree} {n : Nat}
    (hx : ∀ p s, p ≠ .program → 16 * s.tokens.length + p.rank < n → Ends (x p) s)
    {home seen limit opened : Nat} {a b : Parser α}
    (h : Steps (fun _ => True) move x y home seen limit opened a b) (hlimit : limit ≤ 16) :
    ∀ s : State, seen ≤ s.tokens.length → 16 * s.tokens.length + limit ≤ n → Ends a s := by
  induction h with
  | finish a =>
    intro s _ _
    exact Nat.le_refl _
  | fails hw =>
    intro s _ _
    exact nofun
  | @current seen limit opened f g some none ih =>
    intro s hseen hn
    change Ends (f s.current) s
    by_cases hend : s.current.kind = .eof
    · obtain ⟨w, -, hf, -⟩ := none s.current hend
      rw [hf]
      exact nofun
    · have h₁ := State.length_pos_of_kind hend
      exact ih s.current trivial hend hlimit s (by omega) hn
  | @check seen limit opened k f g hk yes no ihyes ihno =>
    intro s hseen hn
    by_cases hkind : s.current.kind = k
    · have h₁ := State.length_pos_of_inner (hkind ▸ hk)
      exact (ihyes hlimit s (by omega) hn).of_eq (check_bind_of_kind hkind) (Nat.le_refl _)
    · exact (ihno hlimit s hseen hn).of_eq (check_bind_of_ne hkind) (Nat.le_refl _)
  | @checkSecond seen limit opened k f g hk hone yes no ihyes ihno =>
    intro s hseen hn
    cases hsecond : s.tokens[1]?.any (·.kind = k) with
    | true =>
      have h₂ := State.length_of_second hsecond
      exact (ihyes hlimit s (by omega) hn).of_eq (checkSecond_bind hsecond) (Nat.le_refl _)
    | false => exact (ihno hlimit s hseen hn).of_eq (checkSecond_bind hsecond) (Nat.le_refl _)
  | glance h ih =>
    intro s hseen hn
    exact ih _ true hlimit s hseen hn
  | @advance seen limit opened f g h ih =>
    intro s hseen hn
    have hlen : s.tokens.tail.length + 1 = s.tokens.length := by
      rw [List.length_tail]
      omega
    have hrest := ih s.current trivial (Nat.le_refl 16) { s with tokens := s.tokens.tail }
      (by simp only; omega) (by simp only; omega)
    exact hrest.of_eq rfl (by simp only; omega)
  | @expect seen limit opened k f g hk h ih =>
    intro s hseen hn
    by_cases hkind : s.current.kind = k
    · have h₁ := State.length_pos_of_kind (s := s) (by rw [hkind]; exact hk)
      have hlen : s.tokens.tail.length + 1 = s.tokens.length := by
        rw [List.length_tail]
        omega
      have hrest := ih s.current trivial (Nat.le_refl 16) { s with tokens := s.tokens.tail }
        (Nat.zero_le _) (by simp only; omega)
      exact hrest.of_eq (expect_bind_of_kind hkind) (by simp only; omega)
    · simp only [Ends, expect_bind_of_ne hkind]
      exact nofun
  | openScope h ih =>
    intro s hseen hn
    exact .keeps (Nat.le_refl _) .openScope fun _ t ht => ih hlimit t (ht ▸ hseen) (ht ▸ hn)
  | closeScope h ih =>
    intro s hseen hn
    exact .keeps (.closeScope s) .closeScope fun _ t ht => ih hlimit t (ht ▸ hseen) (ht ▸ hn)
  | declare _ h ih =>
    intro s hseen hn
    exact .keeps (.declare _ s) (.declare _) fun _ t ht => ih hlimit t (ht ▸ hseen) (ht ▸ hn)
  | resolve _ h ih =>
    intro s hseen hn
    exact .keeps (.resolve _ s) (.resolve _) fun slot t ht => ih slot hlimit t (ht ▸ hseen) (ht ▸ hn)
  | tell e h ih =>
    intro s hseen hn
    exact .keeps (Nat.le_refl _) (.tell e) fun _ t ht => ih hlimit t (ht ▸ hseen) (ht ▸ hn)
  | @read seen limit opened p f g hp h ih =>
    intro s hseen hn
    have hend := hx p s (Phrase.ne_program_of_rank hp.1 hlimit) (by omega)
    refine hend.bind fun a t ht => ih a hlimit t (Nat.zero_le _) ?_
    have hle := hend.length_le ht
    omega

/-- At `s`, `x` spends the fuel or `y` does the same. -/
def Agree (x y : Parser α) (s : State) : Prop :=
  (∃ t, x s = .error (.fault .outOfFuel) t) ∨ x s = y s

namespace Agree

theorem of_eq {x x' y y' : Parser α} {s t : State} (h : Agree x y t) (hx : x' s = x t)
    (hy : y' s = y t) : Agree x' y' s := by
  simpa only [Agree, hx, hy] using h

theorem bind {x y : Parser α} {f g : α → Parser β} {s : State} (hx : Agree x y s)
    (hf : ∀ a t, Agree (f a) (g a) t) : Agree (x >>= f) (y >>= g) s := by
  rcases hx with ⟨t, ht⟩ | heq
  · exact .inl ⟨t, by simp only [Bind.bind, EStateM.bind, ht]⟩
  · cases h : x s with
    | ok a t =>
      refine (hf a t).of_eq ?_ ?_
      · simp only [Bind.bind, EStateM.bind, h]
      · simp only [Bind.bind, EStateM.bind, ← heq, h]
    | error e t => exact .inr (by simp only [Bind.bind, EStateM.bind, ← heq, h])

/-- Both parsers start with the same step. -/
theorem step (x : Parser α) {f g : α → Parser β} {s : State} (hf : ∀ a t, Agree (f a) (g a) t) :
    Agree (x >>= f) (x >>= g) s :=
  bind (.inr rfl) hf

end Agree

/-- If reading the phrases inside agrees, so does the whole. -/
theorem Steps.agree {x y : (p : Phrase) → Parser p.Tree}
    (hx : ∀ p s, p ≠ .program → Agree (x p) (y p) s) {home seen limit opened : Nat}
    {a b : Parser α} (h : Steps (fun _ => True) id x y home seen limit opened a b)
    (hlimit : limit ≤ 16) : ∀ s : State, Agree a b s := by
  induction h with
  | finish a => exact fun s => .inr rfl
  | fails hw => exact fun s => .inr rfl
  | @current seen limit opened f g some none ih =>
    intro s
    by_cases hend : s.current.kind = .eof
    · obtain ⟨w, -, hf, hg⟩ := none s.current hend
      refine .inr ?_
      change f s.current s = g (s.current.move id) s
      rw [hf, hg]
    · exact (ih s.current trivial hend hlimit s).of_eq rfl rfl
  | check _ yes no ihyes ihno =>
    intro s
    refine .step _ fun b t => ?_
    cases b with
    | true => exact ihyes hlimit t
    | false => exact ihno hlimit t
  | checkSecond _ _ yes no ihyes ihno =>
    intro s
    refine .step _ fun b t => ?_
    cases b with
    | true => exact ihyes hlimit t
    | false => exact ihno hlimit t
  | glance h ih => exact fun s => .step _ fun b t => ih b b hlimit t
  | advance h ih => exact fun s => .step _ fun a t => ih a trivial (Nat.le_refl 16) t
  | expect _ h ih => exact fun s => .step _ fun a t => ih a trivial (Nat.le_refl 16) t
  | openScope h ih => exact fun s => .step _ fun _ t => ih hlimit t
  | closeScope h ih => exact fun s => .step _ fun _ t => ih hlimit t
  | declare _ h ih => exact fun s => .step _ fun _ t => ih hlimit t
  | resolve _ h ih => exact fun s => .step _ fun slot t => ih slot hlimit t
  | tell e h ih => exact fun s => .step _ fun _ t => ih hlimit t
  | @read seen limit opened p f g hp h ih =>
    intro s
    exact .bind (hx p s (Phrase.ne_program_of_rank hp.1 hlimit)) fun a t => ih a hlimit t

end Parser

namespace Phrase

open Morpho.Parser

theorem parse_ends (n : Nat) (p : Phrase) (s : State) (hp : p ≠ program)
    (h : 16 * s.tokens.length + p.rank < n) : Ends (parse n p) s := by
  induction n generalizing p s with
  | zero => omega
  | succ n ih =>
    exact (parse_steps _ id n n hp).ends (fun q t hq => ih q t hq) p.rank_le s (Nat.zero_le _) (by omega)

theorem parse_program_ends (n : Nat) (s : State) (h : 16 * s.tokens.length + 2 < n) :
    Ends (parse n program) s := by
  induction n generalizing s with
  | zero => omega
  | succ n ih =>
    by_cases hend : s.current.kind = .eof
    · simp only [Ends, parse_program_end hend]
      exact Nat.le_refl _
    · have hf := parse_ends n function s nofun (by simp only [rank]; omega)
      refine Ends.of_eq (t := s) (hf.bind fun f t hft => ?_) (parse_program_more hend) (Nat.le_refl _)
      obtain ⟨ts, hts, hfun⟩ := parse_function_eq_ok hft
      have hlen : t.tokens.length < s.tokens.length := by
        cases hfun
        simp [hts]
        omega
      exact (ih t (by omega)).bind fun fs u _ => Nat.le_refl _

theorem parse_agree {n m : Nat} (hle : n ≤ m) {p : Phrase} (hp : p ≠ program) (s : State) :
    Agree (parse n p) (parse m p) s := by
  induction n generalizing m p s with
  | zero =>
    refine .inl ⟨s, ?_⟩
    rw [parse]
    rfl
  | succ n ih =>
    obtain ⟨m, rfl⟩ : ∃ k, m = k + 1 := ⟨m - 1, by omega⟩
    exact (parse_steps _ id n m hp).agree (fun q t hq => ih (by omega) hq t) p.rank_le s

theorem parse_mono {n m : Nat} (hle : n ≤ m) {p : Phrase} (hp : p ≠ program) {s t : State}
    {a : p.Tree} (h : parse n p s = .ok a t) : parse m p s = .ok a t := by
  rcases parse_agree hle hp s with ⟨u, hu⟩ | heq
  · cases h.symm.trans hu
  · rw [← heq, h]

/-- With fuel enough, a phrase is read as it is with any fuel. -/
theorem parse_eq_ok {n m : Nat} {p : Phrase} (hp : p ≠ program) {s t : State} {a : p.Tree}
    (h : parse n p s = .ok a t) (hm : 16 * s.tokens.length + p.rank < m) :
    parse m p s = .ok a t := by
  rcases Nat.le_total n m with hle | hle
  · exact parse_mono hle hp h
  · rcases parse_agree hle hp s with ⟨u, hu⟩ | heq
    · have hends := parse_ends m p s hp hm
      simp only [Ends, hu] at hends
      exact absurd rfl hends
    · rw [heq, h]

end Phrase

/-- The result of reading a token list never is that the fuel was spent. -/
theorem Program.ofTokens_ne_outOfFuel (ts : List Token) :
    ofTokens ts ≠ .error (.fault .outOfFuel) := by
  intro h
  obtain ⟨s, hs⟩ := ofTokens_eq_error.mp h
  have hle : (Parser.State.ofTokens ts).tokens.length ≤ ts.length :=
    (List.takeWhile_sublist _).length_le
  have hend := Phrase.parse_program_ends (Phrase.fuel ts) (.ofTokens ts)
    (by simp only [Phrase.fuel]; omega)
  simp only [Parser.Ends, hs] at hend
  exact hend rfl

end Morpho
