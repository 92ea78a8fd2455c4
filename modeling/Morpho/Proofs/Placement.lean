import Morpho.Proofs.Fuel
import Morpho.Proofs.EagerResolution

/-! Reading the same tokens elsewhere: at other places, with more fuel, and in front of another
function. A function that follows stops every reader inside a function just as the end of the file
does. -/
namespace Morpho

namespace Parser

variable {α β : Type}

/-- What stands behind some tokens: nothing but the end of the file, or functions that have an end of
the file of their own. -/
inductive Sequel
  | nothing
  | functions (ts : List Token) (stop : Position)

namespace Sequel

def tokens : Sequel → List Token
  | nothing => []
  | functions ts _ => ts

/-- Where the file ends that without the sequel ended at `p`. -/
def stop (q : Sequel) (p : Position) : Position :=
  match q with
  | nothing => p
  | functions _ stop => stop

/-- It has no tokens, or starts with a function. -/
def Starts (q : Sequel) : Prop := ∀ t ∈ q.tokens.head?, t.kind = .keyword .func

theorem starts_nothing : nothing.Starts := by simp [Starts, tokens]

end Sequel

/-- In `u`, the tokens of `s` stand where `move` puts them, and `q` follows them. -/
structure Moved (move : Position → Position) (q : Sequel) (s u : State) : Prop where
  tokens : u.tokens = s.tokens.map (Token.move move) ++ q.tokens
  stop : u.stop = q.stop (move s.stop)
  scopes : u.scopes = s.scopes

namespace Moved

variable {move : Position → Position} {q : Sequel} {s u : State}

theorem current (h : Moved move q s u) (hs : 1 ≤ s.tokens.length) :
    u.current = s.current.move move := by
  rw [State.current, State.current, h.tokens]
  cases ht : s.tokens with
  | nil => simp [ht] at hs
  | cons t ts => rfl

theorem current_of_nil (h : Moved move .nothing s u) : u.current = s.current.move move := by
  rw [State.current, State.current, h.tokens, h.stop]
  cases s.tokens with
  | nil => rfl
  | cons t ts => rfl

/-- Behind the last token stands the end of the file or a function, and no reader inside a function
tells the two apart. -/
theorem kind (h : Moved move q s u) (hq : q.Starts) {k : Token.Kind}
    (hk : k.inner = true) : u.current.kind = k ↔ s.current.kind = k := by
  by_cases hs : s.tokens = []
  · have hkind : s.current.kind = .eof := by rw [State.current, hs]; rfl
    have hmove : u.tokens = q.tokens := by rw [h.tokens, hs]; rfl
    rw [hkind]
    constructor
    · rintro rfl
      rw [State.current, hmove] at hk
      cases hts : q.tokens with
      | nil =>
        rw [hts] at hk
        cases hk
      | cons t ts =>
        rw [hts, List.headD_cons, hq t (by rw [hts]; rfl)] at hk
        cases hk
    · rintro rfl
      cases hk
  · rw [h.current (List.length_pos_iff.mpr hs), Token.move_kind]

theorem second (h : Moved move q s u) (hq : q.Starts) (hs : 1 ≤ s.tokens.length)
    {k : Token.Kind} (hk : k.inner = true) :
    u.tokens[1]?.any (·.kind = k) = s.tokens[1]?.any (·.kind = k) := by
  rw [h.tokens]
  match ht : s.tokens with
  | [] => simp [ht] at hs
  | [t] =>
    cases hts : q.tokens with
    | nil => rfl
    | cons t' ts =>
      have hne : t'.kind ≠ k := by
        rw [hq t' (by rw [hts]; rfl)]
        rintro rfl
        cases hk
      simp [hne]
  | t :: t' :: ts => rfl

theorem tail (h : Moved move q s u) (hs : 1 ≤ s.tokens.length) :
    Moved move q { s with tokens := s.tokens.tail } { u with tokens := u.tokens.tail } where
  tokens := by
    rw [h.tokens]
    cases ht : s.tokens with
    | nil => simp [ht] at hs
    | cons t ts => rfl
  stop := h.stop
  scopes := h.scopes

end Moved

/-- What `x` does at `s`, `y` does at `u`: the same success, and if nothing follows also the same
failure, unless the fuel is spent. -/
structure Copies (move : Position → Position) (q : Sequel) (x y : Parser α) (s u : State) :
    Prop where
  ok : ∀ {a s'}, x s = .ok a s' → ∃ u', y u = .ok a u' ∧ Moved move q s' u'
  error : q = .nothing → ∀ {e s'}, x s = .error e s' → e ≠ .fault .outOfFuel →
    ∃ u', y u = .error (e.map (Diagnostic.move move)) u'

namespace Copies

variable {move : Position → Position} {q : Sequel} {s u : State}

theorem bind {x y : Parser α} {f g : α → Parser β} (hx : Copies move q x y s u)
    (hf : ∀ a s' u', Moved move q s' u' → x s = .ok a s' → Copies move q (f a) (g a) s' u') :
    Copies move q (x >>= f) (y >>= g) s u where
  ok h := by
    obtain ⟨a, s', hs, hfs⟩ := bind_eq_ok.mp h
    obtain ⟨u', hu, hp⟩ := hx.ok hs
    obtain ⟨v, hv, hq⟩ := (hf a s' u' hp hs).ok hfs
    exact ⟨v, bind_eq_ok.mpr ⟨a, u', hu, hv⟩, hq⟩
  error hnil {e s''} h he := by
    simp only [Bind.bind, EStateM.bind] at h ⊢
    cases hs : x s with
    | ok a s' =>
      rw [hs] at h
      obtain ⟨u', hu, hp⟩ := hx.ok hs
      rw [hu]
      exact (hf a s' u' hp hs).error hnil h he
    | error e' s' =>
      rw [hs] at h
      cases h
      obtain ⟨u', hu⟩ := hx.error hnil hs he
      exact ⟨u', by rw [hu]⟩

/-- A step that leaves the tokens alone. -/
theorem keeps {x y : Parser α} {f g : α → Parser β} (hx : Copies move q x y s u) (hk : Keeps x)
    (hf : ∀ a s' u', s'.tokens = s.tokens → Moved move q s' u' →
      Copies move q (f a) (g a) s' u') :
    Copies move q (x >>= f) (y >>= g) s u :=
  bind hx fun a s' u' hm h => hf a s' u' (hk s a s' h) hm

theorem of_eq {x y : Parser α} {x' y' : Parser α} {s' u' : State}
    (h : Copies move q x y s' u') (hx : x' s = x s') (hy : y' u = y u') :
    Copies move q x' y' s u where
  ok hs := by
    rw [hy]
    exact h.ok (hx ▸ hs)
  error hnil {_ _} hs he := by
    rw [hy]
    exact h.error hnil (hx ▸ hs) he

theorem finish {x y : Parser α} {a : α} {s' u' : State} (hx : x s = .ok a s') (hy : y u = .ok a u')
    (h : Moved move q s' u') : Copies move q x y s u where
  ok hs := by
    cases hx.symm.trans hs
    exact ⟨u', hy, h⟩
  error _ {_ _} hs := by cases hx.symm.trans hs

theorem fails {x y : Parser α} {e : Failure Diagnostic} {s' : State} (hx : x s = .error e s')
    (hy : q = .nothing → ∃ u', y u = .error (e.map (Diagnostic.move move)) u') :
    Copies move q x y s u where
  ok hs := by cases hx.symm.trans hs
  error hnil {_ _} hs _ := by
    cases hx.symm.trans hs
    exact hy hnil

theorem unexpected (wanted : String) (h : Moved move q s u) :
    Copies move q (unexpected (α := α) wanted) (unexpected wanted) s u := by
  refine fails rfl fun hnil => ⟨u, ?_⟩
  subst hnil
  rw [Parser.unexpected, h.current_of_nil]
  rfl

theorem expect {k : Token.Kind} {f g : Token → Parser α} (hk : k ≠ .eof) (h : Moved move q s u)
    (hf : ∀ t s' u', Moved move q s' u' → Copies move q (f t) (g (t.move move)) s' u') :
    Copies move q (expect k >>= f) (expect k >>= g) s u := by
  by_cases hkind : s.current.kind = k
  · have hs := State.length_pos_of_kind (s := s) (by rw [hkind]; exact hk)
    have hcur := h.current hs
    have hu : u.current.kind = k := by rw [hcur, Token.move_kind, hkind]
    refine (hf s.current _ _ (h.tail hs)).of_eq (expect_bind_of_kind hkind) ?_
    rw [expect_bind_of_kind hu, hcur]
  · refine fails (expect_bind_of_ne hkind) fun hnil => ?_
    subst hnil
    have hcur := h.current_of_nil
    have hu : u.current.kind ≠ k := by rw [hcur, Token.move_kind]; exact hkind
    refine ⟨u, ?_⟩
    rw [expect_bind_of_ne hu, hcur]
    rfl

theorem openScope (h : Moved move q s u) : Copies move q openScope openScope s u :=
  finish rfl rfl ⟨h.tokens, h.stop, congrArg Scopes.push h.scopes⟩

theorem tell (e : Log.Event) (h : Moved move q s u) :
    Copies move q (tell e) (tell e) s u :=
  finish rfl rfl ⟨h.tokens, h.stop, h.scopes⟩

theorem closeScope (h : Moved move q s u) : Copies move q closeScope closeScope s u := by
  cases hpop : s.scopes.pop with
  | ok r =>
    refine finish (by rw [Parser.closeScope, hpop]) (by rw [Parser.closeScope, h.scopes, hpop]) ?_
    exact ⟨h.tokens, h.stop, rfl⟩
  | error e =>
    refine fails (by rw [Parser.closeScope, hpop]) fun _ => ⟨u, ?_⟩
    rw [Parser.closeScope, h.scopes, hpop]
    rfl

theorem declare (t : Token) (h : Moved move q s u) :
    Copies move q (declare t) (declare (t.move move)) s u := by
  cases hbind : s.scopes.bind t.lexeme with
  | ok r =>
    refine finish (by rw [Parser.declare, hbind])
      (by rw [Parser.declare, Token.move_lexeme, h.scopes, hbind]) ?_
    exact ⟨h.tokens, h.stop, rfl⟩
  | error e =>
    refine fails (by rw [Parser.declare, hbind]) fun _ => ⟨u, ?_⟩
    rw [Parser.declare, Token.move_lexeme, h.scopes, hbind]
    cases e with
    | fault f => rfl
    | found c => rfl

theorem resolve (t : Token) (h : Moved move q s u) :
    Copies move q (resolve t) (resolve (t.move move)) s u := by
  cases hfind : s.scopes.find t.lexeme with
  | ok slot =>
    have hs : Parser.resolve t s = .ok slot s := by rw [Parser.resolve, hfind]
    have hu : Parser.resolve (t.move move) u = .ok slot u := by
      rw [Parser.resolve, Token.move_lexeme, h.scopes, hfind]
    exact finish hs hu h
  | error c =>
    refine fails (by rw [Parser.resolve, hfind]) fun _ => ⟨u, ?_⟩
    rw [Parser.resolve, Token.move_lexeme, h.scopes, hfind]
    rfl

end Copies

/-- If the phrases inside are read alike in both places, so is the whole. -/
theorem Steps.copies {move : Position → Position} {q : Sequel} (hq : q.Starts)
    {x y : (p : Phrase) → Parser p.Tree}
    (hx : ∀ p s u, p ≠ .program → Moved move q s u → Copies move q (x p) (y p) s u)
    {home seen limit opened : Nat} {a b : Parser α}
    (h : Steps (fun _ => True) move x y home seen limit opened a b) (hlimit : limit ≤ 16) :
    ∀ {s u : State}, seen ≤ s.tokens.length → Moved move q s u → Copies move q a b s u := by
  induction h with
  | finish a =>
    intro s u _ hm
    exact .finish rfl rfl hm
  | fails hw =>
    intro s u _ hm
    exact .unexpected _ hm
  | @current seen limit opened f g some none ih =>
    intro s u hseen hm
    by_cases hend : s.current.kind = .eof
    · obtain ⟨w, -, hf, hg⟩ := none s.current hend
      have hs : (Parser.current >>= f) s = .error (.found (s.current.diagnostic w)) s := by
        change f s.current s = _
        rw [hf]
        rfl
      refine .fails hs fun hnil => ⟨u, ?_⟩
      subst hnil
      change g u.current u = _
      rw [hm.current_of_nil, hg, unexpected, hm.current_of_nil]
      rfl
    · have h₁ := State.length_pos_of_kind hend
      refine (ih s.current trivial hend hlimit (by omega) hm).of_eq rfl ?_
      rw [← hm.current h₁]
      rfl
  | @check seen limit opened k f g hk yes no ihyes ihno =>
    intro s u hseen hm
    have hkind := hm.kind hq hk
    by_cases hs : s.current.kind = k
    · have h₁ := State.length_pos_of_inner (hs ▸ hk)
      exact (ihyes hlimit (by omega) hm).of_eq (check_bind_of_kind hs)
        (check_bind_of_kind (hkind.mpr hs))
    · exact (ihno hlimit hseen hm).of_eq (check_bind_of_ne hs) (check_bind_of_ne (mt hkind.mp hs))
  | @checkSecond seen limit opened k f g hk hone yes no ihyes ihno =>
    intro s u hseen hm
    have hkind := hm.second hq (by omega) hk
    cases hs : s.tokens[1]?.any (·.kind = k) with
    | true =>
      have h₂ := State.length_of_second hs
      exact (ihyes hlimit (by omega) hm).of_eq (checkSecond_bind hs)
        (checkSecond_bind (hkind.trans hs))
    | false =>
      exact (ihno hlimit hseen hm).of_eq (checkSecond_bind hs) (checkSecond_bind (hkind.trans hs))
  | glance h ih =>
    intro s u hseen hm
    exact (ih _ _ hlimit hseen hm).of_eq rfl rfl
  | @advance seen limit opened f g h ih =>
    intro s u hseen hm
    have h₁ : 1 ≤ s.tokens.length := by omega
    refine (ih s.current trivial (Nat.le_refl 16) ?_ (hm.tail h₁)).of_eq rfl ?_
    · simp only [List.length_tail]
      omega
    · rw [← hm.current h₁]
      rfl
  | expect hk h ih =>
    intro s u _ hm
    exact .expect hk hm fun t s' u' hm' => ih t trivial (Nat.le_refl 16) (Nat.zero_le _) hm'
  | openScope h ih =>
    intro s u hseen hm
    exact .keeps (.openScope hm) .openScope fun _ s' u' ht hm' => ih hlimit (ht ▸ hseen) hm'
  | closeScope h ih =>
    intro s u hseen hm
    exact .keeps (.closeScope hm) .closeScope fun _ s' u' ht hm' => ih hlimit (ht ▸ hseen) hm'
  | declare _ h ih =>
    intro s u hseen hm
    exact .keeps (.declare _ hm) (.declare _) fun _ s' u' ht hm' => ih hlimit (ht ▸ hseen) hm'
  | resolve _ h ih =>
    intro s u hseen hm
    exact .keeps (.resolve _ hm) (.resolve _) fun slot s' u' ht hm' => ih slot hlimit (ht ▸ hseen) hm'
  | tell e h ih =>
    intro s u hseen hm
    exact .keeps (.tell e hm) (.tell e) fun _ s' u' ht hm' => ih hlimit (ht ▸ hseen) hm'
  | @read seen limit opened p f g hp h ih =>
    intro s u hseen hm
    refine .bind (hx p s u (Phrase.ne_program_of_rank hp.1 hlimit) hm) fun a s' u' hm' _ => ?_
    exact ih a hlimit (Nat.zero_le _) hm'

end Parser
namespace Phrase

open Morpho.Parser

/-- Without fuel nothing is read, so there is nothing to copy. -/
theorem parse_zero_copies {move : Position → Position} {q : Sequel} (m : Nat) (p : Phrase)
    (s u : State) : Copies move q (parse 0 p) (parse m p) s u := by
  have hs : parse 0 p s = .error (.fault .outOfFuel) s := by
    rw [parse]
    rfl
  constructor
  · intro a s' h
    cases hs.symm.trans h
  · intro _ e s' h he
    cases hs.symm.trans h
    exact absurd rfl he

theorem parse_copies {move : Position → Position} {q : Sequel} (hq : q.Starts) {n m : Nat}
    (hle : n ≤ m) {p : Phrase} (hp : p ≠ program) {s u : State} (hm : Moved move q s u) :
    Copies move q (parse n p) (parse m p) s u := by
  induction n generalizing m p s u with
  | zero => exact parse_zero_copies m p s u
  | succ n ih =>
    obtain ⟨m, rfl⟩ : ∃ k, m = k + 1 := ⟨m - 1, by omega⟩
    refine (parse_steps _ move n m hp).copies hq ?_ p.rank_le (Nat.zero_le _) hm
    intro p' t v hp' hm'
    exact ih (by omega) hp' hm'

/-- A whole program read at other places. -/
theorem parse_program_copies {move : Position → Position} {n m : Nat} (hle : n ≤ m) {s u : State}
    (hm : Moved move .nothing s u) : Copies move .nothing (parse n program) (parse m program) s u := by
  induction n generalizing m s u with
  | zero => exact parse_zero_copies m program s u
  | succ n ih =>
    obtain ⟨m, rfl⟩ : ∃ k, m = k + 1 := ⟨m - 1, by omega⟩
    have hkind : u.current.kind = s.current.kind := by rw [hm.current_of_nil, Token.move_kind]
    by_cases hend : s.current.kind = .eof
    · exact .finish (parse_program_end hend) (parse_program_end (hkind.trans hend)) hm
    · have hf : Copies move .nothing (parse n function) (parse m function) s u :=
        parse_copies Sequel.starts_nothing (by omega) (by decide) hm
      refine .of_eq (hf.bind fun f s' u' hm' _ => ?_) (parse_program_more hend)
        (parse_program_more (hkind ▸ hend))
      exact (ih (by omega) hm').bind fun fs s'' u'' hm'' _ => .finish rfl rfl hm''

/-- The functions of a program are read alike when another function follows them, and then the reader
stands in front of that one with no scope open. -/
theorem parse_program_before {ts : List Token} {fin : Position}
    (hq : (Sequel.functions ts fin).Starts) {n m : Nat}
    {s s' u : State} {fs : List Function} (hs : parse n program s = .ok fs s')
    (hkinds : ∀ t ∈ s.tokens, t.kind ≠ .eof) (hscopes : s.scopes = .empty)
    (hm : Moved id (.functions ts fin) s u) (hle : n ≤ m + fs.length) :
    ∃ log, parse (m + fs.length) program u =
      ((fs ++ ·) <$> parse m program) ⟨ts, fin, .empty, log⟩ := by
  induction n generalizing s u fs with
  | zero => cases hs
  | succ n ih =>
    by_cases hend : s.current.kind = .eof
    · cases (parse_program_end hend).symm.trans hs
      have htokens : u.tokens = ts := by
        rw [hm.tokens, State.tokens_eq_nil hkinds hend]
        rfl
      have hstop : u.stop = fin := hm.stop
      have hu : u = ⟨ts, fin, .empty, u.log⟩ := by
        rw [← hscopes, ← hm.scopes, ← hstop, ← htokens]
      refine ⟨u.log, ?_⟩
      rw [← hu]
      simp
    · rw [parse_program_more hend] at hs
      obtain ⟨f, s₁, hf, hs⟩ := bind_eq_ok.mp hs
      obtain ⟨fs', s₂, hfs, hs⟩ := bind_eq_ok.mp hs
      obtain ⟨rfl, rfl⟩ := pure_eq_ok.mp hs
      obtain ⟨taken, htaken, -⟩ := parse_function_eq_ok hf
      obtain ⟨o, v, -, -, hout⟩ := parse_function_sound (u := s) ⟨rfl, rfl, by rw [hscopes]; rfl⟩ hf
      rw [List.length_cons] at hle
      have hn : n ≤ m + fs'.length := by omega
      obtain ⟨u₁, hu, hm₁⟩ := (parse_copies hq hn (by decide) hm).ok hf
      have hkinds₁ : ∀ t ∈ s₁.tokens, t.kind ≠ .eof := fun t ht => hkinds t (by simp [htaken, ht])
      have hscopes₁ : s₁.scopes = .empty := congrArg Scopes.mk hout.scopes
      obtain ⟨log, hrest⟩ := ih hfs hkinds₁ hscopes₁ hm₁ hn
      have hu₀ : u.current.kind ≠ .eof := by
        rw [hm.current (State.length_pos_of_kind hend)]
        exact hend
      refine ⟨log, ?_⟩
      rw [List.length_cons, ← Nat.add_assoc, parse_program_more hu₀]
      simp only [Bind.bind, EStateM.bind, hu, hrest, Functor.map, EStateM.map]
      cases parse m program ⟨ts, fin, .empty, log⟩ with
      | ok gs v => rfl
      | error e v => rfl

end Phrase
end Morpho
