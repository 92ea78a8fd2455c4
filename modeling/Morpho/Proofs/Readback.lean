import Morpho.Proofs.Printing
import Morpho.Proofs.Steps
import Morpho.Proofs.Outline

/-! Reading back what was printed. A reader that keeps names gives from the words of a program the
program itself, whatever the places of the words are. -/
namespace Morpho

/-- The kind of the first of some words in front of a token of kind `k`. -/
def Word.first : List Word → Token.Kind → Token.Kind
  | [], k => k
  | w :: _, _ => w.kind

namespace Parser

variable {α β : Type}

theorem State.kind_append (ts : List Token) {rest : List Token} {stop : Position} {scopes : Scopes}
    {log : List Log.Event} {k : Token.Kind} (h : (State.mk rest stop scopes log).current.kind = k) :
    (State.mk (ts ++ rest) stop scopes log).current.kind = Word.first (ts.map Token.word) k := by
  cases ts with
  | nil => exact h
  | cons t ts => rfl

/-- In front of a token of kind `k`, the parser takes tokens with the words `ws` and gives `a`. -/
def Gives (k : Token.Kind) (ws : List Word) (x : Parser α) (a : α) : Prop :=
  ∀ (ts rest : List Token) (stop : Position) (scopes : Scopes) (log : List Log.Event),
    ts.map Token.word = ws → (State.mk rest stop scopes log).current.kind = k →
    x ⟨ts ++ rest, stop, scopes, log⟩ = .ok a ⟨rest, stop, scopes, log⟩

namespace Gives

variable {k kk : Token.Kind} {w : Word} {ws vs : List Word} {a : α} {b : β}

theorem pure (a : α) : Gives k [] (Pure.pure a) a := by
  intro ts rest stop scopes log hts _
  obtain rfl := List.map_eq_nil_iff.mp hts
  rfl

theorem bind {x : Parser α} {f : α → Parser β} (hx : Gives (Word.first vs k) ws x a)
    (hf : Gives k vs (f a) b) : Gives k (ws ++ vs) (x >>= f) b := by
  intro ts rest stop scopes log hts hk
  obtain ⟨ts₁, ts₂, rfl, rfl, rfl⟩ := List.map_eq_append_iff.mp hts
  have h₁ := hx ts₁ (ts₂ ++ rest) stop scopes log rfl (State.kind_append ts₂ hk)
  rw [List.append_assoc]
  exact bind_eq_ok.mpr ⟨a, _, h₁, hf ts₂ rest stop scopes log rfl hk⟩

/-- A step that no words are left for. -/
theorem last {x : Parser α} {f : α → Parser β} (hx : Gives k ws x a) (hf : Gives k [] (f a) b) :
    Gives k ws (x >>= f) b := by
  rw [← List.append_nil ws]
  exact bind hx hf

theorem check_yes {f : Bool → Parser β} (h : Word.first ws k = kk) (hf : Gives k ws (f true) b) :
    Gives k ws (check kk >>= f) b := by
  intro ts rest stop scopes log hts hk
  have hkind := State.kind_append ts hk
  rw [hts, h] at hkind
  refine bind_eq_ok.mpr ⟨true, ⟨ts ++ rest, stop, scopes, log⟩, ?_, hf ts rest stop scopes log hts hk⟩
  simp [check, hkind]

theorem check_no {f : Bool → Parser β} (h : Word.first ws k ≠ kk) (hf : Gives k ws (f false) b) :
    Gives k ws (check kk >>= f) b := by
  intro ts rest stop scopes log hts hk
  have hkind := State.kind_append ts hk
  rw [hts] at hkind
  refine bind_eq_ok.mpr ⟨false, ⟨ts ++ rest, stop, scopes, log⟩, ?_, hf ts rest stop scopes log hts hk⟩
  simp [check, hkind, h]

theorem second {f : Bool → Parser β} (hkk : kk ≠ .eof)
    (hf : Gives k (w :: ws) (f (decide (Word.first ws k = kk))) b) :
    Gives k (w :: ws) (checkSecond kk >>= f) b := by
  intro ts rest stop scopes log hts hk
  obtain ⟨t, ts, rfl, hw, hws⟩ := List.map_eq_cons_iff.mp hts
  refine bind_eq_ok.mpr ⟨_, ⟨t :: ts ++ rest, stop, scopes, log⟩, ?_,
    hf (t :: ts) rest stop scopes log hts hk⟩
  rw [checkSecond, ← hws, ← State.kind_append ts hk]
  cases hrest : ts ++ rest with
  | nil => simp [State.current, hrest, Token.eof, hkk.symm]
  | cons t' rest' => simp [State.current, hrest]

theorem glance {f : Bool → Parser β} (hf : ∀ c, Gives k ws (f c) b) :
    Gives k ws (checkSecond kk >>= f) b := by
  intro ts rest stop scopes log hts hk
  exact bind_eq_ok.mpr ⟨_, _, rfl, hf _ ts rest stop scopes log hts hk⟩

theorem advance {f : Token → Parser β} (hf : ∀ t : Token, t.word = w → Gives k ws (f t) b) :
    Gives k (w :: ws) (advance >>= f) b := by
  intro ts rest stop scopes log hts hk
  obtain ⟨t, ts, rfl, hw, hws⟩ := List.map_eq_cons_iff.mp hts
  exact bind_eq_ok.mpr ⟨t, _, rfl, hf t hw ts rest stop scopes log hws hk⟩

theorem current {f : Token → Parser β} (hf : ∀ t : Token, t.word = w → Gives k (w :: ws) (f t) b) :
    Gives k (w :: ws) (current >>= f) b := by
  intro ts rest stop scopes log hts hk
  obtain ⟨t, ts, rfl, hw, hws⟩ := List.map_eq_cons_iff.mp hts
  exact bind_eq_ok.mpr ⟨t, _, rfl, hf t hw (t :: ts) rest stop scopes log hts hk⟩

theorem expect {f : Token → Parser β} (h : w.kind = kk)
    (hf : ∀ t : Token, t.word = w → Gives k ws (f t) b) : Gives k (w :: ws) (expect kk >>= f) b := by
  intro ts rest stop scopes log hts hk
  obtain ⟨t, ts, rfl, hw, hws⟩ := List.map_eq_cons_iff.mp hts
  have hkind : (State.mk (t :: ts ++ rest) stop scopes log).current.kind = kk := by
    rw [← h, ← hw]
    rfl
  exact bind_eq_ok.mpr ⟨t, _, expect_of_kind hkind, hf t hw ts rest stop scopes log hws hk⟩

theorem accept_yes {f : Bool → Parser β} (h : w.kind = kk) (hf : Gives k ws (f true) b) :
    Gives k (w :: ws) (accept kk >>= f) b := by
  rw [Parser.accept, bind_assoc]
  refine check_yes h ?_
  simpa using advance (f := fun _ => f true) fun _ _ => hf

theorem accept_no {f : Bool → Parser β} (h : Word.first ws k ≠ kk) (hf : Gives k ws (f false) b) :
    Gives k ws (accept kk >>= f) b := by
  rw [Parser.accept, bind_assoc]
  refine check_no h ?_
  simpa using hf

end Gives
end Parser
@[simp] theorem Word.length_group (ws : List Word) : (Word.group ws).length = ws.length + 2 := by
  simp [Word.group]

namespace Phrase

open Morpho.Parser

/-- With fuel enough for the words `ws`, the phrase is read from them as `o` in front of a token of kind
`k`. -/
def Recovers (p : Phrase) (k : Token.Kind) (ws : List Word) (o : p.Named) : Prop :=
  ∀ n, 16 * ws.length + p.rank < n → Gives k ws (outline n p) o

variable {k : Token.Kind} {ws vs : List Word} {o o' : Outline}

theorem recovers_of_succ {p : Phrase} {o : p.Named}
    (h : ∀ n, 16 * ws.length + p.rank ≤ n → Gives k ws (outline (n + 1) p) o) :
    Recovers p k ws o := by
  intro n hn
  obtain ⟨m, rfl⟩ : ∃ m, n = m + 1 := ⟨n - 1, by omega⟩
  exact h m (by omega)

/-- For fewer words, the fuel for one more word is enough. -/
theorem Recovers.fewer {p : Phrase} {o : p.Named} {n : Nat} (h : Recovers p k ws o)
    (hn : 16 * ws.length + 16 < n) : Gives k ws (outline n p) o :=
  h n (Nat.lt_of_le_of_lt (Nat.add_le_add_left p.rank_le _) hn)

section Small

theorem recovers_literal (t : String) : Recovers small k [.literal t] (.literal t) := by
  refine recovers_of_succ fun n hn => ?_
  rw [outline]
  refine .current fun t' ht => ?_
  obtain rfl : t'.lexeme = t := congrArg Word.text ht
  have hkind : t'.kind = .literal := congrArg Word.kind ht
  simp only [hkind]
  exact .advance fun _ _ => .pure _

theorem recovers_fetch (x : String) (hk : k ≠ .punct '(') :
    Recovers small k [.name x] (.fetch x) := by
  refine recovers_of_succ fun n hn => ?_
  rw [outline]
  refine .current fun t ht => ?_
  obtain rfl : t.lexeme = x := congrArg Word.text ht
  have hkind : t.kind = .name := congrArg Word.kind ht
  simp only [hkind]
  exact .advance fun _ _ => .accept_no hk (.pure _)

/-- Parentheses leave nothing behind. -/
theorem recovers_group (h : Recovers expr (.punct ')') ws o) : Recovers small k (Word.group ws) o := by
  refine recovers_of_succ fun n hn => ?_
  simp only [Word.length_group, rank] at hn
  rw [outline]
  refine .current fun t ht => ?_
  have hkind : t.kind = .punct '(' := congrArg Word.kind ht
  simp only [hkind]
  exact .advance fun _ _ => .bind (h.fewer (by omega)) (.expect rfl fun _ _ => .pure _)

theorem recovers_call (f : String) {os : List Outline} (h : Recovers arguments k ws os) :
    Recovers small k (.name f :: .punct '(' :: ws) (.call f os) := by
  refine recovers_of_succ fun n hn => ?_
  simp only [List.length_cons, rank] at hn
  rw [outline]
  refine .current fun t ht => ?_
  obtain rfl : t.lexeme = f := congrArg Word.text ht
  have hkind : t.kind = .name := congrArg Word.kind ht
  simp only [hkind]
  exact .advance fun _ _ => .accept_yes rfl (.last (h.fewer (by omega)) (.pure _))

theorem recovers_unary (f : String) (h : Recovers small k ws o) :
    Recovers small k (.op f :: ws) (.call f [o]) := by
  refine recovers_of_succ fun n hn => ?_
  simp only [List.length_cons, rank] at hn
  rw [outline]
  refine .current fun t ht => ?_
  obtain rfl : t.lexeme = f := congrArg Word.text ht
  have hkind : t.kind = .op (.ofFirst (t.lexeme.toList.headD ' ')) := congrArg Word.kind ht
  simp only [hkind]
  exact .advance fun _ _ => .last (h.fewer (by omega)) (.pure _)

theorem recovers_ifThen {y : Outline.Arm} (hk : k ≠ .keyword .alt) (hvs : Word.first vs k = .punct '{')
    (h : Recovers expr (.punct '{') ws o) (h' : Recovers (body true) k vs y) :
    Recovers small k (.keyword .cond :: ws ++ vs) (.ifThen o y) := by
  refine recovers_of_succ fun n hn => ?_
  simp only [List.cons_append, List.length_cons, List.length_append, rank] at hn
  rw [outline]
  refine .current fun t ht => ?_
  have hkind : t.kind = .keyword .cond := congrArg Word.kind ht
  simp only [hkind]
  exact .advance fun _ _ => .bind (hvs ▸ h.fewer (by omega))
    (.last (h'.fewer (by omega)) (.accept_no hk (.pure _)))

theorem recovers_ifElse {us : List Word} {y no : Outline.Arm}
    (hvs : Word.first (vs ++ .keyword .alt :: us) k = .punct '{')
    (h : Recovers expr (.punct '{') ws o) (h' : Recovers (body true) (.keyword .alt) vs y)
    (h'' : Recovers (body true) k us no) :
    Recovers small k (.keyword .cond :: ws ++ vs ++ .keyword .alt :: us) (.ifElse o y no) := by
  refine recovers_of_succ fun n hn => ?_
  simp only [List.cons_append, List.append_assoc, List.length_cons, List.length_append, rank] at hn ⊢
  rw [outline]
  refine .current fun t ht => ?_
  have hkind : t.kind = .keyword .cond := congrArg Word.kind ht
  simp only [hkind]
  exact .advance fun _ _ => .bind (hvs ▸ h.fewer (by omega)) (.bind (h'.fewer (by omega))
    (.accept_yes rfl (.last (h''.fewer (by omega)) (.pure _))))

theorem recovers_loop {b : Outline.Arm} (hvs : Word.first vs k = .punct '{')
    (h : Recovers expr (.punct '{') ws o) (h' : Recovers (body true) k vs b) :
    Recovers small k (.keyword .loop :: ws ++ vs) (.loop o b) := by
  refine recovers_of_succ fun n hn => ?_
  simp only [List.cons_append, List.length_cons, List.length_append, rank] at hn
  rw [outline]
  refine .current fun t ht => ?_
  have hkind : t.kind = .keyword .loop := congrArg Word.kind ht
  simp only [hkind]
  exact .advance fun _ _ => .bind (hvs ▸ h.fewer (by omega)) (.last (h'.fewer (by omega)) (.pure _))

end Small

section Operators

theorem recovers_chain_nil {c : OpClass} (hk : k ≠ .op c) : Recovers (chain c) k [] [] := by
  refine recovers_of_succ fun n _ => ?_
  rw [outline]
  exact .check_no hk (.pure _)

/-- Operators of class `c` do not follow. -/
theorem Recovers.looser {c : OpClass} (hk : k ≠ .op c) (h : Recovers (binary c.tighter?) k ws o) :
    Recovers (binary (some c)) k ws o := by
  refine recovers_of_succ fun n hn => ?_
  have hrank := rank_tighter c
  have hchain : 1 ≤ (binary c.tighter?).rank := by cases c <;> decide
  rw [outline]
  refine .last (h n (by omega)) ?_
  cases c.groupsRight with
  | true => exact .check_no hk (.pure _)
  | false =>
    exact .last (recovers_chain_nil hk n (by simp only [List.length_nil, rank]; omega)) (.pure _)

theorem rank_binary_injective {c d : Option OpClass} (h : (binary c).rank = (binary d).rank) :
    c = d := by
  have hnumber : ∀ c : OpClass, 1 ≤ c.number ∧ c.number ≤ 7 := by
    intro c
    cases c <;> decide
  cases c with
  | none =>
    cases d with
    | none => rfl
    | some d =>
      have hd := hnumber d
      simp only [rank] at h
      omega
  | some c =>
    have hc := hnumber c
    cases d with
    | none =>
      simp only [rank] at h
      omega
    | some d =>
      have hd := hnumber d
      simp only [rank] at h
      have hcd : c.number = d.number := by omega
      rw [← OpClass.ofNumber?_number c, hcd, OpClass.ofNumber?_number]

/-- What is read as a chain of tighter operators is read as one of looser operators if none of these
follows. -/
theorem Recovers.climb {c d : Option OpClass} (h : Recovers (binary c) k ws o)
    (hle : (binary c).rank ≤ (binary d).rank)
    (hk : ∀ c', (binary (some c')).rank ≤ (binary d).rank → k ≠ .op c') :
    Recovers (binary d) k ws o := by
  by_cases hcd : (binary c).rank = (binary d).rank
  · rwa [← rank_binary_injective hcd]
  · match d with
    | none =>
      have hleast : 2 ≤ (binary c).rank := by
        rcases c with _ | c
        · decide
        · cases c <;> decide
      simp only [rank] at hle hcd hleast
      omega
    | some d =>
      have hrank : (binary d.tighter?).rank + 1 = (binary (some d)).rank := by cases d <;> decide
      exact .looser (hk d (Nat.le_refl _)) (h.climb (by omega) fun c' hc' => hk c' (by omega))
termination_by (binary d).rank

theorem recovers_binary_none (h : Recovers small k ws o) : Recovers (binary none) k ws o := by
  refine recovers_of_succ fun n hn => ?_
  rw [outline]
  exact h n (by simp only [rank] at hn ⊢; omega)

/-- An operator of class `c` between two operands. -/
theorem recovers_operation (f : String) (hk : ∀ c, k ≠ .op c)
    (h : Recovers small (Word.op f).kind ws o) (h' : Recovers small k vs o') :
    Recovers (binary (some .op1)) k (ws ++ .op f :: vs) (.call f [o, o']) := by
  obtain ⟨c, hc⟩ : ∃ c, (Word.op f).kind = .op c := ⟨_, rfl⟩
  have htighter := rank_tighter c
  have hchain : 1 ≤ (binary c.tighter?).rank := by cases c <;> decide
  have hleft : Recovers (binary c.tighter?) (Word.op f).kind ws o := by
    refine (recovers_binary_none h).climb (by cases c <;> decide) fun c' hc' heq => ?_
    obtain rfl : c = c' := Token.Kind.op.inj (hc.symm.trans heq)
    omega
  have hright : ∀ d : Option OpClass, Recovers (binary d) k vs o' := by
    intro d
    refine (recovers_binary_none h').climb ?_ fun c' _ => hk c'
    rcases d with _ | d
    · decide
    · cases d <;> decide
  suffices hat : Recovers (binary (some c)) k (ws ++ .op f :: vs) (.call f [o, o']) by
    exact hat.climb (by cases c <;> decide) fun c' _ => hk c'
  refine recovers_of_succ fun n hn => ?_
  simp only [List.length_append, List.length_cons] at hn
  have hsome : (binary (some c)).rank ≤ 9 := by cases c <;> decide
  rw [outline]
  refine .bind (hleft n (by omega)) ?_
  cases c.groupsRight with
  | true =>
    refine .check_yes hc (.advance fun t ht => ?_)
    obtain rfl : t.lexeme = f := congrArg Word.text ht
    exact .last (hright _ n (by omega)) (.pure _)
  | false =>
    have hops : Recovers (chain c) k (.op f :: vs) [(f, o')] := by
      refine recovers_of_succ fun m hm => ?_
      simp only [List.length_cons, rank] at hm
      rw [outline]
      refine .check_yes hc (.advance fun t ht => ?_)
      obtain rfl : t.lexeme = f := congrArg Word.text ht
      refine .last (hright _ m (by omega)) (.last (recovers_chain_nil (hk c) m ?_) (.pure _))
      simp only [List.length_nil, rank]
      omega
    refine .last (hops n ?_) (.pure _)
    simp only [List.length_cons, rank]
    omega

end Operators

section Levels

theorem recovers_negation (h : Recovers (binary (some .op1)) k ws o)
    (hfirst : Word.first ws k ≠ .keyword .not) : Recovers negation k ws o := by
  refine recovers_of_succ fun n hn => ?_
  rw [outline]
  exact .accept_no hfirst (h n (by simp only [rank, OpClass.number] at hn ⊢; omega))

theorem recovers_not (h : Recovers negation k ws o) :
    Recovers negation k (.keyword .not :: ws) (.not o) := by
  refine recovers_of_succ fun n hn => ?_
  simp only [List.length_cons, rank] at hn
  rw [outline]
  exact .accept_yes rfl (.last (h.fewer (by omega)) (.pure _))

theorem recovers_conjunction (hk : k ≠ .keyword .and) (h : Recovers negation k ws o) :
    Recovers conjunction k ws o := by
  refine recovers_of_succ fun n hn => ?_
  rw [outline]
  exact .last (h n (by simp only [rank] at hn ⊢; omega)) (.accept_no hk (.pure _))

theorem recovers_and (h : Recovers negation (.keyword .and) ws o) (h' : Recovers negation k vs o') :
    Recovers conjunction k (ws ++ .keyword .and :: vs) (.and o o') := by
  refine recovers_of_succ fun n hn => ?_
  simp only [List.length_append, List.length_cons, rank] at hn
  rw [outline]
  exact .bind (h.fewer (by omega)) (.accept_yes rfl (.last (h'.fewer (by omega)) (.pure _)))

theorem recovers_disjunction (hk : k ≠ .keyword .or) (h : Recovers conjunction k ws o) :
    Recovers disjunction k ws o := by
  refine recovers_of_succ fun n hn => ?_
  rw [outline]
  exact .last (h n (by simp only [rank] at hn ⊢; omega)) (.accept_no hk (.pure _))

theorem recovers_or (h : Recovers conjunction (.keyword .or) ws o) (h' : Recovers disjunction k vs o') :
    Recovers disjunction k (ws ++ .keyword .or :: vs) (.or o o') := by
  refine recovers_of_succ fun n hn => ?_
  simp only [List.length_append, List.length_cons, rank] at hn
  rw [outline]
  exact .bind (h.fewer (by omega)) (.accept_yes rfl (.last (h'.fewer (by omega)) (.pure _)))

/-- An expression that starts with none of the words that an expression of another kind starts with. -/
theorem recovers_expr (hret : Word.first ws k ≠ .keyword .ret) (hvar : Word.first ws k ≠ .keyword .var)
    (hname : Word.first ws k ≠ .name) (h : Recovers disjunction k ws o) : Recovers expr k ws o := by
  refine recovers_of_succ fun n hn => ?_
  rw [outline]
  refine .accept_no hret (.accept_no hvar (.check_no hname (.glance fun _ => ?_)))
  exact h n (by simp only [rank] at hn ⊢; omega)

/-- An expression that starts with a name but is no assignment. -/
theorem recovers_expr_of_name {x : String} (hne : Word.first ws k ≠ .punct '=')
    (h : Recovers disjunction k (.name x :: ws) o) : Recovers expr k (.name x :: ws) o := by
  refine recovers_of_succ fun n hn => ?_
  rw [outline]
  refine .accept_no (by rintro ⟨⟩) (.accept_no (by rintro ⟨⟩) ?_)
  refine .check_yes rfl (.second (by rintro ⟨⟩) ?_)
  rw [decide_eq_false hne]
  exact h n (by simp only [rank] at hn ⊢; omega)

theorem recovers_store (x : String) (h : Recovers expr k ws o) :
    Recovers expr k (.name x :: .punct '=' :: ws) (.store x o) := by
  refine recovers_of_succ fun n hn => ?_
  simp only [List.length_cons, rank] at hn
  rw [outline]
  refine .accept_no (by rintro ⟨⟩) (.accept_no (by rintro ⟨⟩) ?_)
  refine .check_yes rfl (.second (by rintro ⟨⟩) ?_)
  have hsign : Word.first (.punct '=' :: ws) k = .punct '=' := rfl
  rw [decide_eq_true hsign]
  refine .advance fun t ht => ?_
  obtain rfl : t.lexeme = x := congrArg Word.text ht
  exact .advance fun _ _ => .last (h.fewer (by omega)) (.pure _)

theorem recovers_ret (h : Recovers expr k ws o) : Recovers expr k (.keyword .ret :: ws) (.ret o) := by
  refine recovers_of_succ fun n hn => ?_
  simp only [List.length_cons, rank] at hn
  rw [outline]
  exact .accept_yes rfl (.last (h.fewer (by omega)) (.pure _))

theorem recovers_decls {ds : Outline.Vars} (h : Recovers declarations k ws ds) :
    Recovers expr k (.keyword .var :: ws) (.decls ds) := by
  refine recovers_of_succ fun n hn => ?_
  simp only [List.length_cons, rank] at hn
  rw [outline]
  exact .accept_no (by rintro ⟨⟩) (.accept_yes rfl (.last (h.fewer (by omega)) (.pure _)))

end Levels

section Lists

theorem recovers_statements_last (h : Recovers expr (.punct ';') ws o) :
    Recovers statements k (ws ++ [.punct ';', .punct '}']) (.last o) := by
  refine recovers_of_succ fun n hn => ?_
  simp only [List.length_append, List.length_cons, rank] at hn
  rw [outline]
  exact .bind (h.fewer (by omega)) (.expect rfl fun _ _ => .accept_yes rfl (.pure _))

theorem recovers_statements_cons {b : Outline.Block} (hvs : Word.first vs k ≠ .punct '}')
    (h : Recovers expr (.punct ';') ws o) (h' : Recovers statements k vs b) :
    Recovers statements k (ws ++ .punct ';' :: vs) (.cons o b) := by
  refine recovers_of_succ fun n hn => ?_
  simp only [List.length_append, List.length_cons, rank] at hn
  rw [outline]
  refine .bind (h.fewer (by omega)) (.expect rfl fun _ _ => ?_)
  exact .accept_no hvs (.last (h'.fewer (by omega)) (.pure _))

theorem recovers_braces {b : Outline.Block} (opens : Bool) (h : Recovers statements k ws b) :
    Recovers (body opens) k (.punct '{' :: ws) (.braces b) := by
  refine recovers_of_succ fun n hn => ?_
  simp only [List.length_cons, rank] at hn
  rw [outline]
  exact .accept_yes rfl (.last (h.fewer (by omega)) (.pure _))

theorem recovers_declarations_last (x : String) (hk : k ≠ .punct ',') (h : Recovers expr k ws o) :
    Recovers declarations k (.name x :: .punct '=' :: ws) (.last x o) := by
  refine recovers_of_succ fun n hn => ?_
  simp only [List.length_cons, rank] at hn
  rw [outline]
  refine .expect rfl fun t ht => ?_
  obtain rfl : t.lexeme = x := congrArg Word.text ht
  exact .accept_yes rfl (.last (h.fewer (by omega)) (.accept_no hk (.pure _)))

theorem recovers_declarations_cons (x : String) {ds : Outline.Vars}
    (h : Recovers expr (.punct ',') ws o) (h' : Recovers declarations k vs ds) :
    Recovers declarations k (.name x :: .punct '=' :: ws ++ .punct ',' :: vs) (.cons x o ds) := by
  refine recovers_of_succ fun n hn => ?_
  simp only [List.cons_append, List.length_append, List.length_cons, rank] at hn
  rw [outline]
  refine .expect rfl fun t ht => ?_
  obtain rfl : t.lexeme = x := congrArg Word.text ht
  exact .accept_yes rfl (.bind (h.fewer (by omega))
    (.accept_yes rfl (.last (h'.fewer (by omega)) (.pure _))))

theorem recovers_arguments_nil : Recovers arguments k [.punct ')'] [] := by
  refine recovers_of_succ fun n hn => ?_
  rw [outline]
  exact .accept_yes rfl (.pure _)

theorem recovers_arguments {os : List Outline} (hws : Word.first ws k ≠ .punct ')')
    (h : Recovers argumentList k ws os) : Recovers arguments k ws os := by
  refine recovers_of_succ fun n hn => ?_
  rw [outline]
  exact .accept_no hws (h n (by simp only [rank] at hn ⊢; omega))

theorem recovers_argumentList_last (h : Recovers expr (.punct ')') ws o) :
    Recovers argumentList k (ws ++ [.punct ')']) [o] := by
  refine recovers_of_succ fun n hn => ?_
  simp only [List.length_append, List.length_cons, rank] at hn
  rw [outline]
  exact .bind (h.fewer (by omega)) (.accept_no (by rintro ⟨⟩) (.expect rfl fun _ _ => .pure _))

theorem recovers_argumentList_cons {os : List Outline} (h : Recovers expr (.punct ',') ws o)
    (h' : Recovers argumentList k vs os) :
    Recovers argumentList k (ws ++ .punct ',' :: vs) (o :: os) := by
  refine recovers_of_succ fun n hn => ?_
  simp only [List.length_append, List.length_cons, rank] at hn
  rw [outline]
  exact .bind (h.fewer (by omega)) (.accept_yes rfl (.last (h'.fewer (by omega)) (.pure _)))

theorem recovers_paramList : ∀ xs : List String, xs ≠ [] → k ≠ .punct ',' →
    Recovers paramList k (paramWords xs) xs
  | [], h, _ => absurd rfl h
  | [x], _, hk => by
    refine recovers_of_succ fun n hn => ?_
    rw [outline]
    refine .expect rfl fun t ht => ?_
    obtain rfl : t.lexeme = x := congrArg Word.text ht
    exact .accept_no hk (.pure _)
  | x :: y :: ys, _, hk => by
    have h := recovers_paramList (y :: ys) (by simp) hk
    refine recovers_of_succ fun n hn => ?_
    simp only [paramWords, List.length_cons, rank] at hn
    rw [outline]
    refine .expect rfl fun t ht => ?_
    obtain rfl : t.lexeme = x := congrArg Word.text ht
    exact .accept_yes rfl (.last (h.fewer (by omega)) (.pure _))

theorem recovers_params (xs : List String) (hk : k ≠ .punct ',') (hk' : k ≠ .name) :
    Recovers params k (paramWords xs) xs := by
  refine recovers_of_succ fun n hn => ?_
  rw [outline]
  cases xs with
  | nil => exact .check_no hk' (.pure _)
  | cons x xs =>
    have h := recovers_paramList (x :: xs) (by simp) hk n (by simp only [rank] at hn ⊢; omega)
    refine .check_yes ?_ h
    cases xs <;> rfl

theorem recovers_function (f : Outline.Proc) (h : Recovers (body false) k f.body.words f.body) :
    Recovers function k f.words f := by
  refine recovers_of_succ fun n hn => ?_
  simp only [Outline.Proc.words, List.cons_append, List.length_cons, List.length_append, rank] at hn
  rw [outline]
  refine .expect rfl fun _ _ => .expect rfl fun t ht => ?_
  have hname : t.lexeme = f.name := congrArg Word.text ht
  rw [hname]
  have hparams : Recovers params (.punct ')') (paramWords f.params) f.params :=
    recovers_params f.params (by decide) (by decide)
  exact .expect rfl fun _ _ => .bind (hparams.fewer (by omega))
    (.expect rfl fun _ _ => .expect rfl fun _ _ => .last (h.fewer (by omega)) (.pure _))

theorem recovers_program (fs : List Outline.Proc)
    (h : ∀ f ∈ fs, ∀ k, Recovers (body false) k f.body.words f.body) :
    Recovers program .eof (fs.flatMap Outline.Proc.words) fs := by
  induction fs with
  | nil =>
    refine recovers_of_succ fun n hn => ?_
    rw [outline]
    exact .check_yes rfl (.pure _)
  | cons f fs ih =>
    have hrest := ih fun g hg => h g (List.mem_cons_of_mem f hg)
    refine recovers_of_succ fun n hn => ?_
    simp only [List.flatMap_cons, List.length_append, rank] at hn
    have hwords : 1 ≤ f.words.length := by simp [Outline.Proc.words]
    rw [outline, List.flatMap_cons]
    refine .check_no (by rintro ⟨⟩) (.bind (recovers_function f (h f List.mem_cons_self _) n ?_)
      (.last (hrest.fewer (by omega)) (.pure _)))
    simp only [rank]
    omega

end Lists

end Phrase
end Morpho
