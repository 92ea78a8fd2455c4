import Morpho.Proofs.Fuel

/-! Chains of operators. Seven nested levels of reading, six of which loop and one of which recurs, give
the tree that a single rule describes: a chain comes apart at the loosest of its operators, at the last
one if there are several, or at the first one if their class is `op2`. -/
namespace Morpho

theorem OpClass.number_injective {c d : OpClass} (h : c.number = d.number) : c = d := by
  rw [← Option.some_inj, ← ofNumber?_number c, h, ofNumber?_number]

/-- An operator of a chain with the operand on its right. -/
structure Link where
  op : OpClass
  name : String
  operand : Expr
  deriving DecidableEq

namespace Link

/-- Where a chain comes apart: what stands before the operator, the operator with its operand, and what
stands after it. -/
def split : List Link → Option (List Link × Link × List Link)
  | [] => none
  | l :: ls =>
    match split ls with
    | none => some ([], l, [])
    | some (before, o, after) =>
      if o.op.number < l.op.number ∨ o.op = l.op ∧ o.op ≠ .op2 then some (l :: before, o, after)
      else some ([], l, ls)

/-- No operator around `o` is looser. Of those as loose as `o` it is the last one, or the first one if
their class is `op2`. -/
structure Apart (before : List Link) (o : Link) (after : List Link) : Prop where
  loosest : ∀ l ∈ before ++ after, o.op.number ≤ l.op.number
  first : o.op = .op2 → ∀ l ∈ before, l.op ≠ o.op
  last : o.op ≠ .op2 → ∀ l ∈ after, l.op ≠ o.op

theorem split_eq_none {links : List Link} (h : split links = none) : links = [] := by
  cases links with
  | nil => rfl
  | cons l ls =>
    rw [split] at h
    split at h
    · cases h
    · split at h <;> cases h

/-- The operator further right holds against a first one that is tighter, or as loose and not of class
`op2`. -/
theorem Apart.cons {before after : List Link} {o l : Link} (h : Apart before o after)
    (hl : o.op.number < l.op.number ∨ o.op = l.op ∧ o.op ≠ .op2) : Apart (l :: before) o after where
  loosest := by
    intro l' hl'
    rcases List.mem_cons.mp hl' with rfl | hl'
    · rcases hl with hlt | ⟨heq, -⟩
      · exact Nat.le_of_lt hlt
      · rw [heq]
    · exact h.loosest l' hl'
  first := by
    intro ho l' hl' heq
    rcases List.mem_cons.mp hl' with rfl | hl'
    · rcases hl with hlt | ⟨-, hne⟩
      · rw [heq] at hlt
        exact Nat.lt_irrefl _ hlt
      · exact hne ho
    · exact h.first ho l' hl' heq
  last := h.last

/-- Otherwise the chain comes apart at the first operator. -/
theorem Apart.head {before after : List Link} {o l : Link} (h : Apart before o after)
    (hl : ¬ (o.op.number < l.op.number ∨ o.op = l.op ∧ o.op ≠ .op2)) :
    Apart [] l (before ++ o :: after) := by
  rw [not_or] at hl
  have hle : ∀ l' ∈ before ++ o :: after, o.op.number ≤ l'.op.number := by
    intro l' hl'
    rcases List.mem_append.mp hl' with hl' | hl'
    · exact h.loosest l' (List.mem_append_left _ hl')
    · rcases List.mem_cons.mp hl' with rfl | hl'
      · exact Nat.le_refl _
      · exact h.loosest l' (List.mem_append_right _ hl')
  refine ⟨fun l' hl' => Nat.le_trans (Nat.le_of_not_lt hl.1) (hle l' hl'), fun _ => nofun, ?_⟩
  intro hne l' hl' heq
  have hle' := hle l' hl'
  rw [heq] at hle'
  have hop := OpClass.number_injective (Nat.le_antisymm hle' (Nat.le_of_not_lt hl.1))
  exact hl.2 ⟨hop, hop ▸ hne⟩

theorem apart_of_split {links before after : List Link} {o : Link}
    (h : split links = some (before, o, after)) :
    links = before ++ o :: after ∧ Apart before o after := by
  induction links generalizing before o after with
  | nil => cases h
  | cons l ls ih =>
    rw [split] at h
    split at h
    · next hnone =>
      cases h
      rw [split_eq_none hnone]
      exact ⟨rfl, nofun, fun _ => nofun, fun _ => nofun⟩
    · next hsome =>
      obtain ⟨rfl, hapart⟩ := ih hsome
      split at h
      · next hl =>
        cases h
        exact ⟨rfl, hapart.cons hl⟩
      · next hl =>
        cases h
        exact ⟨rfl, hapart.head hl⟩

/-- The tree of a chain that starts with the operand `x`. -/
def tree (x : Expr) (links : List Link) : Expr :=
  match _h : split links with
  | none => x
  | some (before, o, after) => .call o.name [tree x before, tree o.operand after]
termination_by links.length
decreasing_by
  all_goals
    have hlength := congrArg List.length (apart_of_split _h).1
    simp only [List.length_append, List.length_cons] at hlength
    omega

@[simp] theorem tree_nil (x : Expr) : tree x [] = x := by
  rw [tree]
  split
  · rfl
  · next h => cases h

theorem Apart.split_eq {before after : List Link} {o : Link} (h : Apart before o after) :
    split (before ++ o :: after) = some (before, o, after) := by
  induction before with
  | nil =>
    rw [List.nil_append, split]
    cases hsplit : split after with
    | none => rw [split_eq_none hsplit]
    | some r =>
      obtain ⟨before', o', after'⟩ := r
      have hmem : o' ∈ after := by simp [(apart_of_split hsplit).1]
      have hle := h.loosest o' (by simpa using hmem)
      refine if_neg ?_
      rintro (hlt | ⟨heq, hne⟩)
      · omega
      · exact h.last (heq ▸ hne) o' hmem heq
  | cons l before ih =>
    have htail : Apart before o after :=
      ⟨fun l' hl' => h.loosest l' (List.mem_cons_of_mem l hl'),
        fun ho l' hl' => h.first ho l' (List.mem_cons_of_mem l hl'), h.last⟩
    rw [List.cons_append, split, ih htail]
    refine if_pos ?_
    rcases Nat.lt_or_eq_of_le (h.loosest l (by simp)) with hlt | heq
    · exact .inl hlt
    · have hop := OpClass.number_injective heq
      exact .inr ⟨hop, fun ho => h.first ho l (by simp) hop.symm⟩

theorem Apart.tree_eq {before after : List Link} {o : Link} (h : Apart before o after) (x : Expr) :
    tree x (before ++ o :: after) = .call o.name [tree x before, tree o.operand after] := by
  rw [tree]
  split
  · next hnone => cases hnone.symm.trans h.split_eq
  · next hsome =>
    cases hsome.symm.trans h.split_eq
    rfl

/-- Without looser operators than `c`, a chain is a chain of tighter ones, up to its first operator of
class `c`. -/
theorem exists_tighter (c : OpClass) {links : List Link} (h : ∀ l ∈ links, c.number ≤ l.op.number) :
    ∃ before rest, links = before ++ rest ∧ (∀ l ∈ before, c.number + 1 ≤ l.op.number) ∧
      ∀ l ∈ rest.head?, l.op = c := by
  refine ⟨links.takeWhile (·.op ≠ c), links.dropWhile (·.op ≠ c),
    List.takeWhile_append_dropWhile.symm, ?_, ?_⟩
  · intro l hl
    have hne : l.op ≠ c := by simpa using List.mem_takeWhile_imp hl
    have hle := h l ((List.takeWhile_sublist _).subset hl)
    have hnumber : c.number ≠ l.op.number := fun heq => hne (OpClass.number_injective heq).symm
    omega
  · intro l hl
    have hhead := List.head?_dropWhile_not (fun l : Link => decide (l.op ≠ c)) links
    rw [Option.mem_def.mp hl] at hhead
    simpa using hhead

end Link

namespace Parser

/-- The state after the next token is taken. -/
def State.rest (s : State) : State := { s with tokens := s.tokens.tail }

end Parser

namespace Phrase

open Morpho.Parser

/-- Reading the phrase at `s` gives `a` and leads to `t`. -/
def ReadAs (p : Phrase) (s : State) (a : p.Tree) (t : State) : Prop := ∃ n, parse n p s = .ok a t

/-- From `s` to `t` stands a literal, a declared variable, a call or an expression in parentheses, after
any number of operators in front of it. -/
inductive Operand : State → Expr → State → Prop
  | literal {s : State} (h : s.current.kind = .literal) :
    Operand s (.literal s.current.lexeme) s.rest
  | fetch {s : State} {slot : Nat} (h : s.current.kind = .name)
    (hslot : s.scopes.slot? s.current.lexeme = some slot) : Operand s (.fetch slot) s.rest
  | call {s t : State} {args : List Expr} (h : s.current.kind = .name)
    (hopen : s.rest.current.kind = .punct '(') (hargs : ReadAs arguments s.rest.rest args t) :
    Operand s (.call s.current.lexeme args) t
  | group {s t : State} {e : Expr} (h : s.current.kind = .punct '(') (he : ReadAs expr s.rest e t)
    (hclose : t.current.kind = .punct ')') : Operand s e t.rest
  | unary {s t : State} {c : OpClass} {e : Expr} (h : s.current.kind = .op c)
    (he : Operand s.rest e t) : Operand s (.call s.current.lexeme [e]) t

/-- From `s` to `t` stand operators, each with an operand after it. -/
inductive Links : State → List Link → State → Prop
  | nil {s : State} : Links s [] s
  | cons {s t u : State} {c : OpClass} {x : Expr} {links : List Link} (h : s.current.kind = .op c)
    (hx : Operand s.rest x t) (hlinks : Links t links u) :
    Links s (⟨c, s.current.lexeme, x⟩ :: links) u

namespace Links

variable {s t u : State} {links : List Link}

theorem append {before rest : List Link} (h : Links s (before ++ rest) t) :
    ∃ u, Links s before u ∧ Links u rest t := by
  induction before generalizing s with
  | nil => exact ⟨s, .nil, h⟩
  | cons l before ih =>
    cases h with
    | cons hop hx hlinks =>
      obtain ⟨u, hbefore, hrest⟩ := ih hlinks
      exact ⟨u, .cons hop hx hbefore, hrest⟩

/-- The next token is the first operator, or what follows the chain. -/
theorem kind (h : Links s links t) :
    (links = [] ∧ s = t) ∨ ∃ l ∈ links.head?, s.current.kind = .op l.op := by
  cases h with
  | nil => exact .inl ⟨rfl, rfl⟩
  | cons hop _ _ => exact .inr ⟨_, rfl, hop⟩

end Links

/-- One fuel is enough for two readings. -/
theorem ReadAs.both {p q : Phrase} {s t u v : State} {a : p.Tree} {b : q.Tree}
    (ha : ReadAs p s a t) (hb : ReadAs q u b v) (hp : p ≠ program) (hq : q ≠ program) :
    ∃ n, parse n p s = .ok a t ∧ parse n q u = .ok b v := by
  obtain ⟨n, hn⟩ := ha
  obtain ⟨m, hm⟩ := hb
  exact ⟨max n m, parse_mono (Nat.le_max_left n m) hp hn, parse_mono (Nat.le_max_right n m) hq hm⟩

section Rules

variable {s t u : State} {c : OpClass} {e r : Expr}

theorem ReadAs.small_of_operand (h : Operand s e t) (ht : t.current.kind ≠ .punct '(') :
    ReadAs small s e t := by
  induction h with
  | @literal s h =>
    refine ⟨1, ?_⟩
    rw [parse]
    refine bind_eq_ok.mpr ⟨s.current, s, rfl, ?_⟩
    simp only [h]
    rfl
  | @fetch s slot h hslot =>
    refine ⟨1, ?_⟩
    rw [parse]
    refine bind_eq_ok.mpr ⟨s.current, s, rfl, ?_⟩
    simp only [h]
    refine bind_eq_ok.mpr ⟨s.current, s.rest, rfl, ?_⟩
    refine bind_eq_ok.mpr ⟨false, s.rest, check_bind_of_ne ht, ?_⟩
    refine bind_eq_ok.mpr ⟨slot, s.rest, ?_, rfl⟩
    simp only [resolve, Scopes.find, State.rest, hslot]
  | @call s t args h hopen hargs =>
    obtain ⟨n, hn⟩ := hargs
    refine ⟨n + 1, ?_⟩
    rw [parse]
    refine bind_eq_ok.mpr ⟨s.current, s, rfl, ?_⟩
    simp only [h]
    refine bind_eq_ok.mpr ⟨s.current, s.rest, rfl, ?_⟩
    refine bind_eq_ok.mpr ⟨true, s.rest.rest, check_bind_of_kind hopen, ?_⟩
    exact bind_eq_ok.mpr ⟨args, t, hn, rfl⟩
  | @group s t e h he hclose =>
    obtain ⟨n, hn⟩ := he
    refine ⟨n + 1, ?_⟩
    rw [parse]
    refine bind_eq_ok.mpr ⟨s.current, s, rfl, ?_⟩
    simp only [h]
    refine bind_eq_ok.mpr ⟨s.current, s.rest, rfl, ?_⟩
    refine bind_eq_ok.mpr ⟨e, t, hn, ?_⟩
    exact bind_eq_ok.mpr ⟨t.current, t.rest, expect_of_kind hclose, rfl⟩
  | @unary s t c e h he ih =>
    obtain ⟨n, hn⟩ := ih ht
    refine ⟨n + 1, ?_⟩
    rw [parse]
    refine bind_eq_ok.mpr ⟨s.current, s, rfl, ?_⟩
    simp only [h]
    refine bind_eq_ok.mpr ⟨s.current, s.rest, rfl, ?_⟩
    exact bind_eq_ok.mpr ⟨e, t, hn, rfl⟩

theorem ReadAs.binary_none (h : ReadAs small s e t) : ReadAs (binary none) s e t := by
  obtain ⟨n, hn⟩ := h
  refine ⟨n + 1, ?_⟩
  rw [parse]
  exact hn

/-- No operator of the class follows. -/
theorem ReadAs.right_last (hc : c.groupsRight = true) (h : ReadAs (binary c.tighter?) s e t)
    (ht : t.current.kind ≠ .op c) : ReadAs (binary (some c)) s e t := by
  obtain ⟨n, hn⟩ := h
  refine ⟨n + 1, ?_⟩
  rw [parse]
  refine bind_eq_ok.mpr ⟨e, t, hn, ?_⟩
  rw [if_pos hc, check_bind_of_ne ht]
  rfl

theorem ReadAs.right_more (hc : c.groupsRight = true) (h : ReadAs (binary c.tighter?) s e u)
    (hu : u.current.kind = .op c) (hr : ReadAs (binary (some c)) u.rest r t) :
    ReadAs (binary (some c)) s (.call u.current.lexeme [e, r]) t := by
  obtain ⟨n, hn, hm⟩ := h.both hr nofun nofun
  refine ⟨n + 1, ?_⟩
  rw [parse]
  refine bind_eq_ok.mpr ⟨e, u, hn, ?_⟩
  rw [if_pos hc, check_bind_of_kind hu]
  refine bind_eq_ok.mpr ⟨u.current, u.rest, rfl, ?_⟩
  exact bind_eq_ok.mpr ⟨r, t, hm, rfl⟩

theorem ReadAs.left {ops : List (String × Expr)} (hc : c.groupsRight = false)
    (h : ReadAs (binary c.tighter?) s e u) (hops : ReadAs (chain c) u ops t) :
    ReadAs (binary (some c)) s (fromLeft e ops) t := by
  obtain ⟨n, hn, hm⟩ := h.both hops nofun nofun
  refine ⟨n + 1, ?_⟩
  rw [parse]
  refine bind_eq_ok.mpr ⟨e, u, hn, ?_⟩
  rw [hc]
  exact bind_eq_ok.mpr ⟨ops, t, hm, rfl⟩

theorem ReadAs.chain_nil (hs : s.current.kind ≠ .op c) : ReadAs (chain c) s [] s := by
  refine ⟨1, ?_⟩
  rw [parse, check_bind_of_ne hs]
  rfl

theorem ReadAs.chain_cons {ops : List (String × Expr)} (hs : s.current.kind = .op c)
    (hr : ReadAs (binary c.tighter?) s.rest r u) (hops : ReadAs (chain c) u ops t) :
    ReadAs (chain c) s ((s.current.lexeme, r) :: ops) t := by
  obtain ⟨n, hn, hm⟩ := hr.both hops nofun nofun
  refine ⟨n + 1, ?_⟩
  rw [parse, check_bind_of_kind hs]
  refine bind_eq_ok.mpr ⟨s.current, s.rest, rfl, ?_⟩
  refine bind_eq_ok.mpr ⟨r, u, hn, ?_⟩
  exact bind_eq_ok.mpr ⟨ops, t, hm, rfl⟩

end Rules

/-- The number of the loosest class that is read at a level; operands alone are read at the last one. -/
def level : Option OpClass → Nat
  | some c => c.number
  | none => 8

theorem level_tighter (c : OpClass) : level c.tighter? = c.number + 1 := by cases c <;> rfl

/-- A token that ends a chain read at a level. -/
def Stops (level : Nat) (k : Token.Kind) : Prop :=
  k ≠ .punct '(' ∧ ∀ c, k = .op c → c.number < level

/-- At a level, every chain of operators that are no looser is read as its tree. -/
def ReadsTrees (d : Option OpClass) : Prop :=
  ∀ ⦃s u t : State⦄ ⦃x : Expr⦄ ⦃links : List Link⦄, Operand s x u → Links u links t →
    (∀ l ∈ links, level d ≤ l.op.number) → Stops (level d) t.current.kind →
    ReadAs (binary d) s (Link.tree x links) t

theorem readsTrees_none : ReadsTrees none := by
  intro s u t x links hx hlinks htight ht
  cases hlinks with
  | nil =>
    rw [Link.tree_nil]
    exact (ReadAs.small_of_operand hx ht.1).binary_none
  | @cons _ _ _ c _ _ _ _ _ =>
    have hlevel : 8 ≤ c.number := htight _ List.mem_cons_self
    cases c <;> simp only [OpClass.number] at hlevel <;> omega

section Levels

variable {c : OpClass}

/-- Up to the first operator of class `c`, a chain is read at the next level. -/
theorem ReadsTrees.before (ih : ReadsTrees c.tighter?) {s u t : State} {x : Expr}
    {links : List Link} (hx : Operand s x u) (hlinks : Links u links t)
    (htight : ∀ l ∈ links, c.number ≤ l.op.number) (ht : Stops c.number t.current.kind) :
    ∃ before rest v, links = before ++ rest ∧ (∀ l ∈ before, c.number + 1 ≤ l.op.number) ∧
      (∀ l ∈ rest.head?, l.op = c) ∧ Links v rest t ∧
      ReadAs (binary c.tighter?) s (Link.tree x before) v := by
  obtain ⟨before, rest, rfl, hbefore, hrest⟩ := Link.exists_tighter c htight
  obtain ⟨v, hv, hvt⟩ := hlinks.append
  refine ⟨before, rest, v, rfl, hbefore, hrest, hvt, ih hx hv (level_tighter c ▸ hbefore) ?_⟩
  rw [level_tighter]
  rcases hvt.kind with ⟨-, rfl⟩ | ⟨l, hl, hkind⟩
  · exact ⟨ht.1, fun d hd => Nat.lt_succ_of_lt (ht.2 d hd)⟩
  · rw [hkind, hrest l hl]
    refine ⟨nofun, ?_⟩
    rintro d ⟨⟩
    exact Nat.lt_succ_self _

theorem readsTrees_right (hc : c = .op2) (ih : ReadsTrees c.tighter?) : ReadsTrees (some c) := by
  intro s u t x links hx hlinks htight ht
  -- each operator of the class leaves a shorter chain on its right
  induction hlen : links.length using Nat.strong_induction_on generalizing s u x links with
  | h k ihlen =>
    obtain ⟨before, rest, v, rfl, hbefore, hrest, hvt, hleft⟩ := ih.before hx hlinks htight ht
    cases hvt with
    | nil =>
      rw [List.append_nil]
      refine ReadAs.right_last (by rw [hc]; rfl) hleft fun hkind => ?_
      exact Nat.lt_irrefl _ (ht.2 c hkind)
    | @cons _ w _ d y ls hop hy hls =>
      obtain rfl : d = c := hrest _ rfl
      have hright : ReadAs (binary (some d)) v.rest (Link.tree y ls) t := by
        refine ihlen ls.length ?_ hy hls (fun l hl => htight l (by simp [hl])) rfl
        simp only [← hlen, List.length_append, List.length_cons]
        omega
      have hapart : Link.Apart before ⟨d, v.current.lexeme, y⟩ ls := by
        refine ⟨fun l hl => htight l ?_, fun _ l hl heq => ?_, fun hne => absurd hc hne⟩
        · rcases List.mem_append.mp hl with hl | hl
          · exact List.mem_append_left _ hl
          · exact List.mem_append_right _ (.tail _ hl)
        · have hlt := hbefore l hl
          rw [heq] at hlt
          exact Nat.lt_irrefl _ hlt
      rw [hapart.tree_eq]
      exact .right_more (by rw [hc]; rfl) hleft hop hright

/-- What follows the links `done` is read, operator by operator, as the rest of one tree. -/
theorem ReadsTrees.chain (ih : ReadsTrees c.tighter?) (hc : c ≠ .op2) {s t : State} {x : Expr}
    {done links : List Link} (hdone : ∀ l ∈ done, c.number ≤ l.op.number) (hlinks : Links s links t)
    (htight : ∀ l ∈ links, c.number ≤ l.op.number) (hhead : ∀ l ∈ links.head?, l.op = c)
    (ht : Stops c.number t.current.kind) :
    ∃ ops, ReadAs (chain c) s ops t ∧
      fromLeft (Link.tree x done) ops = Link.tree x (done ++ links) := by
  induction hlen : links.length using Nat.strong_induction_on generalizing s done links with
  | h k ihlen =>
    cases hlinks with
    | nil =>
      refine ⟨[], ReadAs.chain_nil fun hkind => Nat.lt_irrefl _ (ht.2 c hkind), ?_⟩
      rw [List.append_nil]
      rfl
    | @cons _ w _ d y ls hop hy hls =>
      obtain rfl : d = c := hhead _ rfl
      have hlstight : ∀ l ∈ ls, d.number ≤ l.op.number := fun l hl => htight l (.tail _ hl)
      obtain ⟨mid, rest, v, rfl, hmid, hrest, hvt, hoperand⟩ := ih.before hy hls hlstight ht
      have hapart : Link.Apart done ⟨d, s.current.lexeme, y⟩ mid := by
        refine ⟨fun l hl => ?_, fun heq => absurd heq hc, fun _ l hl heq => ?_⟩
        · rcases List.mem_append.mp hl with hl | hl
          · exact hdone l hl
          · exact Nat.le_of_succ_le (hmid l hl)
        · have hlt := hmid l hl
          rw [heq] at hlt
          exact Nat.lt_irrefl _ hlt
      -- the operator closes a tree with all that was read before it
      have hnext : ∀ l ∈ done ++ ⟨d, s.current.lexeme, y⟩ :: mid, d.number ≤ l.op.number := by
        intro l hl
        rcases List.mem_append.mp hl with hl | hl
        · exact hdone l hl
        · rcases List.mem_cons.mp hl with rfl | hl
          · exact Nat.le_refl _
          · exact Nat.le_of_succ_le (hmid l hl)
      obtain ⟨ops, hops, htree⟩ := ihlen rest.length (by simp at hlen; omega) hnext hvt
        (fun l hl => hlstight l (List.mem_append_right _ hl)) hrest rfl
      refine ⟨(s.current.lexeme, Link.tree y mid) :: ops, .chain_cons hop hoperand hops, ?_⟩
      rw [hapart.tree_eq, List.append_assoc] at htree
      exact htree

theorem readsTrees_left (hc : c ≠ .op2) (ih : ReadsTrees c.tighter?) : ReadsTrees (some c) := by
  intro s u t x links hx hlinks htight ht
  obtain ⟨before, rest, v, rfl, hbefore, hrest, hvt, hleft⟩ := ih.before hx hlinks htight ht
  obtain ⟨ops, hops, htree⟩ := ih.chain hc (x := x) (fun l hl => Nat.le_of_succ_le (hbefore l hl)) hvt
    (fun l hl => htight l (List.mem_append_right _ hl)) hrest ht
  rw [← htree]
  exact .left (by simp [OpClass.groupsRight, hc]) hleft hops

end Levels

theorem readsTrees (d : Option OpClass) : ReadsTrees d := by
  match d with
  | none => exact readsTrees_none
  | some c =>
    by_cases hc : c = .op2
    · exact readsTrees_right hc (readsTrees c.tighter?)
    · exact readsTrees_left hc (readsTrees c.tighter?)
termination_by (binary d).rank
decreasing_by all_goals exact rank_tighter c

/-- A chain of operators, followed by no operator and no parenthesis, is read as its tree, and nothing
but the chain is taken. -/
theorem parse_chain_eq_tree {s u t : State} {x : Expr} {links : List Link} {n : Nat}
    (hx : Operand s x u) (hlinks : Links u links t) (hop : t.current.kind.isOperator = false)
    (hparen : t.current.kind ≠ .punct '(')
    (hn : 16 * s.tokens.length + (binary (some .op1)).rank < n) :
    parse n (binary (some .op1)) s = .ok (Link.tree x links) t := by
  have htight : ∀ l ∈ links, level (some .op1) ≤ l.op.number := by
    intro l _
    cases l.op <;> decide
  have hstops : Stops (level (some .op1)) t.current.kind := by
    refine ⟨hparen, fun c hc => ?_⟩
    rw [hc] at hop
    cases hop
  obtain ⟨m, hm⟩ := readsTrees (some .op1) hx hlinks htight hstops
  exact parse_eq_ok (p := binary (some .op1)) nofun hm hn

/-- The chain `- a ^ f(1) : 2 : (a) * 3 ^ 4` comes apart at its last `^`, its left part at the first
one, and what is between them at the first `:`. -/
theorem parse_chain_eq_tree_of_mixed :
    let op (c : OpClass) (lexeme : String) : Token := ⟨.op c, lexeme, .start⟩
    let mark (c : Char) : Token := ⟨.punct c, c.toString, .start⟩
    let digit (lexeme : String) : Token := ⟨.literal, lexeme, .start⟩
    let name (lexeme : String) : Token := ⟨.name, lexeme, .start⟩
    let state (ts : List Token) : State := ⟨ts ++ [mark ';'], .start, ⟨[[("a", 0)]]⟩, []⟩
    let ts := [op .op1 "^", name "f", mark '(', digit "1", mark ')', op .op2 ":", digit "2",
      op .op2 ":", mark '(', name "a", mark ')', op .op7 "*", digit "3", op .op1 "^", digit "4"]
    parse 400 (binary (some .op1)) (state (op .op6 "-" :: name "a" :: ts)) =
    .ok (.call "^" [.call "^" [.call "-" [.fetch 0], .call ":" [.call "f" [.literal "1"],
      .call ":" [.literal "2", .call "*" [.fetch 0, .literal "3"]]]], .literal "4"]) (state []) := by
  intro op mark digit name state ts
  have hx : Operand (state (op .op6 "-" :: name "a" :: ts)) (.call "-" [.fetch 0]) (state ts) :=
    .unary (c := .op6) rfl (.fetch rfl rfl)
  have hlinks : Links (state ts) [⟨.op1, "^", .call "f" [.literal "1"]⟩, ⟨.op2, ":", .literal "2"⟩,
      ⟨.op2, ":", .fetch 0⟩, ⟨.op7, "*", .literal "3"⟩, ⟨.op1, "^", .literal "4"⟩] (state []) := by
    refine .cons rfl (.call rfl rfl ⟨20, rfl⟩) ?_
    refine .cons rfl (.literal rfl) (.cons rfl (.group rfl ⟨20, rfl⟩ rfl) ?_)
    exact .cons rfl (.literal rfl) (.cons rfl (.literal rfl) .nil)
  have hparse := parse_chain_eq_tree (n := 400) hx hlinks rfl (by decide) (by decide)
  simpa [Link.tree, Link.split, OpClass.number] using hparse

end Phrase
end Morpho
