import Morpho.Proofs.LexicalScope

/-! Trees that source text can stand for, and how their slots get names. A slot is in sight where it is
used if it is less than the count of variables declared before in the scopes around. -/
namespace Morpho

/-- A word that is neither reserved nor a literal. -/
def isIdentifier (s : String) : Bool :=
  match s.toList with
  | [] => false
  | c :: cs => isWordStart c && cs.all isWordChar && (Keyword.ofText? s).isNone &&
    !(["true", "false", "null"].contains s)

/-- A run of operator characters other than the mark of an assignment. -/
def isOperatorName (s : String) : Bool :=
  match s.toList with
  | [] => false
  | c :: cs => (c :: cs).all isOperatorChar && s != "="

/-- Whether a text is one lexeme, of kind `k`. -/
def Lexeme.spells (k : Token.Kind) (s : String) : Bool :=
  match s.toList with
  | [] => false
  | c :: cs =>
    match read c cs with
    | .ok l => l = .token k (c :: cs)
    | .error _ => false

mutual

/-- Literals are lexemes, calls are of functions or of operators with one or two operands, and
variables are declared in blocks that do nothing else. -/
def Expr.wellFormed : Expr → Bool
  | .literal t => Lexeme.spells .literal t
  | .fetch _ => true
  | .store _ e => e.wellFormed
  | .call f es => (isIdentifier f || isOperatorName f && (es.length == 1 || es.length == 2)) &&
    Expr.allWellFormed es
  | .ret e => e.wellFormed
  | .ifThen c y => c.wellFormed && y.wellFormed
  | .ifElse c y o => c.wellFormed && y.wellFormed && o.wellFormed
  | .block b => b.declares
  | .loop c b => c.wellFormed && b.wellFormed
  | .or l r => l.wellFormed && r.wellFormed
  | .and l r => l.wellFormed && r.wellFormed
  | .not e => e.wellFormed
  | .decl _ => false

def Body.wellFormed : Body → Bool
  | .last e => e.wellFormed
  | .cons e rest => e.wellFormed && rest.wellFormed

/-- A list of declarations. -/
def Body.declares : Body → Bool
  | .last (.decl e) => e.wellFormed
  | .cons (.decl e) rest => e.wellFormed && rest.declares
  | _ => false

def Expr.allWellFormed : List Expr → Bool
  | [] => true
  | e :: es => e.wellFormed && Expr.allWellFormed es

end

mutual

/-- How many variables are in sight behind an expression if there are `n` in front of it. Those of the
body of a branch or a loop are not in sight behind it. -/
def Expr.behind : Expr → Nat → Nat
  | .literal _, n | .fetch _, n => n
  | .store _ e, n | .ret e, n | .not e, n => e.behind n
  | .call _ es, n => Expr.behindAll es n
  | .ifThen c _, n | .ifElse c _ _, n | .loop c _, n => c.behind n
  | .block b, n => b.behind n
  | .or l r, n | .and l r, n => r.behind (l.behind n)
  | .decl e, n => e.behind n + 1

def Body.behind : Body → Nat → Nat
  | .last e, n => e.behind n
  | .cons e rest, n => rest.behind (e.behind n)

def Expr.behindAll : List Expr → Nat → Nat
  | [], n => n
  | e :: es, n => Expr.behindAll es (e.behind n)

end

mutual

/-- Whether every slot that is used is in sight there, if `n` variables are in sight in front of the
expression. -/
def Expr.inSight : Expr → Nat → Bool
  | .literal _, _ => true
  | .fetch i, n => i < n
  | .store i e, n => i < n && e.inSight n
  | .call _ es, n => Expr.allInSight es n
  | .ret e, n | .not e, n | .decl e, n => e.inSight n
  | .ifThen c y, n => c.inSight n && y.inSight (c.behind n)
  | .ifElse c y o, n => c.inSight n && y.inSight (c.behind n) && o.inSight (c.behind n)
  | .block b, n => b.inSight n
  | .loop c b, n => c.inSight n && b.inSight (c.behind n)
  | .or l r, n | .and l r, n => l.inSight n && r.inSight (l.behind n)

def Body.inSight : Body → Nat → Bool
  | .last e, n => e.inSight n
  | .cons e rest, n => e.inSight n && rest.inSight (e.behind n)

def Expr.allInSight : List Expr → Nat → Bool
  | [], _ => true
  | e :: es, n => e.inSight n && Expr.allInSight es (e.behind n)

end

def Function.wellFormed (f : Function) : Bool :=
  isIdentifier f.name && f.body.wellFormed && f.body.inSight f.arity

def Program.wellFormed (p : Program) : Bool := p.functions.all Function.wellFormed

/-- The name that the variable in slot `i` gets. -/
def slotName (i : Nat) : String := "v" ++ toString i

theorem toList_slotName (i : Nat) : (slotName i).toList = 'v' :: Nat.toDigits 10 i := by
  simp [slotName]

theorem slotName_injective {i j : Nat} (h : slotName i = slotName j) : i = j := by
  have hdigits : Nat.toDigits 10 i = Nat.toDigits 10 j := by
    have htext := congrArg String.toList h
    simpa [toList_slotName] using htext
  rw [← Nat.ofDigitChars_ten_toDigits (n := i), hdigits, Nat.ofDigitChars_ten_toDigits]

mutual

/-- The expression with names for slots, where `n` variables are in sight in front of it. All bodies
stand in braces. -/
def Expr.named : Expr → Nat → Outline
  | .literal t, _ => .literal t
  | .fetch i, _ => .fetch (slotName i)
  | .store i e, n => .store (slotName i) (e.named n)
  | .call f es, n => .call f (Expr.namedAll es n)
  | .ret e, n => .ret (e.named n)
  | .ifThen c y, n => .ifThen (c.named n) (.braces (y.named (c.behind n)))
  | .ifElse c y o, n =>
    .ifElse (c.named n) (.braces (y.named (c.behind n))) (.braces (o.named (c.behind n)))
  | .block b, n => .decls (b.namedVars n)
  | .loop c b, n => .loop (c.named n) (.braces (b.named (c.behind n)))
  | .or l r, n => .or (l.named n) (r.named (l.behind n))
  | .and l r, n => .and (l.named n) (r.named (l.behind n))
  | .not e, n => .not (e.named n)
  | .decl e, n => .decls (.last (slotName (e.behind n)) (e.named n))

def Body.named : Body → Nat → Outline.Block
  | .last e, n => .last (e.named n)
  | .cons e rest, n => .cons (e.named n) (rest.named (e.behind n))

/-- A list of declarations with names; each name comes into sight behind its initial value. -/
def Body.namedVars : Body → Nat → Outline.Vars
  | .last (.decl e), n => .last (slotName (e.behind n)) (e.named n)
  | .cons (.decl e) rest, n =>
    .cons (slotName (e.behind n)) (e.named n) (rest.namedVars (e.behind n + 1))
  | .last e, n => .last (slotName n) (e.named n)
  | .cons e rest, n => .cons (slotName n) (e.named n) (rest.namedVars n)

def Expr.namedAll : List Expr → Nat → List Outline
  | [], _ => []
  | e :: es, n => e.named n :: Expr.namedAll es (e.behind n)

end

def Function.named (f : Function) : Outline.Proc :=
  ⟨f.name, (List.range f.arity).map slotName, .braces (f.body.named f.arity)⟩

/-- The first `n` variables under their names, newest first. -/
def frame : Nat → Scope
  | 0 => []
  | n + 1 => (slotName n, n) :: frame n

theorem length_frame (n : Nat) : (frame n).length = n := by
  induction n with
  | zero => rfl
  | succ n ih => rw [frame, List.length_cons, ih]

theorem lookup_frame {i n : Nat} (h : i < n) : (frame n).lookup (slotName i) = some i := by
  induction n with
  | zero => omega
  | succ n ih =>
    by_cases hi : i = n
    · subst hi
      simp [frame]
    · have hne : slotName i ≠ slotName n := fun hs => hi (slotName_injective hs)
      rw [frame, List.lookup_cons, beq_eq_false_iff_ne.mpr hne]
      exact ih (by omega)

theorem lookup_frame_self {i n : Nat} (h : n ≤ i) : (frame n).lookup (slotName i) = none := by
  induction n with
  | zero => rfl
  | succ n ih =>
    have hne : slotName i ≠ slotName n := fun hs => absurd (slotName_injective hs) (by omega)
    rw [frame, List.lookup_cons, beq_eq_false_iff_ne.mpr hne]
    exact ih (by omega)

/-- With `n` variables in sight the work gives `a`, and behind it there are `m`. -/
def Naming.Yields {α : Type} (x : Naming α) (n : Nat) (a : α) (m : Nat) : Prop :=
  ∀ outer here, here ++ outer = frame n →
    ∃ here', x outer here = some (a, here') ∧ here' ++ outer = frame m

namespace Naming.Yields

variable {α β : Type} {n m k : Nat}

theorem pure (a : α) (n : Nat) : Yields (Pure.pure a) n a n := by
  intro outer here h
  exact ⟨here, pure_some, h⟩

theorem bind {x : Naming α} {f : α → Naming β} {a : α} {b : β} (hx : Yields x n a m)
    (hf : Yields (f a) m b k) : Yields (x >>= f) n b k := by
  intro outer here h
  obtain ⟨mid, hmid, hm⟩ := hx outer here h
  obtain ⟨here', hhere, hk⟩ := hf outer mid hm
  exact ⟨here', bind_eq_some.mpr ⟨a, mid, hmid, hhere⟩, hk⟩

theorem find {i : Nat} (hi : i < n) : Yields (Naming.find (slotName i)) n i n := by
  intro outer here h
  refine ⟨here, ?_, h⟩
  rw [Naming.find, h, lookup_frame hi]
  rfl

theorem declare (n : Nat) : Yields (Naming.declare (slotName n)) n () (n + 1) := by
  intro outer here h
  have hnone : here.lookup (slotName n) = none := by
    have hframe := lookup_frame_self (Nat.le_refl n)
    rw [← h, List.lookup_append] at hframe
    exact (Option.or_eq_none_iff.mp hframe).1
  have hslot : here.length + outer.length = n := by
    rw [← List.length_append, h, length_frame]
  refine ⟨(slotName n, n) :: here, ?_, ?_⟩
  · simp [Naming.declare, hnone, hslot]
  · rw [List.cons_append, h, frame]

/-- What a scope of its own declares is not in sight behind it. -/
theorem inScope {x : Naming α} {a : α} (hx : Yields x n a m) : Yields (Naming.inScope x) n a n := by
  intro outer here h
  obtain ⟨mid, hmid, -⟩ := hx (here ++ outer) [] h
  exact ⟨here, by rw [Naming.inScope, hmid]; rfl, h⟩

end Naming.Yields

mutual

/-- The names resolve to the slots that they were given to. -/
theorem Expr.resolve_named : ∀ (e : Expr) (n : Nat), e.wellFormed = true → e.inSight n = true →
    Naming.Yields (e.named n).resolve n e (e.behind n)
  | .literal t, n, _, _ => .pure _ n
  | .fetch i, n, _, hs => by
    rw [Expr.inSight, decide_eq_true_iff] at hs
    exact .bind (.find hs) (.pure _ n)
  | .store i e, n, hw, hs => by
    simp only [Expr.inSight, Bool.and_eq_true, decide_eq_true_iff] at hs
    exact .bind (.find hs.1) (.bind (e.resolve_named n hw hs.2) (.pure _ _))
  | .call f es, n, hw, hs => by
    simp only [Expr.wellFormed, Bool.and_eq_true] at hw
    exact .bind (Expr.resolveAll_named es n hw.2 hs) (.pure _ _)
  | .ret e, n, hw, hs => .bind (e.resolve_named n hw hs) (.pure _ _)
  | .ifThen c y, n, hw, hs => by
    simp only [Expr.wellFormed, Expr.inSight, Bool.and_eq_true] at hw hs
    exact .bind (c.resolve_named n hw.1 hs.1)
      (.bind (.inScope (y.resolve_named _ hw.2 hs.2)) (.pure _ _))
  | .ifElse c y o, n, hw, hs => by
    simp only [Expr.wellFormed, Expr.inSight, Bool.and_eq_true] at hw hs
    exact .bind (c.resolve_named n hw.1.1 hs.1.1)
      (.bind (.inScope (y.resolve_named _ hw.1.2 hs.1.2))
        (.bind (.inScope (o.resolve_named _ hw.2 hs.2)) (.pure _ _)))
  | .block b, n, hw, hs => .bind (b.resolve_namedVars n hw hs) (.pure _ _)
  | .loop c b, n, hw, hs => by
    simp only [Expr.wellFormed, Expr.inSight, Bool.and_eq_true] at hw hs
    exact .bind (c.resolve_named n hw.1 hs.1)
      (.bind (.inScope (b.resolve_named _ hw.2 hs.2)) (.pure _ _))
  | .or l r, n, hw, hs => by
    simp only [Expr.wellFormed, Expr.inSight, Bool.and_eq_true] at hw hs
    exact .bind (l.resolve_named n hw.1 hs.1) (.bind (r.resolve_named _ hw.2 hs.2) (.pure _ _))
  | .and l r, n, hw, hs => by
    simp only [Expr.wellFormed, Expr.inSight, Bool.and_eq_true] at hw hs
    exact .bind (l.resolve_named n hw.1 hs.1) (.bind (r.resolve_named _ hw.2 hs.2) (.pure _ _))
  | .not e, n, hw, hs => .bind (e.resolve_named n hw hs) (.pure _ _)
  | .decl e, n, hw, _ => by cases hw

theorem Body.resolve_named : ∀ (b : Body) (n : Nat), b.wellFormed = true → b.inSight n = true →
    Naming.Yields (b.named n).resolve n b (b.behind n)
  | .last e, n, hw, hs => .bind (e.resolve_named n hw hs) (.pure _ _)
  | .cons e rest, n, hw, hs => by
    simp only [Body.wellFormed, Body.inSight, Bool.and_eq_true] at hw hs
    exact .bind (e.resolve_named n hw.1 hs.1) (.bind (rest.resolve_named _ hw.2 hs.2) (.pure _ _))

theorem Body.resolve_namedVars : ∀ (b : Body) (n : Nat), b.declares = true → b.inSight n = true →
    Naming.Yields (b.namedVars n).resolve n b (b.behind n)
  | .last (.decl e), n, hw, hs =>
    .bind (e.resolve_named n hw hs) (.bind (.declare _) (.pure _ _))
  | .cons (.decl e) rest, n, hw, hs => by
    simp only [Body.declares, Body.inSight, Expr.inSight, Bool.and_eq_true] at hw hs
    exact .bind (e.resolve_named n hw.1 hs.1)
      (.bind (.declare _) (.bind (rest.resolve_namedVars _ hw.2 hs.2) (.pure _ _)))

theorem Expr.resolveAll_named : ∀ (es : List Expr) (n : Nat), Expr.allWellFormed es = true →
    Expr.allInSight es n = true →
    Naming.Yields (Outline.resolveAll (Expr.namedAll es n)) n es (Expr.behindAll es n)
  | [], n, _, _ => .pure _ n
  | e :: es, n, hw, hs => by
    simp only [Expr.allWellFormed, Expr.allInSight, Bool.and_eq_true] at hw hs
    exact .bind (e.resolve_named n hw.1 hs.1)
      (.bind (Expr.resolveAll_named es _ hw.2 hs.2) (.pure _ _))

end

theorem Naming.yields_declareAll (n : Nat) : ∀ k : Nat,
    Naming.Yields (Naming.declareAll ((List.range' n k).map slotName)) n () (n + k)
  | 0 => .pure _ n
  | k + 1 => by
    have h := Naming.yields_declareAll (n + 1) k
    rw [Nat.add_right_comm] at h
    exact .bind (.declare n) h

theorem Function.resolve_named {f : Function} (h : f.wellFormed = true) :
    f.named.resolve = some f := by
  simp only [Function.wellFormed, Bool.and_eq_true] at h
  have hparams := Naming.yields_declareAll 0 f.arity
  rw [← List.range_eq_range', Nat.zero_add] at hparams
  have hbody := f.body.resolve_named f.arity h.1.2 h.2
  have hheader : Naming.Yields (Outline.resolveHeader f.named.params f.named.body) 0
      (f.arity, f.body) (f.body.behind f.arity) := by
    refine .bind hparams (.bind hbody ?_)
    have hlength : f.named.params.length = f.arity := by simp [Function.named]
    rw [hlength]
    exact .pure _ _
  obtain ⟨here, hhere, -⟩ := hheader [] [] rfl
  rw [Outline.Proc.resolve, hhere]
  rfl

end Morpho
