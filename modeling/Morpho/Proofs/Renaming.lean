import Morpho.Phrase
import Mathlib.Logic.Function.Basic

/-! Renaming: a function on strings replaces the names and the operators of a token list, of a tree, of
the open scopes or of a finding. As long as it keeps different names apart, scopes answer for the new
names as they do for the old ones. -/
namespace Morpho

/-- Kinds of tokens that a renaming replaces: names and operators. -/
def Token.Kind.isNaming : Token.Kind → Bool
  | name | op _ => true
  | _ => false

namespace Token

/-- The same token under the name that `r` gives it. -/
def rename (r : String → String) (t : Token) : Token :=
  if t.kind.isNaming then { t with lexeme := r t.lexeme } else t

variable {r : String → String} {t : Token}

@[simp] theorem rename_kind (r : String → String) (t : Token) : (t.rename r).kind = t.kind := by
  rw [rename]
  split <;> rfl

@[simp] theorem rename_pos (r : String → String) (t : Token) : (t.rename r).pos = t.pos := by
  rw [rename]
  split <;> rfl

theorem rename_lexeme (h : t.kind.isNaming = true) : (t.rename r).lexeme = r t.lexeme := by
  rw [rename, if_pos h]

theorem rename_of_not (h : t.kind.isNaming = false) : t.rename r = t := by
  rw [rename, h]
  rfl

@[simp] theorem rename_id : rename id = id := by
  funext t
  rw [rename]
  split <;> rfl

end Token

namespace Diagnostic

/-- The same finding under the new names, where `next` is the token that it found in place of what was
expected. -/
def rename (r : String → String) (next : Token) (d : Diagnostic) : Diagnostic :=
  match d.cause with
  | .expected wanted found =>
    ⟨.expected wanted (if next.kind.isNaming then r found else found), d.pos⟩
  | .alreadyDeclared name => ⟨.alreadyDeclared (r name), d.pos⟩
  | .undeclared name => ⟨.undeclared (r name), d.pos⟩

theorem rename_id (next : Token) (d : Diagnostic) : d.rename id next = d := by
  obtain ⟨cause, pos⟩ := d
  cases cause <;> simp [rename]

/-- Only the kind of the next token matters. -/
theorem rename_congr {r : String → String} {t t' : Token} (h : t.kind = t'.kind) (d : Diagnostic) :
    d.rename r t = d.rename r t' := by
  simp only [rename, h]

/-- To fail at a renamed token is to fail at the token, under the new names. -/
theorem rename_diagnostic (r : String → String) (t : Token) (wanted : String) :
    (t.diagnostic wanted).rename r t = (t.rename r).diagnostic wanted := by
  cases h : t.kind.isNaming with
  | true =>
    have hkind : t.kind ≠ .eof := by
      rintro hend
      rw [hend] at h
      cases h
    simp [rename, Token.diagnostic, Token.description, Token.rename_lexeme h, h, hkind]
  | false => simp [rename, Token.diagnostic, Token.rename_of_not h, h]

end Diagnostic

namespace Scope

/-- The same variables under their new names. -/
def rename (r : String → String) (x : Scope) : Scope := x.map (Prod.map r id)

theorem lookup_rename {r : String → String} (hr : Function.Injective r) (x : Scope) (name : String) :
    (rename r x).lookup (r name) = x.lookup name := by
  rw [rename]
  induction x with
  | nil => rfl
  | cons p x ih =>
    rw [List.map_cons, List.lookup_cons, List.lookup_cons, ih]
    have hsame : (r name == r p.1) = (name == p.1) := by
      rw [Bool.eq_iff_iff, beq_iff_eq, beq_iff_eq, hr.eq_iff]
    rw [Prod.map_fst, hsame]
    rfl

end Scope

namespace Scopes

/-- The same scopes with the new names of their variables. -/
def rename (r : String → String) (s : Scopes) : Scopes := ⟨s.stack.map (Scope.rename r)⟩

@[simp] theorem rename_id : rename id = id := by
  funext s
  have hscope : Scope.rename id = id := by
    funext x
    simp [Scope.rename]
  rw [rename, hscope, List.map_id]
  rfl

@[simp] theorem rename_push (r : String → String) (s : Scopes) : s.push.rename r = (s.rename r).push :=
  rfl

@[simp] theorem count_rename (r : String → String) (s : Scopes) : (s.rename r).count = s.count := by
  have hlength : List.length ∘ Scope.rename r = List.length := by
    funext x
    exact List.length_map _
  rw [count, count, rename, List.length_flatten, List.length_flatten, List.map_map, hlength]

theorem pop_rename (r : String → String) (s : Scopes) :
    (s.rename r).pop = s.pop.map (Prod.map (Scope.rename r) (rename r)) := by
  obtain ⟨stack⟩ := s
  cases stack <;> rfl

variable {r : String → String} (hr : Function.Injective r)

include hr

theorem slot?_rename (s : Scopes) (name : String) : (s.rename r).slot? (r name) = s.slot? name := by
  rw [slot?, slot?, rename, List.findSome?_map]
  congr 1
  funext x
  exact Scope.lookup_rename hr x name

theorem bind_rename (s : Scopes) (name : String) :
    (s.rename r).bind (r name) = ((s.bind name).map (Prod.map id (rename r))).mapError
      (Failure.map fun _ => .alreadyDeclared (r name)) := by
  have hcount := count_rename r s
  obtain ⟨stack⟩ := s
  cases stack with
  | nil => rfl
  | cons x rest =>
    rw [rename, List.map_cons] at hcount
    simp only [bind, rename, List.map_cons, Scope.lookup_rename hr, hcount]
    cases (x.lookup name).isSome <;> rfl

end Scopes

mutual

/-- The same expression, whose calls go by the new names. -/
def Expr.rename (r : String → String) : Expr → Expr
  | .literal text => .literal text
  | .fetch slot => .fetch slot
  | .store slot value => .store slot (value.rename r)
  | .call name args => .call (r name) (Expr.renameAll r args)
  | .ret value => .ret (value.rename r)
  | .ifThen cond yes => .ifThen (cond.rename r) (yes.rename r)
  | .ifElse cond yes no => .ifElse (cond.rename r) (yes.rename r) (no.rename r)
  | .block body => .block (body.rename r)
  | .loop cond body => .loop (cond.rename r) (body.rename r)
  | .or left right => .or (left.rename r) (right.rename r)
  | .and left right => .and (left.rename r) (right.rename r)
  | .not value => .not (value.rename r)
  | .decl value => .decl (value.rename r)

def Body.rename (r : String → String) : Body → Body
  | .last e => .last (e.rename r)
  | .cons e rest => .cons (e.rename r) (rest.rename r)

def Expr.renameAll (r : String → String) : List Expr → List Expr
  | [] => []
  | e :: es => e.rename r :: Expr.renameAll r es

end

/-- The same function and the same calls under their new names. -/
def Function.rename (r : String → String) (f : Function) : Function :=
  ⟨r f.name, f.arity, f.body.rename r⟩

def Program.rename (r : String → String) (p : Program) : Program :=
  ⟨p.functions.map (Function.rename r)⟩

namespace Phrase

/-- The same tree of a phrase under the new names. -/
def rename (r : String → String) : (p : Phrase) → p.Tree → p.Tree
  | program => List.map (Function.rename r)
  | function => Function.rename r
  | params | paramList => id
  | body _ | statements | declarations => Body.rename r
  | chain _ => List.map (Prod.map r (Expr.rename r))
  | arguments | argumentList => Expr.renameAll r
  | expr | disjunction | conjunction | negation | binary _ | small => Expr.rename r

theorem rename_fromLeft (r : String → String) (left : Expr) (ops : List (String × Expr)) :
    (fromLeft left ops).rename r =
      fromLeft (left.rename r) (ops.map (Prod.map r (Expr.rename r))) := by
  rw [fromLeft, fromLeft]
  induction ops generalizing left with
  | nil => rfl
  | cons op ops ih =>
    rw [List.foldl_cons, List.map_cons, List.foldl_cons, ih]
    rfl

end Phrase
end Morpho
