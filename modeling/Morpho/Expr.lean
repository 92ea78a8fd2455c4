/-! Programs whose variables are already frame slots. -/
namespace Morpho

mutual

inductive Expr
  | literal (text : String)
  | fetch (slot : Nat)
  | store (slot : Nat) (value : Expr)
  | call (name : String) (args : List Expr)
  | ret (value : Expr)
  | ifThen (cond : Expr) (yes : Body)
  | ifElse (cond : Expr) (yes no : Body)
  | block (body : Body)
  | loop (cond : Expr) (body : Body)
  | or (left right : Expr)
  | and (left right : Expr)
  | not (value : Expr)
  | decl (value : Expr)

/-- One expression or more, evaluated in order. -/
inductive Body
  | last (e : Expr)
  | cons (e : Expr) (rest : Body)

end

namespace Expr

def null : Expr := literal "null"

/-- Expressions whose value one returning instruction hands over. -/
def isLeaf : Expr → Bool
  | literal _ | fetch _ | call _ _ => true
  | _ => false

end Expr

namespace Body

def toList : Body → List Expr
  | last e => [e]
  | cons e rest => e :: rest.toList

def ofList? : List Expr → Option Body
  | [] => none
  | [e] => some (last e)
  | e :: es => (ofList? es).map (cons e)

def length : Body → Nat
  | last _ => 1
  | cons _ rest => rest.length + 1

/-- All expressions but the last. -/
def init : Body → List Expr
  | last _ => []
  | cons e rest => e :: rest.init

def final : Body → Expr
  | last e => e
  | cons _ rest => rest.final

theorem length_toList (b : Body) : b.toList.length = b.length := by
  induction b using Body.toList.induct <;> simp_all [toList, length]

theorem init_append_final (b : Body) : b.init ++ [b.final] = b.toList := by
  induction b using Body.toList.induct <;> simp_all [toList, init, final]

theorem ofList?_toList (b : Body) : ofList? b.toList = some b := by
  induction b using Body.toList.induct with
  | case1 e => rfl
  | case2 e rest ih => cases rest <;> simp_all [toList, ofList?]

end Body

mutual

def Expr.same : Expr → Expr → Bool
  | .literal s, .literal t => s == t
  | .fetch m, .fetch n => m == n
  | .store m a, .store n b => m == n && a.same b
  | .call s as, .call t bs => s == t && Expr.sameAll as bs
  | .ret a, .ret b => a.same b
  | .ifThen a x, .ifThen b y => a.same b && x.same y
  | .ifElse a x x', .ifElse b y y' => a.same b && x.same y && x'.same y'
  | .block x, .block y => x.same y
  | .loop a x, .loop b y => a.same b && x.same y
  | .or a a', .or b b' => a.same b && a'.same b'
  | .and a a', .and b b' => a.same b && a'.same b'
  | .not a, .not b => a.same b
  | .decl a, .decl b => a.same b
  | _, _ => false

def Body.same : Body → Body → Bool
  | .last a, .last b => a.same b
  | .cons a x, .cons b y => a.same b && x.same y
  | _, _ => false

def Expr.sameAll : List Expr → List Expr → Bool
  | [], [] => true
  | a :: as, b :: bs => a.same b && Expr.sameAll as bs
  | _, _ => false

end

mutual

theorem Expr.same_iff : ∀ a b : Expr, a.same b = true ↔ a = b
  | .literal s, b => by cases b <;> simp [Expr.same]
  | .fetch m, b => by cases b <;> simp [Expr.same]
  | .store m a, b => by cases b <;> simp [Expr.same, Expr.same_iff a]
  | .call s as, b => by cases b <;> simp [Expr.same, Expr.sameAll_iff as]
  | .ret a, b => by cases b <;> simp [Expr.same, Expr.same_iff a]
  | .ifThen a x, b => by cases b <;> simp [Expr.same, Expr.same_iff a, Body.same_iff x]
  | .ifElse a x y, b => by
    cases b <;> simp [Expr.same, Expr.same_iff a, Body.same_iff x, Body.same_iff y, and_assoc]
  | .block x, b => by cases b <;> simp [Expr.same, Body.same_iff x]
  | .loop a x, b => by cases b <;> simp [Expr.same, Expr.same_iff a, Body.same_iff x]
  | .or a a', b => by cases b <;> simp [Expr.same, Expr.same_iff a, Expr.same_iff a']
  | .and a a', b => by cases b <;> simp [Expr.same, Expr.same_iff a, Expr.same_iff a']
  | .not a, b => by cases b <;> simp [Expr.same, Expr.same_iff a]
  | .decl a, b => by cases b <;> simp [Expr.same, Expr.same_iff a]

theorem Body.same_iff : ∀ x y : Body, x.same y = true ↔ x = y
  | .last a, y => by cases y <;> simp [Body.same, Expr.same_iff a]
  | .cons a x, y => by cases y <;> simp [Body.same, Expr.same_iff a, Body.same_iff x]

theorem Expr.sameAll_iff : ∀ as bs : List Expr, Expr.sameAll as bs = true ↔ as = bs
  | [], bs => by cases bs <;> simp [Expr.sameAll]
  | a :: as, bs => by cases bs <;> simp [Expr.sameAll, Expr.same_iff a, Expr.sameAll_iff as]

end

instance : DecidableEq Expr := fun a b => decidable_of_iff _ (Expr.same_iff a b)
instance : DecidableEq Body := fun x y => decidable_of_iff _ (Body.same_iff x y)

structure Function where
  name : String
  arity : Nat
  body : Body
  deriving DecidableEq

structure Program where
  functions : List Function
  deriving DecidableEq

end Morpho
