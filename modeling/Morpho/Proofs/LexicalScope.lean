import Morpho.Proofs.Outline

/-! Lexical scoping as a pass of its own over programs that still have their names. A function is one
scope with its parameters, and every body in braces of a branch or a loop is another. A name is bound
once in a scope, behind its initial value, and its slot is the number of bindings in sight then; a use
takes the innermost binding. -/
namespace Morpho

/-- Work on names: it sees the bindings of the scopes around, and extends those of its own. -/
abbrev Naming := ReaderT Scope (StateT Scope Option)

namespace Naming

variable {α β : Type}

def declare (name : String) : Naming Unit := fun outer here =>
  if (here.lookup name).isSome then none
  else some ((), (name, here.length + outer.length) :: here)

def find (name : String) : Naming Nat := fun outer here =>
  ((here ++ outer).lookup name).map fun slot => (slot, here)

/-- Work in a scope of its own. -/
def inScope (m : Naming α) : Naming α := fun outer here =>
  (m (here ++ outer) []).map fun r => (r.1, here)

def declareAll : List String → Naming Unit
  | [] => return ()
  | name :: names => do
    declare name
    declareAll names

theorem bind_eq_some {m : Naming α} {f : α → Naming β} {outer here here' : Scope} {b : β} :
    (m >>= f) outer here = some (b, here') ↔
      ∃ a mid, m outer here = some (a, mid) ∧ f a outer mid = some (b, here') := by
  change (m outer here).bind (fun r => f r.1 outer r.2) = some (b, here') ↔ _
  rw [Option.bind_eq_some_iff]
  constructor
  · intro h
    obtain ⟨⟨a, mid⟩, hm, hf⟩ := h
    exact ⟨a, mid, hm, hf⟩
  · intro h
    obtain ⟨a, mid, hm, hf⟩ := h
    exact ⟨(a, mid), hm, hf⟩

theorem pure_eq_some {a b : α} {outer here here' : Scope} :
    (pure a : Naming α) outer here = some (b, here') ↔ a = b ∧ here = here' := by
  change some (a, here) = some (b, here') ↔ _
  simp

theorem pure_some {a : α} {outer here : Scope} :
    (pure a : Naming α) outer here = some (a, here) := rfl

/-- One piece of work and then another, with both results. -/
theorem pair_eq_some {m : Naming α} {q : Naming β} {outer here here' : Scope} {a : α} {b : β} :
    (m >>= fun a => q >>= fun b => pure (a, b)) outer here = some ((a, b), here') ↔
      ∃ mid, m outer here = some (a, mid) ∧ q outer mid = some (b, here') := by
  simp only [bind_eq_some, pure_eq_some, Prod.mk.injEq]
  constructor
  · intro h
    obtain ⟨_, mid, hm, _, _, hq, ⟨rfl, rfl⟩, rfl⟩ := h
    exact ⟨mid, hm, hq⟩
  · intro h
    obtain ⟨mid, hm, hq⟩ := h
    exact ⟨a, mid, hm, b, here', hq, ⟨rfl, rfl⟩, rfl⟩

end Naming

mutual

def Outline.resolve : Outline → Naming Expr
  | .literal t => return .literal t
  | .fetch x => return .fetch (← Naming.find x)
  | .store x e => do
    let slot ← Naming.find x
    return .store slot (← e.resolve)
  | .call f args => return .call f (← Outline.resolveAll args)
  | .ret e => return .ret (← e.resolve)
  | .ifThen c y => do
    let c ← c.resolve
    return .ifThen c (← y.resolve true)
  | .ifElse c y o => do
    let c ← c.resolve
    let y ← y.resolve true
    return .ifElse c y (← o.resolve true)
  | .decls ds => return .block (← ds.resolve)
  | .loop c b => do
    let c ← c.resolve
    return .loop c (← b.resolve true)
  | .or l r => do
    let l ← l.resolve
    return .or l (← r.resolve)
  | .and l r => do
    let l ← l.resolve
    return .and l (← r.resolve)
  | .not e => return .not (← e.resolve)

/-- The braces of a body are a scope if `opens` says so. -/
def Outline.Arm.resolve : Outline.Arm → (opens : Bool) → Naming Body
  | .bare e, _ => return .last (← e.resolve)
  | .braces list, opens => if opens then Naming.inScope list.resolve else list.resolve

def Outline.Block.resolve : Outline.Block → Naming Body
  | .last e => return .last (← e.resolve)
  | .cons e rest => do
    let e ← e.resolve
    return .cons e (← rest.resolve)

def Outline.Vars.resolve : Outline.Vars → Naming Body
  | .last x e => do
    let e ← e.resolve
    Naming.declare x
    return .last (.decl e)
  | .cons x e rest => do
    let e ← e.resolve
    Naming.declare x
    return .cons (.decl e) (← rest.resolve)

def Outline.resolveAll : List Outline → Naming (List Expr)
  | [] => return []
  | e :: es => do
    let e ← e.resolve
    return e :: (← Outline.resolveAll es)

end

namespace Outline

/-- The number of the parameters and the body, both in one scope. -/
def resolveHeader (params : List String) (body : Arm) : Naming (Nat × Body) := do
  Naming.declareAll params
  return (params.length, ← body.resolve false)

def Proc.resolve (f : Proc) : Option Function :=
  (resolveHeader f.params f.body [] []).map fun r => ⟨f.name, r.1.1, r.1.2⟩

/-- The functions with slots in place of names, if all names are bound and none twice. -/
def Proc.resolveProgram (fs : List Proc) : Option Program := (fs.mapM Proc.resolve).map Program.mk

end Outline
end Morpho
