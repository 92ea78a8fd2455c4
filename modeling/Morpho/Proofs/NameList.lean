import Morpho.Scopes
import Mathlib.Data.List.Basic

/-! Nested scopes as one list of names. A variable is the place of its name in the list, so a script of
operations gets the same replies from the scopes, where every variable keeps the slot it was given, as
from the list, where slots are never written down. -/
namespace Morpho

/-- The place of the last `x` in a list. -/
def lastIndex? (x : String) : List String → Option Nat
  | [] => none
  | y :: ys =>
    match lastIndex? x ys with
    | some i => some (i + 1)
    | none => if y = x then some 0 else none

theorem lastIndex?_concat (x y : String) (ys : List String) :
    lastIndex? x (ys ++ [y]) = if y = x then some ys.length else lastIndex? x ys := by
  induction ys with
  | nil => simp [lastIndex?]
  | cons z zs ih =>
    rw [List.cons_append, lastIndex?, ih]
    by_cases h : y = x
    · simp [h]
    · simp [h, lastIndex?]

/-- The declared names in order, the oldest first, and where in the list the open scopes start, the
innermost first. -/
structure NameList where
  names : List String
  starts : List Nat
  deriving DecidableEq

namespace NameList

open Morpho.Scopes (Op Reply)

def empty : NameList := ⟨[], []⟩

/-- Runs one operation. One that fails changes nothing. -/
def step (l : NameList) : Op → Except (Failure Cause) Reply × NameList
  | .push => (.ok .done, { l with starts := l.names.length :: l.starts })
  | .pop =>
    match l.starts with
    | [] => (.error (.fault .closeWithoutScope), l)
    | start :: rest => (.ok .done, ⟨l.names.take start, rest⟩)
  | .bind x =>
    match l.starts with
    | [] => (.error (.fault .bindWithoutScope), l)
    | start :: _ =>
      if x ∈ l.names.drop start then (.error (.found (.alreadyDeclared x)), l)
      else (.ok (.slot l.names.length), { l with names := l.names ++ [x] })
  | .find x =>
    match lastIndex? x l.names with
    | some i => (.ok (.slot i), l)
    | none => (.error (.found (.undeclared x)), l)

/-- Runs a script; every reply comes with the number of names after it. -/
def run (l : NameList) : List Op → List (Except (Failure Cause) Reply × Nat)
  | [] => []
  | op :: ops => let r := l.step op; (r.1, r.2.names.length) :: r.2.run ops

end NameList

/-- Every binding, the newest first, has the number of those before it as its slot. -/
def Scope.Numbered : Scope → Prop
  | [] => True
  | p :: rest => p.2 = rest.length ∧ Scope.Numbered rest

namespace Scope

/-- The names of bindings, the oldest first. -/
def names (x : Scope) : List String := (x.map Prod.fst).reverse

@[simp] theorem names_cons (p : String × Nat) (x : Scope) : names (p :: x) = names x ++ [p.1] := by
  simp [names]
@[simp] theorem names_append (x y : Scope) : names (x ++ y) = names y ++ names x := by
  simp [names]
@[simp] theorem length_names (x : Scope) : (names x).length = x.length := by
  simp [names]

theorem Numbered.of_append {x rest : Scope} (h : Numbered (x ++ rest)) : Numbered rest := by
  induction x with
  | nil => exact h
  | cons p x ih => exact ih h.2

theorem Numbered.lt {x : Scope} (h : Numbered x) {p : String × Nat} (hp : p ∈ x) :
    p.2 < x.length := by
  induction x with
  | nil => simp at hp
  | cons q x ih =>
    rw [List.length_cons]
    rcases List.mem_cons.mp hp with rfl | hp
    · have := h.1
      omega
    · have := ih h.2 hp
      omega

theorem Numbered.pairwise {x : Scope} (h : Numbered x) : x.Pairwise fun a b => b.2 < a.2 := by
  induction x with
  | nil => exact .nil
  | cons p x ih =>
    refine .cons ?_ (ih h.2)
    intro q hq
    rw [h.1]
    exact h.2.lt hq

theorem Numbered.slots_reverse {x : Scope} (h : Numbered x) :
    x.reverse.map Prod.snd = List.range x.length := by
  induction x with
  | nil => rfl
  | cons p x ih => simp [List.range_succ, ← ih h.2, h.1]

/-- A look-up finds the place of the name in the list of names. -/
theorem Numbered.lookup {x : Scope} (h : Numbered x) (name : String) :
    x.lookup name = lastIndex? name (names x) := by
  induction x with
  | nil => rfl
  | cons p x ih =>
    obtain ⟨y, slot⟩ := p
    obtain rfl : slot = x.length := h.1
    rw [names_cons, lastIndex?_concat, ← ih h.2, List.lookup_cons]
    by_cases hy : y = name
    · simp [hy]
    · have hne : (name == y) = false := by simpa using Ne.symm hy
      simp [hy, hne]

theorem isSome_lookup_iff (x : Scope) (name : String) :
    (x.lookup name).isSome = true ↔ name ∈ names x := by
  rw [List.lookup_isSome_iff, names, List.mem_reverse, List.mem_map]
  constructor
  · rintro ⟨p, hp, hname⟩
    exact ⟨p, hp, (eq_of_beq hname).symm⟩
  · rintro ⟨p, hp, rfl⟩
    exact ⟨p, hp, beq_self_eq_true _⟩

end Scope

namespace Scopes

/-- How many bindings stand outside of each open scope. -/
def starts : List Scope → List Nat
  | [] => []
  | _ :: rest => rest.flatten.length :: starts rest

/-- The names of all bindings in sight, cut into scopes. -/
def flat (s : Scopes) : NameList := ⟨Scope.names s.stack.flatten, starts s.stack⟩

/-- The slots of all open scopes fill one frame. -/
def Dense (s : Scopes) : Prop := Scope.Numbered s.stack.flatten

/-- The scopes after a script. -/
def after (s : Scopes) (ops : List Op) : Scopes := ops.foldl (fun t op => (t.step op).2) s

theorem length_names_flat (s : Scopes) : s.flat.names.length = s.count :=
  Scope.length_names _

/-- The operation gives the same reply on the names alone, and leaves the names that the scopes then
hold, with their slots in order. -/
structure Agrees (s : Scopes) (op : Op) : Prop where
  reply : (s.step op).1 = (s.flat.step op).1
  state : (s.step op).2.flat = (s.flat.step op).2
  dense : (s.step op).2.Dense

variable {s : Scopes}

theorem Agrees.of_eq {op : Op} {r : Except (Failure Cause) Reply} {t : Scopes}
    (h : s.step op = (r, t)) (h' : s.flat.step op = (r, t.flat)) (ht : t.Dense) : Agrees s op := by
  constructor
  · rw [h, h']
  · rw [h, h']
  · rw [h]
    exact ht

theorem agrees_push (hs : s.Dense) : Agrees s .push := by
  refine .of_eq (r := .ok .done) (t := s.push) rfl ?_ hs
  rw [NameList.step, length_names_flat]
  rfl

theorem agrees_pop (hs : s.Dense) : Agrees s .pop := by
  obtain ⟨stack⟩ := s
  cases stack with
  | nil => exact ⟨rfl, rfl, hs⟩
  | cons x rest =>
    have htake : (Scope.names (x ++ rest.flatten)).take rest.flatten.length =
        Scope.names rest.flatten := by
      rw [Scope.names_append]
      exact List.take_left' (Scope.length_names _)
    refine .of_eq (r := .ok .done) (t := ⟨rest⟩) rfl ?_ (Scope.Numbered.of_append (x := x) hs)
    simp only [NameList.step, flat, starts, List.flatten_cons, htake]

theorem agrees_bind (hs : s.Dense) (name : String) : Agrees s (.bind name) := by
  obtain ⟨stack⟩ := s
  cases stack with
  | nil => exact ⟨rfl, rfl, hs⟩
  | cons x rest =>
    have hdrop : (Scope.names (x ++ rest.flatten)).drop rest.flatten.length = Scope.names x := by
      rw [Scope.names_append]
      exact List.drop_left' (Scope.length_names _)
    by_cases h : (x.lookup name).isSome = true
    · have hmem : name ∈ Scope.names x := (Scope.isSome_lookup_iff x name).mp h
      refine .of_eq (r := .error (.found (.alreadyDeclared name))) (t := ⟨x :: rest⟩) ?_ ?_ hs
      · simp only [step, bind, if_pos h]
      · simp only [NameList.step, flat, starts, List.flatten_cons, hdrop, if_pos hmem]
    · have hmem : name ∉ Scope.names x := mt (Scope.isSome_lookup_iff x name).mpr h
      let n := (x ++ rest.flatten).length
      refine .of_eq (r := .ok (.slot n)) (t := ⟨((name, n) :: x) :: rest⟩) ?_ ?_ ⟨rfl, hs⟩
      · simp only [step, bind, if_neg h]
        rfl
      · simp only [NameList.step, flat, starts, List.flatten_cons, hdrop, if_neg hmem,
          Scope.length_names]
        rw [List.cons_append, Scope.names_cons]

theorem agrees_find (hs : s.Dense) (name : String) : Agrees s (.find name) := by
  have hslot : s.slot? name = lastIndex? name s.flat.names := by
    rw [slot?_eq_lookup]
    exact hs.lookup name
  cases h : lastIndex? name s.flat.names with
  | none =>
    refine .of_eq (r := .error (.found (.undeclared name))) (t := s) ?_ ?_ hs
    · simp only [step, find, hslot, h]
      rfl
    · simp only [NameList.step, h]
  | some i =>
    refine .of_eq (r := .ok (.slot i)) (t := s) ?_ ?_ hs
    · simp only [step, find, hslot, h]
      rfl
    · simp only [NameList.step, h]

theorem agrees (hs : s.Dense) (op : Op) : Agrees s op := by
  cases op with
  | push => exact agrees_push hs
  | pop => exact agrees_pop hs
  | bind name => exact agrees_bind hs name
  | find name => exact agrees_find hs name

theorem run_flat (hs : s.Dense) (ops : List Op) : s.run ops = s.flat.run ops := by
  induction ops generalizing s with
  | nil => rfl
  | cons op ops ih =>
    have h := agrees hs op
    simp only [run, NameList.run]
    rw [ih h.dense, h.reply, ← h.state, length_names_flat]

theorem dense_after (hs : s.Dense) (ops : List Op) : (s.after ops).Dense := by
  induction ops generalizing s with
  | nil => exact hs
  | cons op ops ih => exact ih (agrees hs op).dense

/-- Scopes that start empty answer every script as one list of names does. After it the slots of all
bindings in sight, from the outermost scope inwards, are the numbers below their count in order. -/
theorem run_eq_nameList_run (ops : List Op) :
    empty.run ops = NameList.empty.run ops ∧
      (empty.after ops).stack.flatten.reverse.map Prod.snd = List.range (empty.after ops).count ∧
      (empty.after ops).stack.Pairwise fun inner outer => ∀ a ∈ inner, ∀ b ∈ outer, b.2 < a.2 := by
  have hstart : empty.Dense := trivial
  have hend : (empty.after ops).Dense := dense_after hstart ops
  exact ⟨run_flat hstart ops, hend.slots_reverse, (List.pairwise_flatten.mp hend.pairwise).2⟩

end Scopes
end Morpho
