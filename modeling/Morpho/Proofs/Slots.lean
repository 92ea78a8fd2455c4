import Morpho.Proofs.Bindings
import Morpho.Proofs.Frame

/-! Slots against the frame. Reading a declaration gives its variable a slot by the variables in
sight; running it pushes onto the frame whatever its depth is. The two agree on every way through the
code of a function exactly if they agree by the structure of its body, and they need not: closing a
block frees the slots of its variables and pops nothing. -/
namespace Morpho

open Morpho.Flow

namespace Flow.Fragment

variable {D : Type} (A : Domain D) (f g : Fragment D)

@[simp] theorem count_instr (m : Mark) (r : Bool) (k : Int) :
    (Fragment.instr A m r k).marks.count .declare = if m = .declare then 1 else 0 := by
  cases m <;> rfl

@[simp] theorem count_closing (tail : Bool) :
    (Fragment.closing A tail).marks.count .declare = 0 := by
  cases tail <;> rfl

@[simp] theorem count_seq : (Fragment.seq A f g).marks.count .declare =
    f.marks.count .declare + g.marks.count .declare := by
  simp [Fragment.seq]

@[simp] theorem count_skip :
    (Fragment.skip A f).marks.count .declare = f.marks.count .declare := by
  simp [Fragment.skip]

@[simp] theorem count_either : (Fragment.either A f g).marks.count .declare =
    f.marks.count .declare + g.marks.count .declare := by
  simp [Fragment.either]

@[simp] theorem count_loop : (Fragment.loop A f g).marks.count .declare =
    f.marks.count .declare + g.marks.count .declare := by
  simp [Fragment.loop]

end Flow.Fragment

mutual

theorem Expr.count_marks {D : Type} (A : Domain D) : ∀ (e : Expr) (tail : Bool),
    (e.fragment A tail).marks.count .declare = e.decls
  | .literal t, tail => by simp [Expr.fragment, Expr.decls]
  | .fetch s, tail => by simp [Expr.fragment, Expr.decls]
  | .store s e, tail => by simp [Expr.fragment, Expr.decls, e.count_marks A]
  | .call f args, tail => by simp [Expr.fragment, Expr.decls, Expr.count_marksArgs A args]
  | .ret e, tail => by simp [Expr.fragment, Expr.decls, e.count_marks A]
  | .ifThen c y, tail => by
    simp [Expr.fragment, Expr.decls, c.count_marks A, y.count_marks A]
  | .ifElse c y o, tail => by
    simp [Expr.fragment, Expr.decls, c.count_marks A, y.count_marks A, o.count_marks A,
      Nat.add_assoc]
  | .block b, tail => by simp [Expr.fragment, Expr.decls, b.count_marks A]
  | .loop c b, tail => by
    simp [Expr.fragment, Expr.decls, c.count_marks A, b.count_marks A]
  | .or l r, tail => by
    simp [Expr.fragment, Expr.decls, l.count_marks A, r.count_marks A]
  | .and l r, tail => by
    simp [Expr.fragment, Expr.decls, l.count_marks A, r.count_marks A]
  | .not e, tail => by simp [Expr.fragment, Expr.decls, e.count_marks A]
  | .decl e, tail => by simp [Expr.fragment, Expr.decls, e.count_marks A]

theorem Body.count_marks {D : Type} (A : Domain D) : ∀ (b : Body) (tail : Bool),
    (b.fragment A tail).marks.count .declare = b.decls
  | .last e, tail => by simp [Body.fragment, Body.decls, e.count_marks A]
  | .cons e rest, tail => by
    simp [Body.fragment, Body.decls, e.count_marks A, rest.count_marks A]

theorem Expr.count_marksArgs {D : Type} (A : Domain D) : ∀ es : List Expr,
    (Expr.fragmentArgs A es).marks.count .declare = Expr.declsAll es
  | [] => rfl
  | e :: es => by
    simp [Expr.fragmentArgs, Expr.declsAll, e.count_marks A, Expr.count_marksOperands A es]

theorem Expr.count_marksOperands {D : Type} (A : Domain D) : ∀ es : List Expr,
    (Expr.fragmentOperands A es).marks.count .declare = Expr.declsAll es
  | [] => rfl
  | e :: es => by
    have he : (e.operandFragment A (e.fragment A false)).marks.count .declare = e.decls := by
      have h := e.count_marks A false
      cases e with
      | literal t => rfl
      | _ => simpa [Expr.operandFragment] using h
    simp [Expr.fragmentOperands, Expr.declsAll, he, Expr.count_marksOperands A es]

end

/-- Whatever way control takes, it comes to these places at the depths `slots`. -/
def Routine.PushesAt (r : Routine) (places slots : List Nat) : Prop :=
  ∀ q ∈ places.zip slots, ∀ d, r.Reaches ⟨q.1, d⟩ → d = q.2

namespace Function

/-- The places of the pushes that declare variables, in order. -/
def pushes (f : Function) : List Nat := f.spans.marks.findIdxs (· == .declare)

/-- Control comes to the place at the depth `slot` only. -/
def holdsDepth (f : Function) (place slot : Nat) : Bool :=
  match f.spans.depths[place]? with
  | some (some x) => x.single && f.arity + x.least == slot
  | _ => true

/-- All declarations push at the depths `slots`. -/
def aligned (f : Function) (slots : List Nat) : Bool :=
  (f.pushes.zip slots).all fun q => f.holdsDepth q.1 q.2

variable (f : Function) (n : Label)

theorem length_pushes : f.pushes.length = f.body.decls := by
  rw [pushes, List.length_findIdxs]
  exact f.body.count_marks Flow.spans true

theorem push_of_mem_pushes {pc : Nat} (h : pc ∈ f.pushes) :
    (f.routine n).1.code[pc]? = some .push := by
  obtain ⟨hpc, hm⟩ := List.mem_findIdxs_iff_exists_getElem_pos.mp h
  obtain ⟨i, hi, hfit⟩ := f.instr_of_mark n (List.getElem?_eq_getElem hpc)
  rw [hi, hfit.declare (by simpa using hm)]

theorem holdsDepth_iff {pc : Nat} (h : pc ∈ f.pushes) (slot : Nat) :
    f.holdsDepth pc slot = true ↔ ∀ d, (f.routine n).1.Reaches ⟨pc, d⟩ → d = slot := by
  obtain ⟨m, x, -, hp⟩ := f.place_of_instr n (f.push_of_mem_pushes n h)
  obtain ⟨-, hx⟩ := List.getElem?_zip_eq_some.mp hp
  rw [holdsDepth, hx]
  cases x with
  | none =>
    have hno := f.not_reaches_of_none n hx
    exact ⟨fun _ d hd => absurd hd (hno d), fun _ => rfl⟩
  | some x =>
    obtain ⟨hleast, -, hs⟩ := f.reaches_of_span n hx
    simp only [Bool.and_eq_true, beq_iff_eq, hs]
    constructor
    · rintro ⟨hd, hslot⟩ d hr
      rw [hd d hr, hslot]
    · intro hd
      have hslot := hd _ hleast
      exact ⟨fun d hr => by rw [hd d hr, hslot], hslot⟩

theorem pushesAt_iff_aligned (slots : List Nat) :
    (f.routine n).1.PushesAt f.pushes slots ↔ f.aligned slots = true := by
  rw [aligned, List.all_eq_true]
  constructor
  · intro h q hq
    exact (f.holdsDepth_iff n (List.of_mem_zip hq).1 q.2).mpr (h q hq)
  · intro h q hq
    exact (f.holdsDepth_iff n (List.of_mem_zip hq).1 q.2).mp (h q hq)

end Function

namespace Program

/-- The slots given to the declarations of each function while a source is read. -/
def declaredSlots (source : String) : List (List Nat) :=
  Log.declared [] (Program.loggedOfSource source).log

/-- Every declaration of a program that was read got a slot. -/
theorem length_declaredSlots {source : String} {p : Program} (h : Program.ofSource source = .ok p) :
    List.Forall₂ (fun f slots => slots.length = f.body.decls) p.functions (declaredSlots source) := by
  simp only [ofSource, declaredSlots, loggedOfSource, loggedOfTokens, Phrase.run] at h ⊢
  split at h
  · next ts hts =>
    cases hp : Phrase.parse (Phrase.fuel ts) .program (.ofTokens ts) with
    | ok fs s =>
      rw [hp] at h
      obtain rfl : Program.mk fs = p := by simpa [Except.map] using h
      obtain ⟨es, hes, hall⟩ := Phrase.parse_program_log hp
      simp only [hes]
      simpa [Parser.State.ofTokens] using hall
    | error e s =>
      rw [hp] at h
      simp [Except.map] at h
  · simp at h

/-- For every source that is read and every function of it: each declaration got a slot while it was
read and has a push in the code, in the same order, and the pushes happen at the depths that are the
slots, on every way through the code, exactly if the structure of the body says so. -/
theorem pushes_at_declaredSlots_iff {source : String} {p : Program}
    (h : Program.ofSource source = .ok p) {k : Nat} {f : Function}
    (hf : p.functions[k]? = some f) :
    ∃ r slots, p.routines[k]? = some r ∧ (declaredSlots source)[k]? = some slots ∧
      slots.length = f.pushes.length ∧ (∀ pc ∈ f.pushes, r.code[pc]? = some .push) ∧
      (r.PushesAt f.pushes slots ↔ f.aligned slots = true) := by
  obtain ⟨hk, rfl⟩ := List.getElem?_eq_some_iff.mp hf
  have hd := length_declaredSlots h
  have hr : List.Forall₂ (fun f r => ∃ n, r = (f.routine n).1) p.functions p.routines :=
    Routine.ofFunctions_forall₂ (fun f n => ⟨n, rfl⟩) p.functions 0
  have hk' : k < (declaredSlots source).length := hd.length_eq ▸ hk
  have hk'' : k < p.routines.length := hr.length_eq ▸ hk
  obtain ⟨n, hn⟩ := hr.get hk hk''
  simp only [List.get_eq_getElem] at hn
  refine ⟨_, _, List.getElem?_eq_getElem hk'', List.getElem?_eq_getElem hk', ?_, ?_, ?_⟩
  · rw [Function.length_pushes]
    exact hd.get hk hk'
  · intro pc hpc
    rw [hn]
    exact Function.push_of_mem_pushes _ n hpc
  · rw [hn]
    exact Function.pushesAt_iff_aligned _ n _

theorem pushes_at_declaredSlots_of_sequence :
    ∃ p f, Program.ofSource "fun f(a) = { var b = a; b; }" = .ok p ∧ p.functions[0]? = some f ∧
      ∃ r slots, p.routines[0]? = some r ∧
        (declaredSlots "fun f(a) = { var b = a; b; }")[0]? = some slots ∧
        slots.length = f.pushes.length ∧ (∀ pc ∈ f.pushes, r.code[pc]? = some .push) ∧
        (r.PushesAt f.pushes slots ↔ f.aligned slots = true) := by
  let f : Function := ⟨"f", 1, .cons (.block (.last (.decl (.fetch 0)))) (.last (.fetch 1))⟩
  have h : Program.ofSource "fun f(a) = { var b = a; b; }" = .ok ⟨[f]⟩ := by decide +kernel
  exact ⟨⟨[f]⟩, f, h, rfl, pushes_at_declaredSlots_iff h (k := 0) rfl⟩

/-- Both arms of a branch push a variable, and neither pops it; the variable behind them is given the
slot that theirs had. -/
theorem not_pushes_at_declaredSlots_of_reuse :
    ∃ p f r slots, Program.ofSource
        "fun f() = { if true { var a = 1; } else { var a = 1; }; var b = 2; b; }" = .ok p ∧
      p.functions[0]? = some f ∧ p.routines[0]? = some r ∧
      (declaredSlots
        "fun f() = { if true { var a = 1; } else { var a = 1; }; var b = 2; b; }")[0]? = some slots ∧
      ¬ r.PushesAt f.pushes slots := by
  let a : Body := .last (.block (.last (.decl (.literal "1"))))
  let f : Function := ⟨"f", 0, .cons (.ifElse (.literal "true") a a)
    (.cons (.block (.last (.decl (.literal "2")))) (.last (.fetch 0)))⟩
  refine ⟨⟨[f]⟩, f, (f.routine 0).1, [0, 0, 0], by decide +kernel, rfl, rfl, by decide +kernel, ?_⟩
  rw [f.pushesAt_iff_aligned 0]
  decide

end Program
end Morpho
