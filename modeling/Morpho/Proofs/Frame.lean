import Morpho.Proofs.Flow.Spans
import Morpho.Compile

/-! Accesses to the frame. A slot is there only once something was pushed into it, and branches may
go past the push of a declaration whose variable is still in sight behind them. Which functions are
safe from that is decided by the least depth at every access. -/
namespace Morpho

open Morpho.Flow

/-- Whatever way control takes, instructions access only slots that are in the frame. -/
def Routine.StaysInFrame (r : Routine) : Prop :=
  ∀ pc d i s, r.Reaches ⟨pc, d⟩ → r.code[pc]? = some i → i.slot? = some s → (s : Int) < d

namespace Function

/-- Every instruction with its mark and the depths at which control comes to it. -/
def places (f : Function) : List (Mark × Option Span) := f.spans.marks.zip f.spans.depths

/-- The access, if it is one, is to a slot below the least depth. -/
def holdsAccess (f : Function) : Mark × Option Span → Bool
  | (.access s, some x) => s < f.arity + x.least
  | _ => true

/-- All accesses are to slots that are there on every way to them. -/
def resident (f : Function) : Bool := f.places.all f.holdsAccess

variable (f : Function) (n : Label)

/-- The mark of an instruction fits it. -/
theorem instr_of_mark {pc : Nat} {m : Mark} (hm : f.spans.marks[pc]? = some m) :
    ∃ i, (f.routine n).1.code[pc]? = some i ∧ m.Fits i := by
  rw [f.spans_flow.marks] at hm
  have hd := (f.flow_describes n).marks
  obtain ⟨hpc, rfl⟩ := List.getElem?_eq_some_iff.mp hm
  have hpc' : pc < (f.routine n).1.code.length := hd.length_eq ▸ hpc
  exact ⟨_, List.getElem?_eq_getElem hpc', hd.get hpc hpc'⟩

/-- Every instruction has a mark and a description of the depths at which paths come there. -/
theorem place_of_instr {pc : Nat} {i : Instr} (hi : (f.routine n).1.code[pc]? = some i) :
    ∃ m x, m.Fits i ∧ f.places[pc]? = some (m, x) := by
  have hd := f.flow_describes n
  obtain ⟨hpc, -⟩ := List.getElem?_eq_some_iff.mp hi
  have hm : pc < f.spans.marks.length := by
    rw [f.spans_flow.marks, hd.marks.length_eq]
    exact hpc
  have hx : pc < f.spans.depths.length := by
    rw [f.spans_flow.depths.length_eq, hd.length]
    exact hpc
  have hm := List.getElem?_eq_getElem hm
  obtain ⟨j, hj, hfit⟩ := f.instr_of_mark n hm
  obtain rfl := Option.some.inj (hi.symm.trans hj)
  exact ⟨_, _, hfit, List.getElem?_zip_eq_some.mpr ⟨hm, List.getElem?_eq_getElem hx⟩⟩

/-- The description at a place is true of the depths at which paths come there. -/
theorem depths_spans {pc : Nat} {x : Option Span} (hx : f.spans.depths[pc]? = some x) :
    ∃ S, Spans x S ∧ ∀ k, (f.routine n).1.Reaches ⟨pc, f.arity + k⟩ ↔ k ∈ S := by
  have hd := f.spans_flow.depths
  obtain ⟨hpc, rfl⟩ := List.getElem?_eq_some_iff.mp hx
  have hpc' : pc < f.flow.depths.length := hd.length_eq ▸ hpc
  have hS : f.flow.depths[pc]? = some f.flow.depths[pc] := List.getElem?_eq_getElem hpc'
  exact ⟨_, hd.get hpc hpc', fun k => f.reaches_iff_mem n hS⟩

/-- What the description at a place says of the paths that come there. -/
theorem reaches_of_span {pc : Nat} {x : Span} (hx : f.spans.depths[pc]? = some (some x)) :
    (f.routine n).1.Reaches ⟨pc, f.arity + x.least⟩ ∧
      (∀ d, (f.routine n).1.Reaches ⟨pc, d⟩ → f.arity + x.least ≤ d) ∧
      (x.single = true ↔ ∀ d, (f.routine n).1.Reaches ⟨pc, d⟩ → d = f.arity + x.least) := by
  obtain ⟨S, ⟨⟨hm, hlow⟩, hs⟩, hS⟩ := f.depths_spans n hx
  have hd : ∀ d, (f.routine n).1.Reaches ⟨pc, d⟩ ↔ d - f.arity ∈ S := by
    intro d
    rw [← hS, show f.arity + (d - f.arity) = d by omega]
  refine ⟨(hS _).mpr hm, ?_, ?_⟩
  · intro d h
    have := hlow ((hd d).mp h)
    omega
  · rw [hs]
    constructor
    · intro h d hr
      have := h _ ((hd d).mp hr)
      omega
    · intro h k hk
      have := h _ ((hS k).mpr hk)
      omega

theorem not_reaches_of_none {pc : Nat} (hx : f.spans.depths[pc]? = some none) (d : Int) :
    ¬ (f.routine n).1.Reaches ⟨pc, d⟩ := by
  obtain ⟨S, rfl, hS⟩ := f.depths_spans n hx
  rw [show d = f.arity + (d - f.arity) by omega, hS]
  exact Set.notMem_empty _

/-- A function accesses only slots that are in the frame, on every way through its code, exactly if
each access is below the least depth there. -/
theorem staysInFrame_iff_resident : (f.routine n).1.StaysInFrame ↔ f.resident = true := by
  rw [resident, List.all_eq_true]
  constructor
  · intro h q hq
    obtain ⟨pc, hpc⟩ := List.mem_iff_getElem?.mp hq
    obtain ⟨hm, hx⟩ := List.getElem?_zip_eq_some.mp hpc
    obtain ⟨m, x⟩ := q
    match m, x with
    | .access s, some x =>
      obtain ⟨i, hi, hfit⟩ := f.instr_of_mark n hm
      have hs := h pc _ i s (f.reaches_of_span n hx).1 hi ((hfit.access s).mp rfl)
      exact decide_eq_true hs
    | .access s, none | .other, _ | .declare, _ => rfl
  · intro h pc d i s hr hi hs
    obtain ⟨m, x, hfit, hpc⟩ := f.place_of_instr n hi
    obtain ⟨-, hx⟩ := List.getElem?_zip_eq_some.mp hpc
    obtain rfl := (hfit.access s).mpr hs
    have hq := h _ (List.mem_of_getElem? hpc)
    cases x with
    | none => exact absurd hr (f.not_reaches_of_none n hx d)
    | some x =>
      have hleast := (f.reaches_of_span n hx).2.1 d hr
      have hlt : (s : Int) < f.arity + x.least := of_decide_eq_true hq
      omega

end Function

/-- What is so of the code of every function is so all through a program. -/
theorem Routine.ofFunctions_forall₂ {R : Function → Routine → Prop}
    (h : ∀ f n, R f (f.routine n).1) : ∀ (fs : List Function) (n : Label),
    List.Forall₂ R fs (Routine.ofFunctions fs n).1
  | [], _ => .nil
  | f :: fs, n => .cons (h f n) (Routine.ofFunctions_forall₂ h fs (f.routine n).2)

/-- The functions of a program that access only slots in the frame are the resident ones. -/
theorem Program.routines_stayInFrame_iff (p : Program) :
    List.Forall₂ (fun f r => r.StaysInFrame ↔ f.resident = true) p.functions p.routines :=
  Routine.ofFunctions_forall₂ (fun f n => f.staysInFrame_iff_resident n) p.functions 0

/-- A body without braces opens no scope, so a variable that it declares is in sight behind it, also
for the paths that went past it. -/
theorem Program.not_stayInFrame_of_skipped_declaration :
    ∃ p, Program.ofSource "fun f(c) = { if c var x = 1; x; }" = .ok p ∧
      ∃ r ∈ p.routines, ¬ r.StaysInFrame := by
  let code : List Instr := [.fetch 0, .goFalse 0, .makeVal "1", .push, .label 0, .fetchR 1]
  have h₁ : Step code ⟨0, 1⟩ ⟨1, 1⟩ := .next (i := .fetch 0) rfl rfl
  have h₂ : Step code ⟨1, 1⟩ ⟨4, 1⟩ := .jump (i := .goFalse 0) rfl rfl rfl
  have h₃ : Step code ⟨4, 1⟩ ⟨5, 1⟩ := .next (i := .label 0) rfl rfl
  have hp : Path code ⟨0, 1⟩ ⟨5, 1⟩ := ((Relation.ReflTransGen.single h₁).tail h₂).tail h₃
  refine ⟨⟨[⟨"f", 1, .cons (.ifThen (.fetch 0) (.last (.block (.last (.decl (.literal "1"))))))
    (.last (.fetch 1))⟩]⟩, by decide +kernel, ⟨"f", 1, code⟩, by decide, ?_⟩
  intro h
  have hlt := h 5 1 (.fetchR 1) 1 hp rfl rfl
  omega

end Morpho
