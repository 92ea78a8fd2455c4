import Morpho.Proofs.Runs
import Morpho.Compile
import Mathlib.Data.List.Forall2

/-! The bindings that parsing leaves in the log. Each declaration of a function is bound once, in the
order of the source, after the parameters of the function. -/
namespace Morpho

namespace Log

/-- The slot that an event gives to a variable. -/
def Event.slot? : Event → Option Nat
  | bound _ slot => some slot
  | _ => none

/-- The slots given, in order. -/
def slots (es : List Event) : List Nat := es.filterMap Event.slot?

@[simp] theorem slots_append (es es' : List Event) : slots (es ++ es') = slots es ++ slots es' :=
  List.filterMap_append

@[simp] theorem slots_reverse (es : List Event) : slots es.reverse = (slots es).reverse :=
  List.filterMap_reverse

/-- The end of a function. -/
def Event.ends : Event → Bool
  | parsed _ _ => true
  | _ => false

/-- The slots given to the declarations of each function that a log speaks of. The first argument
holds the slots given in the current function so far; those of its parameters come first. -/
def declared : List Nat → List Event → List (List Nat)
  | _, [] => []
  | given, .parsed _ arity :: es => given.drop arity :: declared [] es
  | given, e :: es => declared (given ++ e.slot?.toList) es

theorem declared_append (given : List Nat) (es rest : List Event) (h : ∀ e ∈ es, e.ends = false) :
    declared given (es ++ rest) = declared (given ++ slots es) rest := by
  induction es generalizing given with
  | nil => simp [slots]
  | cons e es ih =>
    have he : declared given (e :: (es ++ rest)) =
        declared (given ++ e.slot?.toList) (es ++ rest) := by
      cases e <;> first | rfl | cases h _ List.mem_cons_self
    have hs : slots (e :: es) = e.slot?.toList ++ slots es := by
      cases hslot : e.slot? <;> simp [slots, hslot]
    rw [List.cons_append, he, ih _ fun e' he' => h e' (List.mem_cons_of_mem e he'), hs,
      List.append_assoc]

end Log

mutual

/-- How many declarations an expression holds. -/
def Expr.decls : Expr → Nat
  | .literal _ | .fetch _ => 0
  | .store _ e | .ret e | .not e => e.decls
  | .call _ args => Expr.declsAll args
  | .ifThen c y => c.decls + y.decls
  | .ifElse c y o => c.decls + y.decls + o.decls
  | .block b => b.decls
  | .loop c b => c.decls + b.decls
  | .or l r | .and l r => l.decls + r.decls
  | .decl e => e.decls + 1

def Body.decls : Body → Nat
  | .last e => e.decls
  | .cons e rest => e.decls + rest.decls

def Expr.declsAll : List Expr → Nat
  | [] => 0
  | e :: es => e.decls + Expr.declsAll es

end

/-- How many variables are bound while a phrase inside a function is read. -/
def Phrase.bindings : (p : Phrase) → p.Tree → Nat
  | program, _ | function, _ => 0
  | params, n | paramList, n => n
  | body _, b | statements, b | declarations, b => b.decls
  | chain _, ops => Expr.declsAll (ops.map (·.2))
  | arguments, es | argumentList, es => Expr.declsAll es
  | expr, e | disjunction, e | conjunction, e | negation, e | binary _, e | small, e => e.decls

theorem Phrase.decls_fromLeft (left : Expr) (ops : List (String × Expr)) :
    (fromLeft left ops).decls = left.decls + Expr.declsAll (ops.map (·.2)) := by
  induction ops generalizing left with
  | nil => simp [fromLeft, Expr.declsAll]
  | cons op ops ih =>
    have h := ih (.call op.1 [left, op.2])
    simp only [Expr.decls, Expr.declsAll] at h
    simp only [fromLeft, List.foldl_cons, List.map_cons, Expr.declsAll] at h ⊢
    omega

namespace Parser

/-- The log grew by events inside a function, `k` of which bind a variable. -/
def Grows (k : Nat) (s s' : State) : Prop :=
  ∃ es, s'.log = es ++ s.log ∧ (∀ e ∈ es, e.ends = false) ∧ (Log.slots es).length = k

namespace Grows

variable {s t u : State} {j k : Nat}

theorem of_log_eq (h : t.log = s.log) : Grows 0 s t := ⟨[], by simp [h], by simp, rfl⟩

theorem of_cons {e : Log.Event} (he : e.ends = false) (h : t.log = e :: s.log) :
    Grows e.slot?.toList.length s t := by
  refine ⟨[e], h, by simpa using he, ?_⟩
  cases hs : e.slot? <;> simp [Log.slots, hs]

theorem trans (h : Grows j s t) (h' : Grows k t u) : Grows (j + k) s u := by
  obtain ⟨es, hes, hq, rfl⟩ := h
  obtain ⟨es', hes', hq', rfl⟩ := h'
  refine ⟨es' ++ es, by simp [hes, hes'], ?_, by simp; omega⟩
  intro e he
  obtain he | he := List.mem_append.mp he
  · exact hq' e he
  · exact hq e he

end Grows

/-- After `k` bindings, `x` makes as many more as its result calls for. -/
def Binds {α : Type} (k : Nat) (x : Parser α) (total : α → Nat) : Prop :=
  ∀ s a s', x s = .ok a s' → ∃ j, Grows j s s' ∧ k + j = total a

namespace Binds

variable {α β : Type} {k : Nat} {total : β → Nat} {f : α → Parser β}

theorem finish {b : β} (h : k = total b) : Binds k (pure b) total := by
  intro s a s' hs
  obtain ⟨rfl, rfl⟩ := pure_eq_ok.mp hs
  exact ⟨0, .of_log_eq rfl, h⟩

theorem fails (wanted : String) : Binds k (unexpected wanted) total := by
  intro s a s' hs
  cases hs

/-- A part that makes `c` of the bindings. -/
theorem part {x : Parser α} {c : α → Nat} (hx : Binds 0 x c)
    (hf : ∀ a, Binds (k + c a) (f a) total) : Binds k (x >>= f) total := by
  intro s b s' h
  obtain ⟨a, t, hs, ht⟩ := bind_eq_ok.mp h
  obtain ⟨i, hi, hia⟩ := hx s a t hs
  obtain ⟨j, hj, hjb⟩ := hf a t b s' ht
  exact ⟨i + j, hi.trans hj, by omega⟩

theorem grows {x : Parser β} {s s' : State} {b : β} (hx : Binds 0 x total) (h : x s = .ok b s') :
    Grows (total b) s s' := by
  obtain ⟨j, hj, hb⟩ := hx s b s' h
  rw [← hb, Nat.zero_add]
  exact hj

theorem of_reads {x : Parser α} (hx : Reads x) : Binds 0 x (fun _ => 0) := by
  intro s a s' h
  obtain ⟨ts, rfl, -⟩ := hx s a s' h
  exact ⟨0, .of_log_eq rfl, rfl⟩

theorem reads {x : Parser α} (hx : Reads x) (hf : ∀ a, Binds k (f a) total) :
    Binds k (x >>= f) total :=
  part (of_reads hx) hf

theorem resolve (t : Token) : Binds 0 (Parser.resolve t) (fun _ => 0) := by
  intro s a s' h
  simp only [Parser.resolve] at h
  split at h <;> cases h
  exact ⟨0, .of_log_eq rfl, rfl⟩

theorem declare (t : Token) : Binds 0 (Parser.declare t) (fun _ => 1) := by
  intro s a s' h
  simp only [Parser.declare] at h
  split at h <;> cases h
  exact ⟨1, .of_cons (e := .bound _ _) rfl rfl, rfl⟩

theorem openScope : Binds 0 Parser.openScope (fun _ => 0) := by
  intro s a s' h
  cases h
  exact ⟨0, .of_cons (e := .opened _) rfl rfl, rfl⟩

theorem closeScope : Binds 0 Parser.closeScope (fun _ => 0) := by
  intro s a s' h
  simp only [Parser.closeScope] at h
  split at h <;> cases h
  exact ⟨0, .of_cons (e := .closed _ _) rfl rfl, rfl⟩

end Binds
end Parser

namespace Phrase

open Morpho.Parser

section

variable {n : Nat} (ih : ∀ p : Phrase, p.inner = true → Binds 0 (parse n p) p.bindings)

include ih

theorem parse_params_binds : Binds 0 (parse (n + 1) params) params.bindings := by
  rw [parse]
  refine .reads (.check _) fun b => ?_
  cases b with
  | true => exact ih .paramList rfl
  | false => exact .finish rfl

theorem parse_paramList_binds : Binds 0 (parse (n + 1) paramList) paramList.bindings := by
  rw [parse]
  refine .reads (.expect _) fun t => .part (.declare t) fun _ => .reads (.accept _) fun b => ?_
  cases b with
  | true => exact .part (ih .paramList rfl) fun m => .finish (Nat.add_comm ..)
  | false => exact .finish rfl

theorem parse_body_binds (opens : Bool) :
    Binds 0 (parse (n + 1) (body opens)) (body opens).bindings := by
  rw [parse]
  refine .reads (.accept _) fun b => ?_
  cases b with
  | true =>
    cases opens with
    | true =>
      refine .part .openScope fun _ => .part (ih .statements rfl) fun b => ?_
      exact .part .closeScope fun _ => .finish (Nat.zero_add _)
    | false => exact .part (ih .statements rfl) fun b => .finish (Nat.zero_add _)
  | false => exact .part (ih .expr rfl) fun e => .finish (Nat.zero_add _)

theorem parse_statements_binds : Binds 0 (parse (n + 1) statements) statements.bindings := by
  rw [parse]
  refine .part (ih .expr rfl) fun e => .reads (.expect _) fun _ => .reads (.accept _) fun b => ?_
  cases b with
  | true => exact .finish (Nat.zero_add _)
  | false =>
    refine .part (ih .statements rfl) fun rest => .finish ?_
    simp [bindings, Body.decls]

theorem parse_expr_binds : Binds 0 (parse (n + 1) expr) expr.bindings := by
  rw [parse]
  refine .reads (.accept _) fun b => ?_
  cases b with
  | true => exact .part (ih .expr rfl) fun e => .finish (Nat.zero_add _)
  | false =>
    refine .reads (.accept _) fun b => ?_
    cases b with
    | true => exact .part (ih .declarations rfl) fun b => .finish (Nat.zero_add _)
    | false =>
      refine .reads (.check _) fun b => .reads (.checkSecond _) fun b' => ?_
      cases b && b' with
      | true =>
        refine .reads .advance fun t => .part (.resolve t) fun slot => .reads .advance fun _ => ?_
        exact .part (ih .expr rfl) fun e => .finish (Nat.zero_add _)
      | false => exact ih .disjunction rfl

theorem parse_declarations_binds :
    Binds 0 (parse (n + 1) declarations) declarations.bindings := by
  -- behind the initial value comes the name, then perhaps more of them
  have rest : ∀ (t : Token) (e : Expr), Binds e.decls
      (do
        declare t
        if ← accept (.punct ',') then return .cons (.decl e) (← parse n declarations)
        else return .last (.decl e)) declarations.bindings := by
    intro t e
    refine .part (.declare t) fun _ => .reads (.accept _) fun b => ?_
    cases b with
    | true => exact .part (ih .declarations rfl) fun b => .finish rfl
    | false => exact .finish rfl
  rw [parse]
  refine .reads (.expect _) fun t => .reads (.accept _) fun b => ?_
  cases b with
  | true =>
    refine .part (ih .expr rfl) fun e => ?_
    rw [Nat.zero_add]
    exact rest t e
  | false => exact rest t .null

theorem parse_disjunction_binds : Binds 0 (parse (n + 1) disjunction) disjunction.bindings := by
  rw [parse]
  refine .part (ih .conjunction rfl) fun l => .reads (.accept _) fun b => ?_
  cases b with
  | true =>
    refine .part (ih .disjunction rfl) fun r => .finish ?_
    simp [bindings, Expr.decls]
  | false => exact .finish (Nat.zero_add _)

theorem parse_conjunction_binds : Binds 0 (parse (n + 1) conjunction) conjunction.bindings := by
  rw [parse]
  refine .part (ih .negation rfl) fun l => .reads (.accept _) fun b => ?_
  cases b with
  | true =>
    refine .part (ih .negation rfl) fun r => .finish ?_
    simp [bindings, Expr.decls]
  | false => exact .finish (Nat.zero_add _)

theorem parse_negation_binds : Binds 0 (parse (n + 1) negation) negation.bindings := by
  rw [parse]
  refine .reads (.accept _) fun b => ?_
  cases b with
  | true => exact .part (ih .negation rfl) fun e => .finish (Nat.zero_add _)
  | false => exact ih (.binary (some .op1)) rfl

theorem parse_binary_binds (c : Option OpClass) :
    Binds 0 (parse (n + 1) (binary c)) (binary c).bindings := by
  cases c with
  | none =>
    rw [parse]
    exact ih .small rfl
  | some c =>
    rw [parse]
    refine .part (ih (.binary c.tighter?) rfl) fun l => ?_
    cases c.groupsRight with
    | true =>
      refine .reads (.check _) fun b => ?_
      cases b with
      | true =>
        refine .reads .advance fun op => .part (ih (.binary (some c)) rfl) fun r => .finish ?_
        simp [bindings, Expr.decls, Expr.declsAll]
      | false => exact .finish (Nat.zero_add _)
    | false =>
      refine .part (ih (.chain c) rfl) fun ops => .finish ?_
      simp [bindings, decls_fromLeft]

theorem parse_chain_binds (c : OpClass) :
    Binds 0 (parse (n + 1) (chain c)) (chain c).bindings := by
  rw [parse]
  refine .reads (.check _) fun b => ?_
  cases b with
  | true =>
    refine .reads .advance fun op => .part (ih (.binary c.tighter?) rfl) fun r => ?_
    refine .part (ih (.chain c) rfl) fun ops => .finish ?_
    simp [bindings, Expr.declsAll]
  | false => exact .finish rfl

theorem parse_small_binds : Binds 0 (parse (n + 1) small) small.bindings := by
  rw [parse]
  refine .reads .current fun t => ?_
  split
  · refine .reads .advance fun _ => .reads (.accept _) fun b => ?_
    cases b with
    | true => exact .part (ih .arguments rfl) fun es => .finish (Nat.zero_add _)
    | false => exact .part (.resolve t) fun slot => .finish rfl
  · exact .reads .advance fun _ => .finish rfl
  · refine .reads .advance fun _ => .part (ih .expr rfl) fun e => ?_
    exact .reads (.expect _) fun _ => .finish (Nat.zero_add _)
  · refine .reads .advance fun _ => .part (ih .small rfl) fun e => .finish ?_
    simp [bindings, Expr.decls, Expr.declsAll]
  · refine .reads .advance fun _ => .part (ih .expr rfl) fun c =>
      .part (ih (.body true) rfl) fun y => .reads (.accept _) fun b => ?_
    cases b with
    | true =>
      refine .part (ih (.body true) rfl) fun o => .finish ?_
      simp [bindings, Expr.decls]
    | false =>
      refine .finish ?_
      simp [bindings, Expr.decls]
  · refine .reads .advance fun _ => .part (ih .expr rfl) fun c =>
      .part (ih (.body true) rfl) fun b => .finish ?_
    simp [bindings, Expr.decls]
  · exact .fails _
  · exact .fails _

theorem parse_arguments_binds : Binds 0 (parse (n + 1) arguments) arguments.bindings := by
  rw [parse]
  refine .reads (.accept _) fun b => ?_
  cases b with
  | true => exact .finish rfl
  | false => exact ih .argumentList rfl

theorem parse_argumentList_binds :
    Binds 0 (parse (n + 1) argumentList) argumentList.bindings := by
  rw [parse]
  refine .part (ih .expr rfl) fun e => .reads (.accept _) fun b => ?_
  cases b with
  | true =>
    refine .part (ih .argumentList rfl) fun es => .finish ?_
    simp [bindings, Expr.declsAll]
  | false =>
    refine .reads (.expect _) fun _ => .finish ?_
    simp [bindings, Expr.declsAll]

end

/-- A phrase inside a function binds one variable for each declaration in what it is read as. -/
theorem parse_binds (n : Nat) (p : Phrase) (hp : p.inner = true) :
    Binds 0 (parse n p) p.bindings := by
  induction n generalizing p with
  | zero =>
    intro s a s' h
    cases h
  | succ n ih =>
    cases p with
    | program | function => cases hp
    | params => exact parse_params_binds ih
    | paramList => exact parse_paramList_binds ih
    | body opens => exact parse_body_binds ih opens
    | statements => exact parse_statements_binds ih
    | expr => exact parse_expr_binds ih
    | declarations => exact parse_declarations_binds ih
    | disjunction => exact parse_disjunction_binds ih
    | conjunction => exact parse_conjunction_binds ih
    | negation => exact parse_negation_binds ih
    | binary c => exact parse_binary_binds ih c
    | chain c => exact parse_chain_binds ih c
    | small => exact parse_small_binds ih
    | arguments => exact parse_arguments_binds ih
    | argumentList => exact parse_argumentList_binds ih

/-- Reading a function binds its parameters and its declarations, and then tells its end. -/
theorem parse_function_log {n : Nat} {s s' : State} {f : Function}
    (h : parse n function s = .ok f s') :
    ∃ t, Grows (f.arity + f.body.decls) s t ∧ s'.log = .parsed f.name f.arity :: t.log := by
  cases n with
  | zero => cases h
  | succ n =>
    simp only [parse, bind_eq_ok, pure_eq_ok] at h
    obtain ⟨_, s₁, h₁, name, s₂, h₂, _, s₃, h₃, _, s₄, h₄, arity, s₅, h₅, _, s₆, h₆, _, s₇, h₇, b, s₈,
      h₈, _, s₉, h₉, _, s₁₀, h₁₀, rfl, rfl⟩ := h
    cases h₁₀
    have g₁ := (Binds.of_reads (.expect _)).grows h₁
    have g₂ := (Binds.of_reads (.expect _)).grows h₂
    have g₃ := Binds.openScope.grows h₃
    have g₄ := (Binds.of_reads (.expect _)).grows h₄
    have g₅ := (parse_binds n params rfl).grows h₅
    have g₆ := (Binds.of_reads (.expect _)).grows h₆
    have g₇ := (Binds.of_reads (.expect _)).grows h₇
    have g₈ := (parse_binds n (body false) rfl).grows h₈
    have g₉ := Binds.closeScope.grows h₉
    have hhead := ((g₁.trans g₂).trans g₃).trans (g₄.trans g₅)
    have g := hhead.trans (((g₆.trans g₇).trans g₈).trans g₉)
    refine ⟨s₉, ?_, rfl⟩
    simpa [bindings] using g

/-- Behind the parameters, the log of a program holds one binding for each declaration, function by
function. -/
theorem parse_program_log {n : Nat} {s s' : State} {fs : List Function}
    (h : parse n program s = .ok fs s') :
    ∃ es, s'.log = es ++ s.log ∧
      List.Forall₂ (fun f slots => slots.length = f.body.decls) fs (Log.declared [] es.reverse) := by
  induction n generalizing s fs with
  | zero => cases h
  | succ n ih =>
    simp only [parse, bind_eq_ok] at h
    obtain ⟨b, s₁, h₁, h⟩ := h
    cases h₁
    cases hb : decide (s.current.kind = .eof) with
    | true =>
      rw [hb] at h
      obtain ⟨rfl, rfl⟩ := pure_eq_ok.mp h
      exact ⟨[], rfl, .nil⟩
    | false =>
      rw [hb] at h
      simp only [Bool.false_eq_true, if_false, bind_eq_ok, pure_eq_ok] at h
      obtain ⟨f, t, hf, rest, u, hrest, rfl, rfl⟩ := h
      obtain ⟨t', ⟨es, hes, hq, hlen⟩, ht⟩ := parse_function_log hf
      obtain ⟨es', hes', hall⟩ := ih hrest
      refine ⟨es' ++ .parsed f.name f.arity :: es, by simp [hes', ht, hes], ?_⟩
      have hq' : ∀ e ∈ es.reverse, e.ends = false := fun e he => hq e (List.mem_reverse.mp he)
      rw [List.reverse_append, List.reverse_cons, List.append_assoc, Log.declared_append _ _ _ hq']
      refine .cons ?_ hall
      simp [hlen]

end Phrase
end Morpho
