import Morpho.Proofs.Calls
import Morpho.Proofs.Derivation
import Morpho.Proofs.Machine
import Mathlib.Data.List.Chain

/-! Returns behind returns. Code that returns needs no return behind it, and the code of a function has
one there exactly where a return hands over what has returned already. In a source that is a `return`
whose value is written as another `return`. -/
namespace Morpho

namespace Expr

/-- `P` is so of the expression and of all expressions inside it. -/
def All (P : Expr → Prop) (e : Expr) : Prop := ∀ x ∈ e.nodes, P x.expr

variable {P Q : Expr → Prop}

theorem forall_nodesFrom_iff {parent : Expr} {i : Nat} {es : List Expr} :
    (∀ x ∈ nodesFrom parent i es, P x.expr) ↔ ∀ e ∈ es, e.All P := by
  induction es generalizing i with
  | nil => simp
  | cons e es ih => simp [or_imp, forall_and, ih, All]

theorem all_iff {e : Expr} : e.All P ↔ (∀ c ∈ e.children, c.All P) ∧ P e := by
  rw [All, nodes_eq, List.forall_mem_append, forall_nodesFrom_iff]
  simp

end Expr

namespace Instr

/-- No return stands right behind an instruction that returns. -/
def Single (code : List Instr) : Prop := code.IsChain fun i j => j = ret → i.returns = false

@[simp] theorem single_nil : Single [] := List.isChain_nil
@[simp] theorem single_singleton (i : Instr) : Single [i] := List.isChain_singleton i
@[simp] theorem single_closing (tail : Bool) : Single (closing tail) := by
  cases tail <;> simp [closing]

theorem single_append {a b : List Instr} (h : b.head? ≠ some ret) :
    Single (a ++ b) ↔ Single a ∧ Single b := by
  rw [Single, List.isChain_append]
  constructor
  · rintro ⟨ha, hb, -⟩
    exact ⟨ha, hb⟩
  · rintro ⟨ha, hb⟩
    refine ⟨ha, hb, fun i _ j hj hret => ?_⟩
    subst hret
    exact absurd hj h

theorem single_cons {i : Instr} (h : i.returns = false) {code : List Instr} :
    Single (i :: code) ↔ Single code := by
  rw [Single, List.isChain_cons]
  simp [h, Single]

/-- An instruction that does not return keeps apart what stands before it and what stands behind. -/
theorem single_around {i : Instr} (h : i.returns = false) {a b : List Instr} :
    Single (a ++ i :: b) ↔ Single a ∧ Single b := by
  rw [single_append, single_cons h]
  rintro ⟨⟩
  cases h

theorem single_snoc {i : Instr} (h : i ≠ ret) {code : List Instr} :
    Single (code ++ [i]) ↔ Single code := by
  rw [single_append (by simpa using h), and_iff_left (single_singleton i)]

theorem single_snoc_ret {code : List Instr} {i : Instr} :
    Single (code ++ [i] ++ [ret]) ↔ Single (code ++ [i]) ∧ i.returns = false := by
  rw [Single, List.isChain_append]
  simp [Single]

/-- The same, place by place. -/
theorem single_iff_getElem? {code : List Instr} : Single code ↔
    ∀ pc i, code[pc]? = some i → i.returns = true → code[pc + 1]? ≠ some ret := by
  rw [Single, List.isChain_iff_getElem]
  constructor
  · intro h pc i hi hreturns hret
    obtain ⟨hpc, hlast⟩ := List.getElem?_eq_some_iff.mp hret
    obtain ⟨_, rfl⟩ := List.getElem?_eq_some_iff.mp hi
    rw [h pc hpc hlast] at hreturns
    cases hreturns
  · intro h pc hpc hret
    by_contra hreturns
    refine h pc _ (List.getElem?_eq_getElem (by omega)) (by simpa using hreturns) ?_
    rw [List.getElem?_eq_getElem hpc, hret]

/-- Code that starts with some instruction other than a return. -/
def Starts (code : List Instr) : Prop := ∃ i rest, code = i :: rest ∧ i ≠ ret

theorem Starts.append {a : List Instr} (h : Starts a) (b : List Instr) : Starts (a ++ b) := by
  obtain ⟨i, rest, rfl, hi⟩ := h
  exact ⟨i, rest ++ b, rfl, hi⟩

theorem Starts.head {code : List Instr} (h : Starts code) : code.head? ≠ some ret := by
  obtain ⟨i, rest, rfl, hi⟩ := h
  simpa using hi

/-- Code whose last instruction returns if `returning` says so. -/
def Ends (returning : Bool) (code : List Instr) : Prop :=
  ∃ init i, code = init ++ [i] ∧ i.returns = returning

theorem Ends.snoc {returning : Bool} (code : List Instr) {i : Instr} (h : i.returns = returning) :
    Ends returning (code ++ [i]) := ⟨code, i, rfl, h⟩

theorem Ends.append {returning : Bool} (a : List Instr) {b : List Instr} (h : Ends returning b) :
    Ends returning (a ++ b) := by
  obtain ⟨init, i, rfl, hi⟩ := h
  exact ⟨a ++ init, i, by simp, hi⟩

end Instr

mutual

theorem Expr.emit_starts : ∀ (e : Expr) (tail : Bool) (n : Label), Instr.Starts (e.emit tail n).code
  | .literal t, tail, n => ⟨_, [], rfl, by cases tail <;> simp⟩
  | .fetch s, tail, n => ⟨_, [], rfl, by cases tail <;> simp⟩
  | .store s e, tail, n | .not e, tail, n | .decl e, tail, n => (e.emit_starts false n).append _
  | .call f [], tail, n => ⟨_, [], rfl, by cases tail <;> simp⟩
  | .call f (e :: es), tail, n => ((e.emit_starts false n).append _).append _
  | .ret e, tail, n => (e.emit_starts e.isLeaf n).append _
  | .ifThen c y, tail, n => ((c.emit_starts false (n + 1)).append _).append _
  | .ifElse c y o, tail, n => (((c.emit_starts false (n + 2)).append _).append _).append _
  | .block b, tail, n => b.emit_starts tail n
  | .loop c b, tail, n => ⟨_, _, rfl, by simp⟩
  | .or l r, tail, n | .and l r, tail, n => ((l.emit_starts false (n + 1)).append _).append _

theorem Body.emit_starts : ∀ (b : Body) (tail : Bool) (n : Label), Instr.Starts (b.emit tail n).code
  | .last e, tail, n => e.emit_starts tail n
  | .cons e _, _, n => (e.emit_starts false n).append _

end

mutual

/-- Whether an expression ends by returning, in whatever position it stands. -/
def Expr.endsReturning : Expr → Bool
  | .ret _ => true
  | .block b => b.endsReturning
  | _ => false

def Body.endsReturning : Body → Bool
  | .last e => e.endsReturning
  | .cons _ rest => rest.endsReturning

end

theorem Expr.ret_emit_ends (e : Expr) (tail : Bool) (n : Label) :
    Instr.Ends true ((Expr.ret e).emit tail n).code := by
  rw [Expr.emit]
  cases e with
  | literal t => exact .snoc [] rfl
  | fetch s => exact .snoc [] rfl
  | call f args =>
    have hcode : ((Expr.call f args).emit true n).code ++ Instr.closing false =
        (Expr.emitArgs args n).code ++ [.callR f args.length] := List.append_nil _
    exact hcode ▸ .snoc _ rfl
  | _ => exact .snoc _ rfl

mutual

theorem Expr.emit_ends : ∀ (e : Expr) (n : Label),
    Instr.Ends e.endsReturning (e.emit false n).code
  | .literal _, _ | .fetch _, _ => .snoc [] rfl
  | .store _ _, _ | .call _ _, _ | .not _, _ | .decl _, _ => .snoc _ rfl
  | .ret e, n => e.ret_emit_ends false n
  | .ifThen _ _, _ | .ifElse _ _ _, _ | .or _ _, _ | .and _ _, _ => .snoc _ rfl
  | .block b, n => b.emit_ends n
  | .loop c b, n => by
    rw [Expr.emit]
    exact .append _ (.append [.go n] (.snoc [] rfl))

theorem Body.emit_ends : ∀ (b : Body) (n : Label), Instr.Ends b.endsReturning (b.emit false n).code
  | .last e, n => e.emit_ends n
  | .cons _ rest, _ => .append _ (rest.emit_ends _)

end

/-- A return that hands over what has returned already. -/
def Expr.repeatsReturn : Expr → Bool
  | .ret e => e.endsReturning
  | _ => false

/-- No return inside hands over what has returned already. -/
def Expr.ReturnsOnce (e : Expr) : Prop := e.All fun x => x.repeatsReturn = false

theorem Expr.returnsOnce_iff {e : Expr} : e.ReturnsOnce ↔
    (∀ c ∈ e.children, c.ReturnsOnce) ∧ e.repeatsReturn = false := Expr.all_iff

theorem Expr.head_emitOperands (es : List Expr) (n : Label) :
    (Expr.emitOperands es n).code.head? ≠ some .ret := by
  cases es with
  | nil => simp [Expr.emitOperands]
  | cons e es =>
    rw [Expr.emitOperands]
    obtain ⟨t, -, h⟩ | h := e.asOperand_cases (e.emit false n).code <;> simp [h]

mutual

/-- Code has no return behind a return exactly if no return inside its expression repeats another. -/
theorem Expr.emit_single_iff : ∀ (e : Expr) (tail : Bool) (n : Label),
    Instr.Single (e.emit tail n).code ↔ e.ReturnsOnce
  | .literal _, _, _ | .fetch _, _, _ => by
    rw [Expr.returnsOnce_iff, Expr.emit]
    simp [Expr.children, Expr.repeatsReturn]
  | .store _ e, tail, _ | .not e, tail, _ => by
    rw [Expr.returnsOnce_iff, Expr.emit, Instr.single_snoc (by cases tail <;> simp), e.emit_single_iff]
    simp [Expr.children, Expr.repeatsReturn]
  | .decl e, _, _ => by
    rw [Expr.returnsOnce_iff, Expr.emit, Instr.single_around rfl, e.emit_single_iff]
    simp [Expr.children, Expr.repeatsReturn]
  | .call _ args, tail, _ => by
    rw [Expr.returnsOnce_iff, Expr.emit, Instr.single_snoc (by cases tail <;> simp),
      Expr.emitArgs_single_iff args]
    simp [Expr.children, Expr.repeatsReturn]
  | .ret e, _, n => by
    rw [Expr.returnsOnce_iff, Expr.emit]
    cases hleaf : e.isLeaf with
    | true =>
      have hends : e.endsReturning = false := by cases e <;> first | rfl | cases hleaf
      rw [show Instr.closing (!true) = [] from rfl, List.append_nil, e.emit_single_iff]
      simp [Expr.children, Expr.repeatsReturn, hends]
    | false =>
      obtain ⟨init, i, hcode, hi⟩ := e.emit_ends n
      rw [show Instr.closing (!false) = [.ret] from rfl, hcode, Instr.single_snoc_ret, ← hcode,
        e.emit_single_iff, hi]
      simp [Expr.children, Expr.repeatsReturn]
  | .ifThen c y, _, _ => by
    rw [Expr.returnsOnce_iff, Expr.emit, Instr.single_around rfl, Instr.single_around rfl,
      c.emit_single_iff, y.emit_single_iff]
    simp [Expr.children, Expr.repeatsReturn]
  | .ifElse c y o, _, _ => by
    rw [Expr.returnsOnce_iff, Expr.emit, Instr.single_around rfl, Instr.single_around rfl,
      Instr.single_around rfl, Instr.single_cons rfl, c.emit_single_iff, y.emit_single_iff,
      o.emit_single_iff]
    simp [Expr.children, Expr.repeatsReturn, or_imp, forall_and, and_assoc]
  | .block b, _, _ => by
    rw [Expr.returnsOnce_iff, Expr.emit, b.emit_single_iff]
    simp [Expr.children, Expr.repeatsReturn]
  | .loop c b, _, _ => by
    rw [Expr.returnsOnce_iff, Expr.emit, Instr.single_around rfl, Instr.single_around rfl,
      Instr.single_cons rfl, Instr.single_cons rfl, c.emit_single_iff, b.emit_single_iff]
    simp [Expr.children, Expr.repeatsReturn]
  | .or l r, _, _ | .and l r, _, _ => by
    rw [Expr.returnsOnce_iff, Expr.emit, Instr.single_around rfl, Instr.single_around rfl,
      l.emit_single_iff, r.emit_single_iff]
    simp [Expr.children, Expr.repeatsReturn]

theorem Body.emit_single_iff : ∀ (b : Body) (tail : Bool) (n : Label),
    Instr.Single (b.emit tail n).code ↔ ∀ e ∈ b.toList, e.ReturnsOnce
  | .last e, tail, n => by
    rw [Body.emit, e.emit_single_iff]
    simp [Body.toList]
  | .cons e rest, tail, n => by
    rw [Body.emit, Instr.single_append (rest.emit_starts _ _).head, e.emit_single_iff,
      rest.emit_single_iff]
    simp [Body.toList]

theorem Expr.emitArgs_single_iff : ∀ (es : List Expr) (n : Label),
    Instr.Single (Expr.emitArgs es n).code ↔ ∀ e ∈ es, e.ReturnsOnce
  | [], n => by simp [Expr.emitArgs]
  | e :: es, n => by
    rw [Expr.emitArgs, Instr.single_append (Expr.head_emitOperands es _), e.emit_single_iff,
      Expr.emitOperands_single_iff es]
    simp

theorem Expr.emitOperands_single_iff : ∀ (es : List Expr) (n : Label),
    Instr.Single (Expr.emitOperands es n).code ↔ ∀ e ∈ es, e.ReturnsOnce
  | [], n => by simp [Expr.emitOperands]
  | e :: es, n => by
    have he : Instr.Single (e.asOperand (e.emit false n).code) ↔ e.ReturnsOnce := by
      rw [← e.emit_single_iff false n]
      obtain ⟨t, rfl, h⟩ | h := e.asOperand_cases (e.emit false n).code
      · rw [h, Expr.emit]
        simp
      · rw [h, Instr.single_cons rfl]
    rw [Expr.emitOperands, Instr.single_append (Expr.head_emitOperands es _), he,
      Expr.emitOperands_single_iff es]
    simp

end

/-- A return whose value is another return. -/
def Expr.nestsReturn : Expr → Bool
  | .ret e => e.isReturn
  | _ => false

/-- Inside the expression, nothing but returns ends by returning. -/
def Expr.Written (e : Expr) : Prop :=
  e.All fun x => x.endsReturning = x.isReturn ∧ x.repeatsReturn = x.nestsReturn

namespace Expr.Written

variable {e : Expr}

theorem root (h : e.Written) : e.endsReturning = e.isReturn := (all_iff.mp h).2.1

theorem of_children (hends : e.endsReturning = e.isReturn) (hrepeats : e.repeatsReturn = e.nestsReturn)
    (h : ∀ c ∈ e.children, c.Written) : e.Written := all_iff.mpr ⟨h, hends, hrepeats⟩

end Expr.Written

namespace Grammar

/-- The last thing that declarations do is to push. -/
theorem IsVars.endsReturning : ∀ {ts : List Token} {b : Body}, IsVars ts b → b.endsReturning = false
  | _, _, .one h => by cases h <;> rfl
  | _, _, .more _ _ h => h.endsReturning

mutual

theorem IsBody.written : ∀ {ts : List Token} {b : Body}, IsBody ts b → ∀ e ∈ b.toList, e.Written
  | _, _, .bare h => by simpa [Body.toList] using h.written
  | _, _, .braces _ h _ => h.written

theorem IsStatements.written : ∀ {ts : List Token} {b : Body}, IsStatements ts b →
    ∀ e ∈ b.toList, e.Written
  | _, _, .one h _ => by simpa [Body.toList] using h.written
  | _, _, .more h _ h' => List.forall_mem_cons.mpr ⟨h.written, h'.written⟩

theorem IsExpr.written : ∀ {ts : List Token} {e : Expr}, IsExpr ts e → e.Written
  | _, _, .ret _ h => .of_children rfl h.written.root (by simpa [Expr.children] using h.written)
  | _, _, .var _ h => .of_children h.endsReturning rfl h.written
  | _, _, .store _ _ _ h => .of_children rfl rfl (by simpa [Expr.children] using h.written)
  | _, _, .disjunction h => h.written

theorem IsVar.written : ∀ {ts : List Token} {e : Expr}, IsVar ts e → e.Written
  | _, _, .bare _ => .of_children rfl rfl (by simpa [Expr.children] using .of_children rfl rfl nofun)
  | _, _, .init _ _ h => .of_children rfl rfl (by simpa [Expr.children] using h.written)

theorem IsVars.written : ∀ {ts : List Token} {b : Body}, IsVars ts b → ∀ e ∈ b.toList, e.Written
  | _, _, .one h => by simpa [Body.toList] using h.written
  | _, _, .more h _ h' => List.forall_mem_cons.mpr ⟨h.written, h'.written⟩

theorem IsDisjunction.written : ∀ {ts : List Token} {e : Expr}, IsDisjunction ts e → e.Written
  | _, _, .conjunction h => h.written
  | _, _, .or h _ h' => .of_children rfl rfl (by simp [Expr.children, h.written, h'.written])

theorem IsConjunction.written : ∀ {ts : List Token} {e : Expr}, IsConjunction ts e → e.Written
  | _, _, .negation h => h.written
  | _, _, .and h _ h' => .of_children rfl rfl (by simp [Expr.children, h.written, h'.written])

theorem IsNegation.written : ∀ {ts : List Token} {e : Expr}, IsNegation ts e → e.Written
  | _, _, .not _ h => .of_children rfl rfl (by simpa [Expr.children] using h.written)
  | _, _, .binary h => h.written

theorem IsBinary.written : ∀ {c : Option OpClass} {ts : List Token} {e : Expr}, IsBinary c ts e →
    e.Written
  | _, _, _, .small h => h.written
  | _, _, _, .tighter h => h.written
  | _, _, _, .left _ h _ h' | _, _, _, .right h _ h' =>
    .of_children rfl rfl (by simp [Expr.children, h.written, h'.written])

theorem IsSmall.written : ∀ {ts : List Token} {e : Expr}, IsSmall ts e → e.Written
  | _, _, .fetch _ _ | _, _, .literal _ => .of_children rfl rfl nofun
  | _, _, .call _ _ h _ => .of_children rfl rfl h.written
  | _, _, .parens _ h _ => h.written
  | _, _, .unary _ h => .of_children rfl rfl (by simpa [Expr.children] using h.written)
  | _, _, .cond h => h.written
  | _, _, .loop _ h h' => .of_children rfl rfl (List.forall_mem_cons.mpr ⟨h.written, h'.written⟩)

theorem IsArgs.written : ∀ {ts : List Token} {es : List Expr}, IsArgs ts es → ∀ e ∈ es, e.Written
  | _, _, .none => nofun
  | _, _, .some h => h.written

theorem IsExprs.written : ∀ {ts : List Token} {es : List Expr}, IsExprs ts es → ∀ e ∈ es, e.Written
  | _, _, .one h => by simpa using h.written
  | _, _, .more h _ h' => List.forall_mem_cons.mpr ⟨h.written, h'.written⟩

theorem IsIf.written : ∀ {ts : List Token} {e : Expr}, IsIf ts e → e.Written
  | _, _, .ifThen _ h h' => .of_children rfl rfl (List.forall_mem_cons.mpr ⟨h.written, h'.written⟩)
  | _, _, .ifElse _ h h' _ h'' => .of_children rfl rfl
    (List.forall_mem_cons.mpr ⟨h.written, List.forall_mem_append.mpr ⟨h'.written, h''.written⟩⟩)

end

end Grammar

/-- No return stands right behind an instruction that returns. -/
def Routine.ReturnsOnce (r : Routine) : Prop :=
  ∀ pc i, r.code[pc]? = some i → i.returns = true → r.code[pc + 1]? ≠ some .ret

/-- What is written has a return behind a return where it has a return of a return. -/
theorem Expr.Written.returnsOnce_iff {e : Expr} (h : e.Written) :
    e.ReturnsOnce ↔ e.All fun x => x.nestsReturn = false := by
  refine forall₂_congr fun x hx => ?_
  simp only [(h x hx).2]

/-- Every return of a return, and nothing else, leaves a return behind a return. -/
theorem Function.returnsOnce_routine_iff {f : Function} (h : ∀ e ∈ f.body.toList, e.Written)
    (n : Label) : (f.routine n).1.ReturnsOnce ↔ ∀ x ∈ f.nodes, x.expr.nestsReturn = false := by
  have hcode : (f.routine n).1.ReturnsOnce ↔ ∀ e ∈ f.body.toList, e.ReturnsOnce :=
    Instr.single_iff_getElem?.symm.trans (f.body.emit_single_iff true n)
  have hnodes : (Expr.block f.body).All (fun x => x.nestsReturn = false) ↔
      ∀ e ∈ f.body.toList, e.All fun x => x.nestsReturn = false := by
    rw [Expr.all_iff]
    simp [Expr.children, Expr.nestsReturn]
  refine hcode.trans (Iff.trans ?_ hnodes.symm)
  exact forall₂_congr fun e he => (h e he).returnsOnce_iff

theorem Routine.ofFunctions_returnsOnce_iff {ts : List Token} {fs : List Function}
    (h : Grammar.IsProgram ts fs) (n : Label) :
    List.Forall₂ (fun f r => r.ReturnsOnce ↔ ∀ x ∈ f.nodes, x.expr.nestsReturn = false) fs
      (ofFunctions fs n).1 := by
  induction h generalizing n with
  | nil => exact .nil
  | cons hf _ ih =>
    cases hf with
    | mk _ _ _ _ _ _ hbody => exact .cons (Function.returnsOnce_routine_iff hbody.written n) (ih _)

/-- In the code of a source, a return stands right behind an instruction that returns exactly in the
functions that have a return of a return written in them. -/
theorem Program.routines_returnOnce_iff {source : String} {p : Program}
    (h : Program.ofSource source = .ok p) :
    List.Forall₂ (fun f r => r.ReturnsOnce ↔ ∀ x ∈ f.nodes, x.expr.nestsReturn = false)
      p.functions p.routines := by
  obtain ⟨ts, -, hp⟩ := exists_tokens_of_ofSource h
  obtain ⟨s, hs⟩ := ofTokens_eq_ok.mp hp
  have hkinds : ∀ t ∈ (Parser.State.ofTokens ts).tokens, t.kind ≠ .eof := by
    intro t ht
    simpa using List.mem_takeWhile_imp ht
  exact Routine.ofFunctions_returnsOnce_iff (Phrase.parse_program_isProgram hkinds hs) 0

/-- A return of a branch, with a return in one of its arms, and a return of a variable. -/
theorem Program.routines_returnOnce_of_arms :
    let f : Function := ⟨"f", 1, .last (.ret (.ifElse (.fetch 0) (.last (.ret (.literal "1")))
      (.last (.ret (.store 0 (.ret (.fetch 0)))))))⟩
    Program.ofSource "fun f(x) = return if x return 1 else return x = return x" = .ok ⟨[f]⟩ ∧
    List.Forall₂ (fun f r => r.ReturnsOnce ↔ ∀ x ∈ f.nodes, x.expr.nestsReturn = false)
      [f] (Program.mk [f]).routines := by
  intro f
  have h : Program.ofSource "fun f(x) = return if x return 1 else return x = return x" = .ok ⟨[f]⟩ := by
    decide +kernel
  exact ⟨h, routines_returnOnce_iff h⟩

/-- The value of the outer return has returned already, and the outer return comes behind it. -/
theorem Program.not_returnsOnce_of_nested_return :
    ∃ p, Program.ofSource "fun f() = return return 1" = .ok p ∧ ∃ r ∈ p.routines, ¬ r.ReturnsOnce := by
  refine ⟨⟨[⟨"f", 0, .last (.ret (.ret (.literal "1")))⟩]⟩, by decide +kernel,
    ⟨"f", 0, [.makeValR "1", .ret]⟩, by decide, ?_⟩
  intro h
  exact h 0 (.makeValR "1") rfl rfl rfl

end Morpho
