import Morpho.Proofs.Derivation
import Morpho.Proofs.Places

/-! Texts on their way through a compilation. What code carries along as text is a lexeme of the source,
or the null that a variable without an initial value starts as. -/
namespace Morpho

mutual

/-- The literals and the names of the functions called, in the order of evaluation. -/
def Expr.texts : Expr → List String
  | .literal t => [t]
  | .fetch _ => []
  | .store _ e | .ret e | .not e | .decl e => e.texts
  | .call f es => Expr.textsAll es ++ [f]
  | .ifThen c y => c.texts ++ y.texts
  | .ifElse c y o => c.texts ++ y.texts ++ o.texts
  | .block b => b.texts
  | .loop c b => c.texts ++ b.texts
  | .or l r | .and l r => l.texts ++ r.texts

def Body.texts : Body → List String
  | .last e => e.texts
  | .cons e rest => e.texts ++ rest.texts

def Expr.textsAll : List Expr → List String
  | [] => []
  | e :: es => e.texts ++ Expr.textsAll es

end

/-- The text that an instruction carries along, if it does. -/
def Instr.texts : Instr → List String
  | makeVal t | makeValR t | makeValP t => [t]
  | call f _ | callR f _ => [f]
  | _ => []

theorem Instr.texts_closing (tail : Bool) : (closing tail).flatMap texts = [] := by
  cases tail <;> rfl

theorem Expr.texts_asOperand (e : Expr) {code : List Instr} (h : code.flatMap Instr.texts = e.texts) :
    (e.asOperand code).flatMap Instr.texts = e.texts := by
  cases e with
  | literal t => rfl
  | _ => exact h

mutual

/-- Code carries along the texts of its expression, each once. -/
theorem Expr.texts_emit : ∀ (e : Expr) (tail : Bool) (n : Label),
    (e.emit tail n).code.flatMap Instr.texts = e.texts
  | .literal t, tail, n => by cases tail <;> rfl
  | .fetch s, tail, n => by cases tail <;> rfl
  | .store s e, tail, n => by
    cases tail <;> simp [Expr.emit, Expr.texts, Instr.texts, e.texts_emit]
  | .call f es, tail, n => by
    cases tail <;> simp [Expr.emit, Expr.texts, Instr.texts, Expr.texts_emitArgs es]
  | .ret e, tail, n => by simp [Expr.emit, Expr.texts, Instr.texts_closing, e.texts_emit]
  | .ifThen c y, tail, n => by
    simp [Expr.emit, Expr.texts, Instr.texts, Instr.texts_closing, c.texts_emit, y.texts_emit]
  | .ifElse c y o, tail, n => by
    simp [Expr.emit, Expr.texts, Instr.texts, c.texts_emit, y.texts_emit, o.texts_emit]
  | .block b, tail, n => by simp [Expr.emit, Expr.texts, b.texts_emit]
  | .loop c b, tail, n => by
    simp [Expr.emit, Expr.texts, Instr.texts, Instr.texts_closing, c.texts_emit, b.texts_emit]
  | .or l r, tail, n => by
    simp [Expr.emit, Expr.texts, Instr.texts, Instr.texts_closing, l.texts_emit, r.texts_emit]
  | .and l r, tail, n => by
    simp [Expr.emit, Expr.texts, Instr.texts, Instr.texts_closing, l.texts_emit, r.texts_emit]
  | .not e, tail, n => by
    cases tail <;> simp [Expr.emit, Expr.texts, Instr.texts, e.texts_emit]
  | .decl e, tail, n => by
    simp [Expr.emit, Expr.texts, Instr.texts, Instr.texts_closing, e.texts_emit]

theorem Body.texts_emit : ∀ (b : Body) (tail : Bool) (n : Label),
    (b.emit tail n).code.flatMap Instr.texts = b.texts
  | .last e, tail, n => e.texts_emit tail n
  | .cons e rest, tail, n => by simp [Body.emit, Body.texts, e.texts_emit, rest.texts_emit]

theorem Expr.texts_emitArgs : ∀ (es : List Expr) (n : Label),
    (Expr.emitArgs es n).code.flatMap Instr.texts = Expr.textsAll es
  | [], n => rfl
  | e :: es, n => by
    simp [Expr.emitArgs, Expr.textsAll, e.texts_emit, Expr.texts_emitOperands es]

theorem Expr.texts_emitOperands : ∀ (es : List Expr) (n : Label),
    (Expr.emitOperands es n).code.flatMap Instr.texts = Expr.textsAll es
  | [], n => rfl
  | e :: es, n => by
    simp [Expr.emitOperands, Expr.textsAll, e.texts_asOperand (e.texts_emit false n),
      Expr.texts_emitOperands es]

end

/-- Kinds of tokens whose lexemes a program may keep. -/
def Token.Kind.isKept : Token.Kind → Bool
  | name | literal | op _ => true
  | _ => false

namespace Grammar

variable {P : String → Prop}

mutual

theorem IsBody.texts (hnull : P "null") : ∀ {ts : List Token} {b : Body}, IsBody ts b →
    (∀ t ∈ ts, t.kind.isKept = true → P t.lexeme) → ∀ x ∈ b.texts, P x
  | _, _, .bare h, hts => h.texts hnull hts
  | _, _, .braces _ h _, hts => h.texts hnull fun t ht => hts t (by simp [ht])

theorem IsStatements.texts (hnull : P "null") : ∀ {ts : List Token} {b : Body}, IsStatements ts b →
    (∀ t ∈ ts, t.kind.isKept = true → P t.lexeme) → ∀ x ∈ b.texts, P x
  | _, _, .one h _, hts => h.texts hnull fun t ht => hts t (by simp [ht])
  | _, _, .more h _ h', hts => List.forall_mem_append.mpr
    ⟨h.texts hnull fun t ht => hts t (by simp [ht]), h'.texts hnull fun t ht => hts t (by simp [ht])⟩

theorem IsExpr.texts (hnull : P "null") : ∀ {ts : List Token} {e : Expr}, IsExpr ts e →
    (∀ t ∈ ts, t.kind.isKept = true → P t.lexeme) → ∀ x ∈ e.texts, P x
  | _, _, .ret _ h, hts => h.texts hnull fun t ht => hts t (by simp [ht])
  | _, _, .var _ h, hts => h.texts hnull fun t ht => hts t (by simp [ht])
  | _, _, .store _ _ _ h, hts => h.texts hnull fun t ht => hts t (by simp [ht])
  | _, _, .disjunction h, hts => h.texts hnull hts

theorem IsVar.texts (hnull : P "null") : ∀ {ts : List Token} {e : Expr}, IsVar ts e →
    (∀ t ∈ ts, t.kind.isKept = true → P t.lexeme) → ∀ x ∈ e.texts, P x
  | _, _, .bare _, _ => by simpa [Expr.texts, Expr.null] using hnull
  | _, _, .init _ _ h, hts => h.texts hnull fun t ht => hts t (by simp [ht])

theorem IsVars.texts (hnull : P "null") : ∀ {ts : List Token} {b : Body}, IsVars ts b →
    (∀ t ∈ ts, t.kind.isKept = true → P t.lexeme) → ∀ x ∈ b.texts, P x
  | _, _, .one h, hts => h.texts hnull hts
  | _, _, .more h _ h', hts => List.forall_mem_append.mpr
    ⟨h.texts hnull fun t ht => hts t (by simp [ht]), h'.texts hnull fun t ht => hts t (by simp [ht])⟩

theorem IsDisjunction.texts (hnull : P "null") : ∀ {ts : List Token} {e : Expr}, IsDisjunction ts e →
    (∀ t ∈ ts, t.kind.isKept = true → P t.lexeme) → ∀ x ∈ e.texts, P x
  | _, _, .conjunction h, hts => h.texts hnull hts
  | _, _, .or h _ h', hts => List.forall_mem_append.mpr
    ⟨h.texts hnull fun t ht => hts t (by simp [ht]), h'.texts hnull fun t ht => hts t (by simp [ht])⟩

theorem IsConjunction.texts (hnull : P "null") : ∀ {ts : List Token} {e : Expr}, IsConjunction ts e →
    (∀ t ∈ ts, t.kind.isKept = true → P t.lexeme) → ∀ x ∈ e.texts, P x
  | _, _, .negation h, hts => h.texts hnull hts
  | _, _, .and h _ h', hts => List.forall_mem_append.mpr
    ⟨h.texts hnull fun t ht => hts t (by simp [ht]), h'.texts hnull fun t ht => hts t (by simp [ht])⟩

theorem IsNegation.texts (hnull : P "null") : ∀ {ts : List Token} {e : Expr}, IsNegation ts e →
    (∀ t ∈ ts, t.kind.isKept = true → P t.lexeme) → ∀ x ∈ e.texts, P x
  | _, _, .not _ h, hts => h.texts hnull fun t ht => hts t (by simp [ht])
  | _, _, .binary h, hts => h.texts hnull hts

theorem IsBinary.texts (hnull : P "null") : ∀ {c : Option OpClass} {ts : List Token} {e : Expr},
    IsBinary c ts e → (∀ t ∈ ts, t.kind.isKept = true → P t.lexeme) → ∀ x ∈ e.texts, P x
  | _, _, _, .small h, hts => h.texts hnull hts
  | _, _, _, .tighter h, hts => h.texts hnull hts
  | _, _, _, .left _ h ht h', hts => by
    have hl := h.texts hnull fun t ht => hts t (by simp [ht])
    have hr := h'.texts hnull fun t ht => hts t (by simp [ht])
    simpa [Expr.texts, Expr.textsAll, or_imp, forall_and, hts, ht, Token.Kind.isKept] using ⟨hl, hr⟩
  | _, _, _, .right h ht h', hts => by
    have hl := h.texts hnull fun t ht => hts t (by simp [ht])
    have hr := h'.texts hnull fun t ht => hts t (by simp [ht])
    simpa [Expr.texts, Expr.textsAll, or_imp, forall_and, hts, ht, Token.Kind.isKept] using ⟨hl, hr⟩

theorem IsSmall.texts (hnull : P "null") : ∀ {ts : List Token} {e : Expr}, IsSmall ts e →
    (∀ t ∈ ts, t.kind.isKept = true → P t.lexeme) → ∀ x ∈ e.texts, P x
  | _, _, .fetch _ _, _ => nofun
  | _, _, .call hf _ h _, hts => by
    have hes := h.texts hnull fun t ht => hts t (by simp [ht])
    simpa [Expr.texts, or_imp, forall_and, hts, hf, Token.Kind.isKept] using hes
  | _, _, .literal ht, hts => by simpa [Expr.texts, ht, Token.Kind.isKept] using hts
  | _, _, .parens _ h _, hts => h.texts hnull fun t ht => hts t (by simp [ht])
  | _, _, .unary ht h, hts => by
    have he := h.texts hnull fun t ht => hts t (by simp [ht])
    simpa [Expr.texts, Expr.textsAll, or_imp, forall_and, hts, ht, Token.Kind.isKept] using he
  | _, _, .cond h, hts => h.texts hnull hts
  | _, _, .loop _ h h', hts => List.forall_mem_append.mpr
    ⟨h.texts hnull fun t ht => hts t (by simp [ht]), h'.texts hnull fun t ht => hts t (by simp [ht])⟩

theorem IsArgs.texts (hnull : P "null") : ∀ {ts : List Token} {es : List Expr}, IsArgs ts es →
    (∀ t ∈ ts, t.kind.isKept = true → P t.lexeme) → ∀ x ∈ Expr.textsAll es, P x
  | _, _, .none, _ => nofun
  | _, _, .some h, hts => h.texts hnull hts

theorem IsExprs.texts (hnull : P "null") : ∀ {ts : List Token} {es : List Expr}, IsExprs ts es →
    (∀ t ∈ ts, t.kind.isKept = true → P t.lexeme) → ∀ x ∈ Expr.textsAll es, P x
  | _, _, .one h, hts => by simpa [Expr.textsAll] using h.texts hnull hts
  | _, _, .more h _ h', hts => List.forall_mem_append.mpr
    ⟨h.texts hnull fun t ht => hts t (by simp [ht]), h'.texts hnull fun t ht => hts t (by simp [ht])⟩

theorem IsIf.texts (hnull : P "null") : ∀ {ts : List Token} {e : Expr}, IsIf ts e →
    (∀ t ∈ ts, t.kind.isKept = true → P t.lexeme) → ∀ x ∈ e.texts, P x
  | _, _, .ifThen _ h h', hts => List.forall_mem_append.mpr
    ⟨h.texts hnull fun t ht => hts t (by simp [ht]), h'.texts hnull fun t ht => hts t (by simp [ht])⟩
  | _, _, .ifElse _ h h' _ h'', hts => by
    have hc := h.texts hnull fun t ht => hts t (by simp [ht])
    have hy := h'.texts hnull fun t ht => hts t (by simp [ht])
    have hn := h''.texts hnull fun t ht => hts t (by simp [ht])
    exact List.forall_mem_append.mpr ⟨List.forall_mem_append.mpr ⟨hc, hy⟩, hn⟩

end

theorem IsFunction.exists_name {ts : List Token} {f : Function} (h : IsFunction ts f) :
    ∃ t ∈ ts, t.kind = .name ∧ t.lexeme = f.name := by
  cases h with
  | @mk _ x _ _ _ _ _ _ _ _ hx _ _ _ _ _ => exact ⟨x, by simp, hx, rfl⟩

theorem IsFunction.texts (hnull : P "null") {ts : List Token} {f : Function} (h : IsFunction ts f)
    (hts : ∀ t ∈ ts, t.kind.isKept = true → P t.lexeme) : P f.name ∧ ∀ x ∈ f.body.texts, P x := by
  obtain ⟨x, hx, hkind, hname⟩ := h.exists_name
  refine ⟨hname ▸ hts x hx (by rw [hkind]; rfl), ?_⟩
  cases h with
  | mk _ _ _ _ _ _ h' => exact h'.texts hnull fun t ht => hts t (by simp [ht])

theorem IsProgram.exists_isFunction {ts : List Token} {fs : List Function} (h : IsProgram ts fs)
    {f : Function} (hf : f ∈ fs) : ∃ us, (∀ t ∈ us, t ∈ ts) ∧ IsFunction us f := by
  induction h with
  | nil => cases hf
  | @cons us ts g fs hg _ ih =>
    rcases List.mem_cons.mp hf with rfl | hf
    · exact ⟨us, fun t ht => List.mem_append_left ts ht, hg⟩
    · obtain ⟨vs, hvs, hfunction⟩ := ih hf
      exact ⟨vs, fun t ht => List.mem_append_right us (hvs t ht), hfunction⟩

end Grammar

namespace Routine

/-- `P` is so of the name of a routine and of every text that its code carries along. -/
structure Each (P : String → Prop) (r : Routine) : Prop where
  name : P r.name
  texts : ∀ i ∈ r.code, ∀ x ∈ i.texts, P x

variable {P : String → Prop}

theorem each_routine {f : Function} (hname : P f.name) (htexts : ∀ x ∈ f.body.texts, P x) (n : Label) :
    (f.routine n).1.Each P := by
  refine ⟨hname, fun i hi x hx => htexts x ?_⟩
  rw [← f.body.texts_emit true n]
  exact List.mem_flatMap.mpr ⟨i, hi, hx⟩

theorem each_ofFunctions (hnull : P "null") {ts : List Token} {fs : List Function}
    (h : Grammar.IsProgram ts fs) (hts : ∀ t ∈ ts, t.kind.isKept = true → P t.lexeme) (n : Label) :
    ∀ r ∈ (ofFunctions fs n).1, r.Each P := by
  induction h generalizing n with
  | nil => exact nofun
  | @cons ts ts' f fs hf _ ih =>
    obtain ⟨hname, htexts⟩ := hf.texts hnull fun t ht => hts t (by simp [ht])
    refine List.forall_mem_cons.mpr ⟨each_routine hname htexts n, ?_⟩
    exact ih (fun t ht => hts t (by simp [ht])) (f.routine n).2

end Routine

/-- The program of a source is the tree of a sentence whose words are lexemes. -/
theorem Program.exists_isProgram_of_ofSource {source : String} {p : Program}
    (h : ofSource source = .ok p) :
    ∃ ts, Grammar.IsProgram ts p.functions ∧ ∀ t ∈ ts, Lexical.Matches t.kind t.lexeme.toList := by
  obtain ⟨ts, hts, hp⟩ := exists_tokens_of_ofSource h
  obtain ⟨init, stop, hsplits, rfl⟩ := Token.exists_splits_of_ok hts
  obtain ⟨s, hs⟩ := ofTokens_eq_ok.mp hp
  have hkinds : ∀ t ∈ init, t.kind ≠ .eof := fun t ht => (hsplits.fits ht).ne_eof
  rw [Parser.State.ofTokens_eof hkinds] at hs
  exact ⟨init, Phrase.parse_program_isProgram hkinds hs, fun t ht => hsplits.fits ht⟩

/-- No text in the code of a source breaks a line. -/
theorem Program.routines_each_inline {source : String} {p : Program} (h : ofSource source = .ok p) :
    ∀ r ∈ p.routines, r.Each fun x => '\n' ∉ x.toList := by
  obtain ⟨ts, hprogram, hfits⟩ := exists_isProgram_of_ofSource h
  exact Routine.each_ofFunctions (by decide) hprogram (fun t ht _ => (hfits t ht).inline.newline) 0

end Morpho
