import Morpho.Proofs.Readback
import Morpho.Proofs.EagerResolution

/-! Every well-formed program has a source text. Its slots are given names, the names are printed, and
the printed words are read back and resolved to the slots that they came from. -/
namespace Morpho

/-- Kinds of tokens that end every expression in front of them. -/
def Token.Kind.stops : Token.Kind → Bool
  | punct c => c == ')' || c == ';' || c == ',' || c == '{'
  | _ => false

theorem ne_of_stops {k k' : Token.Kind} (h : k.stops = true) (h' : k'.stops = false) :
    k ≠ k' := by
  rintro rfl
  rw [h] at h'
  cases h'

namespace Phrase

variable {k : Token.Kind} {ws : List Word} {o : Outline}

theorem Recovers.negation (h : Recovers small k ws o) (hk : ∀ c, k ≠ .op c)
    (hfirst : Word.first ws k ≠ .keyword .not) : Recovers negation k ws o :=
  recovers_negation ((recovers_binary_none h).climb (by decide) fun c _ => hk c) hfirst

theorem Recovers.disjunction (h : Recovers Phrase.negation k ws o) (hk : k.stops = true) :
    Recovers disjunction k ws o :=
  recovers_disjunction (ne_of_stops hk rfl) (recovers_conjunction (ne_of_stops hk rfl) h)

theorem recovers_expr_of_small (h : Recovers small k ws o) (hk : k.stops = true) (k' : Token.Kind)
    (hfirst : Word.first ws k = k')
    (hk' : k' ∉ [.keyword .not, .keyword .ret, .keyword .var, .name]) : Recovers expr k ws o := by
  subst hfirst
  simp only [List.mem_cons, List.not_mem_nil, or_false, not_or] at hk'
  obtain ⟨hnot, hret, hvar, hname⟩ := hk'
  have hop : ∀ c, k ≠ .op c := fun c => ne_of_stops hk rfl
  exact recovers_expr hret hvar hname ((h.negation hop hnot).disjunction hk)

/-- An operand stands in parentheses. -/
theorem recovers_expr_group (h : Recovers expr (.punct ')') ws o) (hk : k.stops = true) :
    Recovers expr k (Word.group ws) o :=
  recovers_expr_of_small (recovers_group h) hk (.punct '(') rfl (by decide)

end Phrase

open Phrase

/-- A statement does not start with a closing brace. -/
theorem Expr.first_named {e : Expr} (hw : e.wellFormed = true) (n : Nat) (k : Token.Kind)
    (vs : List Word) : Word.first ((e.named n).words ++ vs) k ≠ .punct '}' := by
  cases e with
  | call f es =>
    simp only [Expr.wellFormed, Bool.and_eq_true, Bool.or_eq_true, beq_iff_eq] at hw
    rw [Expr.named, Outline.words]
    split
    case isTrue hf => rintro ⟨⟩
    case isFalse hf =>
      obtain ⟨-, hlength⟩ := hw.1.resolve_left hf
      rcases es with _ | ⟨a, _ | ⟨b, _ | ⟨d, es⟩⟩⟩
      · simp at hlength
      · rintro ⟨⟩
      · rintro ⟨⟩
      · simp at hlength
  | literal t => rintro ⟨⟩
  | _ => rintro ⟨⟩

theorem Body.first_named {b : Body} (hw : b.wellFormed = true) (n : Nat) (k : Token.Kind) :
    Word.first (b.named n).words k ≠ .punct '}' := by
  cases b with
  | last e => exact Expr.first_named hw n k _
  | cons e rest =>
    simp only [Body.wellFormed, Bool.and_eq_true] at hw
    exact Expr.first_named hw.1 n k _

mutual

/-- The words of an expression are read back in front of a parenthesis that closes or a semicolon. -/
theorem Expr.recovers_named : ∀ (e : Expr) (n : Nat) {k : Token.Kind}, e.wellFormed = true →
    k.stops = true → k ≠ .punct ',' → Recovers expr k (e.named n).words (e.named n)
  | .literal t, n, k, _, hk, _ =>
    recovers_expr_of_small (recovers_literal t) hk .literal rfl (by decide)
  | .fetch i, n, k, _, hk, _ => by
    have hop : ∀ c, k ≠ .op c := fun c => ne_of_stops hk rfl
    have h := recovers_fetch (k := k) (slotName i) (ne_of_stops hk rfl)
    exact recovers_expr_of_name (ne_of_stops hk rfl) ((h.negation hop nofun).disjunction hk)
  | .store i e, n, k, hw, hk, _ =>
    recovers_store _ (recovers_expr_group (e.recovers_named n hw rfl nofun) hk)
  | .call f es, n, k, hw, hk, _ => by
    simp only [Expr.wellFormed, Bool.and_eq_true, Bool.or_eq_true, beq_iff_eq] at hw
    have hop : ∀ c, k ≠ .op c := fun c => ne_of_stops hk rfl
    rw [Expr.named, Outline.words]
    split
    case isTrue hf =>
      have hargs : Recovers arguments k (Outline.argumentWords (Expr.namedAll es n))
          (Expr.namedAll es n) := by
        cases es with
        | nil => exact recovers_arguments_nil
        | cons e es =>
          refine recovers_arguments ?_ (Expr.recovers_argumentList (e :: es) n hw.2 (by simp))
          cases es <;> exact nofun
      have h := recovers_call f hargs
      exact recovers_expr_of_name nofun ((h.negation hop nofun).disjunction hk)
    case isFalse hf => exact Expr.recovers_operation f es n hw.2 (hw.1.resolve_left hf).2 hk
  | .ret e, n, k, hw, hk, _ =>
    recovers_ret (recovers_expr_group (e.recovers_named n hw rfl nofun) hk)
  | .ifThen c y, n, k, hw, hk, _ => by
    simp only [Expr.wellFormed, Bool.and_eq_true] at hw
    have hc := recovers_expr_group (k := .punct '{') (c.recovers_named n hw.1 rfl nofun) rfl
    have hy := recovers_braces (k := k) true (y.recovers_named (c.behind n) hw.2)
    have h := recovers_ifThen (ne_of_stops hk rfl) rfl hc hy
    exact recovers_expr_of_small h hk (.keyword .cond) rfl (by decide)
  | .ifElse c y z, n, k, hw, hk, _ => by
    simp only [Expr.wellFormed, Bool.and_eq_true] at hw
    have hc := recovers_expr_group (k := .punct '{') (c.recovers_named n hw.1.1 rfl nofun) rfl
    have hy := recovers_braces (k := .keyword .alt) true (y.recovers_named (c.behind n) hw.1.2)
    have hz := recovers_braces (k := k) true (z.recovers_named (c.behind n) hw.2)
    exact recovers_expr_of_small (recovers_ifElse rfl hc hy hz) hk (.keyword .cond) rfl (by decide)
  | .block b, n, k, hw, hk, hk' => recovers_decls (b.recovers_namedVars n hw hk hk')
  | .loop c b, n, k, hw, hk, _ => by
    simp only [Expr.wellFormed, Bool.and_eq_true] at hw
    have hc := recovers_expr_group (k := .punct '{') (c.recovers_named n hw.1 rfl nofun) rfl
    have hb := recovers_braces (k := k) true (b.recovers_named (c.behind n) hw.2)
    exact recovers_expr_of_small (recovers_loop rfl hc hb) hk (.keyword .loop) rfl (by decide)
  | .or l r, n, k, hw, hk, _ => by
    simp only [Expr.wellFormed, Bool.and_eq_true] at hw
    have hop : ∀ c, k ≠ .op c := fun c => ne_of_stops hk rfl
    have hl := recovers_group (k := .keyword .or) (l.recovers_named n hw.1 rfl nofun)
    have hr := recovers_group (k := k) (r.recovers_named (l.behind n) hw.2 rfl nofun)
    exact recovers_expr nofun nofun nofun (recovers_or
      (recovers_conjunction nofun (hl.negation nofun nofun)) ((hr.negation hop nofun).disjunction hk))
  | .and l r, n, k, hw, hk, _ => by
    simp only [Expr.wellFormed, Bool.and_eq_true] at hw
    have hop : ∀ c, k ≠ .op c := fun c => ne_of_stops hk rfl
    have hl := recovers_group (k := .keyword .and) (l.recovers_named n hw.1 rfl nofun)
    have hr := recovers_group (k := k) (r.recovers_named (l.behind n) hw.2 rfl nofun)
    exact recovers_expr nofun nofun nofun (recovers_disjunction (ne_of_stops hk rfl)
      (recovers_and (hl.negation nofun nofun) (hr.negation hop nofun)))
  | .not e, n, k, hw, hk, _ => by
    have hop : ∀ c, k ≠ .op c := fun c => ne_of_stops hk rfl
    have h := recovers_group (k := k) (e.recovers_named n hw rfl nofun)
    exact recovers_expr nofun nofun nofun ((recovers_not (h.negation hop nofun)).disjunction hk)
  | .decl e, n, k, hw, _, _ => by cases hw

theorem Body.recovers_named : ∀ (b : Body) (n : Nat) {k : Token.Kind}, b.wellFormed = true →
    Recovers statements k (b.named n).words (b.named n)
  | .last e, n, k, hw => recovers_statements_last (e.recovers_named n hw rfl nofun)
  | .cons e rest, n, k, hw => by
    simp only [Body.wellFormed, Bool.and_eq_true] at hw
    exact recovers_statements_cons (Body.first_named hw.2 (e.behind n) k)
      (e.recovers_named n hw.1 rfl nofun) (rest.recovers_named (e.behind n) hw.2)

theorem Body.recovers_namedVars : ∀ (b : Body) (n : Nat) {k : Token.Kind}, b.declares = true →
    k.stops = true → k ≠ .punct ',' → Recovers declarations k (b.namedVars n).words (b.namedVars n)
  | .last (.decl e), n, k, hw, hk, hk' =>
    recovers_declarations_last _ hk' (recovers_expr_group (e.recovers_named n hw rfl nofun) hk)
  | .cons (.decl e) rest, n, k, hw, hk, hk' => by
    simp only [Body.declares, Bool.and_eq_true] at hw
    exact recovers_declarations_cons _ (recovers_expr_group (e.recovers_named n hw.1 rfl nofun) rfl)
      (rest.recovers_namedVars (e.behind n + 1) hw.2 hk hk')

theorem Expr.recovers_operation (f : String) : ∀ (es : List Expr) (n : Nat) {k : Token.Kind},
    Expr.allWellFormed es = true → es.length = 1 ∨ es.length = 2 → k.stops = true →
    Recovers expr k (Outline.operationWords f (Expr.namedAll es n)) (.call f (Expr.namedAll es n))
  | [a], n, k, hw, _, hk => by
    simp only [Expr.allWellFormed, Bool.and_true] at hw
    have h := recovers_unary (k := k) f (recovers_group (a.recovers_named n hw rfl nofun))
    exact recovers_expr_of_small h hk (Word.op f).kind rfl (by simp [Word.op])
  | [a, b], n, k, hw, _, hk => by
    simp only [Expr.allWellFormed, Bool.and_true, Bool.and_eq_true] at hw
    have hop : ∀ c, k ≠ .op c := fun c => ne_of_stops hk rfl
    have h := Phrase.recovers_operation f hop (recovers_group (a.recovers_named n hw.1 rfl nofun))
      (recovers_group (b.recovers_named (a.behind n) hw.2 rfl nofun))
    exact recovers_expr nofun nofun nofun ((recovers_negation h nofun).disjunction hk)

theorem Expr.recovers_argumentList : ∀ (es : List Expr) (n : Nat) {k : Token.Kind},
    Expr.allWellFormed es = true → es ≠ [] →
    Recovers argumentList k (Outline.argumentWords (Expr.namedAll es n)) (Expr.namedAll es n)
  | [], n, k, _, h => absurd rfl h
  | [e], n, k, hw, _ => by
    simp only [Expr.allWellFormed, Bool.and_true] at hw
    exact recovers_argumentList_last (recovers_expr_group (e.recovers_named n hw rfl nofun) rfl)
  | e :: e' :: es, n, k, hw, _ => by
    rw [Expr.allWellFormed, Bool.and_eq_true] at hw
    exact recovers_argumentList_cons (recovers_expr_group (e.recovers_named n hw.1 rfl nofun) rfl)
      (Expr.recovers_argumentList (e' :: es) (e.behind n) hw.2 (by simp))

end

namespace Program

theorem outline_words {p : Program} (h : p.wellFormed = true) :
    Recovers program .eof p.words (p.functions.map Function.named) := by
  have hwords : p.words = (p.functions.map Function.named).flatMap Outline.Proc.words := by
    rw [words, List.flatMap_map]
  rw [hwords]
  refine recovers_program _ fun o ho k => ?_
  obtain ⟨f, hf, rfl⟩ := List.mem_map.mp ho
  have hw := List.all_eq_true.mp h f hf
  simp only [Function.wellFormed, Bool.and_eq_true] at hw
  exact recovers_braces false (f.body.recovers_named f.arity hw.1.2)

theorem resolve_named {p : Program} (h : p.wellFormed = true) :
    (p.functions.map Function.named).mapM Outline.Proc.resolve = some p.functions := by
  obtain ⟨fs⟩ := p
  have hw := List.all_eq_true.mp h
  induction fs with
  | nil => rfl
  | cons f fs ih =>
    have hf := Function.resolve_named (hw f List.mem_cons_self)
    have hfs := fun g hg => hw g (List.mem_cons_of_mem f hg)
    simp [hf, ih (List.all_eq_true.mpr hfs) hfs]

/-- Every well-formed program is what its source text stands for. -/
theorem ofSource_source {p : Program} (h : p.wellFormed = true) : ofSource p.source = .ok p := by
  obtain ⟨ts, q, hts, hwords, hkinds⟩ := Token.scan_chars (spelled_words h) .start
  have htokens : Token.ofSource p.source = .ok (ts ++ [Token.eof q]) := by
    rw [Token.ofSource, Token.ofText, source, String.toList_ofList, hts]
  have hfuel : 16 * p.words.length + program.rank < fuel (ts ++ [Token.eof q]) := by
    rw [← hwords, List.length_map]
    simp only [rank, fuel, List.length_append, List.length_cons, List.length_nil]
    omega
  have hread := outline_words h _ hfuel ts [] q .empty [] hwords rfl
  rw [List.append_nil] at hread
  obtain ⟨s, hs⟩ := parse_program_complete (s := ⟨ts, q, .empty, []⟩) ⟨rfl, rfl, rfl⟩ hread
    (resolve_named h)
  rw [ofSource_of_tokens htokens, ofTokens_eq_ok, Parser.State.ofTokens_eof hkinds]
  exact ⟨s, hs⟩

/-- A slot that two blocks use in turn, a quoted literal, an assignment under an operator and a call
without arguments. -/
theorem ofSource_source_of_blocks :
    let p : Program := ⟨[⟨"main", 1, .cons
      (.ifElse (.call "<" [.fetch 0, .literal "\"a \\\" b\""])
        (.cons (.block (.last (.decl (.fetch 0)))) (.last (.fetch 1)))
        (.cons (.block (.cons (.decl (.literal "2.5e-1")) (.last (.decl (.fetch 1)))))
          (.last (.ret (.fetch 2)))))
      (.last (.and (.not (.fetch 0))
        (.call ":" [.store 0 (.call "--" [.fetch 0]), .call "main" []])))⟩]⟩
    p.wellFormed = true ∧ ofSource p.source = .ok p := by
  intro p
  have h : p.wellFormed = true := by decide +kernel
  exact ⟨h, ofSource_source h⟩

end Program
end Morpho
