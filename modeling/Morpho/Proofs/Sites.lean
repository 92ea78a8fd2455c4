import Morpho.Proofs.Jumps
import Morpho.Proofs.Relabel

/-! The code of every expression inside a function. It stands in the code of the function, it is closed,
and the branches of the function that go back are those that close a loop. -/
namespace Morpho

open Morpho.Instr

/-- An expression inside a function, and the code that it has there from a place on. -/
structure Site where
  expr : Expr
  place : Nat
  code : List Instr

namespace Site

def of (e : Expr) (tail : Bool) (n : Label) (pc : Nat) : Site := ⟨e, pc, (e.emit tail n).code⟩

/-- Where the branch that closes a loop stands: behind the label of its start, its test, the branch
out of it and its body. -/
def back? (σ : Site) : Option Nat :=
  match σ.expr with
  | .loop c b => some (σ.place + (c.emit false 0).code.length + (b.emit false 0).code.length + 2)
  | _ => none

end Site

mutual

/-- The sites of an expression and of all expressions in it, if its code starts at place `pc` and its
labels at `n`. -/
def Expr.sites : Expr → Bool → Label → Nat → List Site
  | .literal t, tail, n, pc => [.of (.literal t) tail n pc]
  | .fetch s, tail, n, pc => [.of (.fetch s) tail n pc]
  | .store s e, tail, n, pc => .of (.store s e) tail n pc :: e.sites false n pc
  | .call f args, tail, n, pc => .of (.call f args) tail n pc :: Expr.sitesArgs args n pc
  | .ret e, tail, n, pc => .of (.ret e) tail n pc :: e.sites e.isLeaf n pc
  | .ifThen c y, tail, n, pc =>
    let test := c.emit false (n + 1)
    .of (.ifThen c y) tail n pc :: (c.sites false (n + 1) pc ++
      y.sites tail test.next (pc + test.code.length + 1))
  | .ifElse c y o, tail, n, pc =>
    let test := c.emit false (n + 2)
    let yes := y.emit tail test.next
    .of (.ifElse c y o) tail n pc :: (c.sites false (n + 2) pc ++
      (y.sites tail test.next (pc + test.code.length + 1) ++
        o.sites tail yes.next (pc + test.code.length + 1 + yes.code.length + 2)))
  | .block b, tail, n, pc => .of (.block b) tail n pc :: b.sites tail n pc
  | .loop c b, tail, n, pc =>
    let test := c.emit false (n + 2)
    .of (.loop c b) tail n pc :: (c.sites false (n + 2) (pc + 1) ++
      b.sites false test.next (pc + 1 + test.code.length + 1))
  | .or l r, tail, n, pc =>
    let left := l.emit false (n + 1)
    .of (.or l r) tail n pc :: (l.sites false (n + 1) pc ++
      r.sites tail left.next (pc + left.code.length + 1))
  | .and l r, tail, n, pc =>
    let left := l.emit false (n + 1)
    .of (.and l r) tail n pc :: (l.sites false (n + 1) pc ++
      r.sites tail left.next (pc + left.code.length + 1))
  | .not e, tail, n, pc => .of (.not e) tail n pc :: e.sites false n pc
  | .decl e, tail, n, pc => .of (.decl e) tail n pc :: e.sites false n pc

def Body.sites : Body → Bool → Label → Nat → List Site
  | .last e, tail, n, pc => e.sites tail n pc
  | .cons e rest, tail, n, pc =>
    let first := e.emit false n
    e.sites false n pc ++ rest.sites tail first.next (pc + first.code.length)

def Expr.sitesArgs : List Expr → Label → Nat → List Site
  | [], _, _ => []
  | e :: es, n, pc =>
    let first := e.emit false n
    e.sites false n pc ++ Expr.sitesOperands es first.next (pc + first.code.length)

/-- A literal behind the first argument is one instruction with the push before it. -/
def Expr.sitesOperands : List Expr → Label → Nat → List Site
  | [], _, _ => []
  | .literal t :: es, n, pc => ⟨.literal t, pc, [.makeValP t]⟩ :: Expr.sitesOperands es n (pc + 1)
  | e :: es, n, pc =>
    let first := e.emit false n
    e.sites false n (pc + 1) ++ Expr.sitesOperands es first.next (pc + 1 + first.code.length)

end

/-- The sites `σs` are in the code `c`, which starts at place `pc`: each has its code there, closed in
itself, and the branches of `c` that go back are those that close a loop. -/
structure Sited (σs : List Site) (pc : Nat) (c : List Instr) : Prop where
  behind : ∀ σ ∈ σs, pc ≤ σ.place
  placed : ∀ {code}, Placed code pc c → ∀ σ ∈ σs, Placed code σ.place σ.code
  matched : ∀ σ ∈ σs, Matched σ.code
  backward : ∀ i, Backward c i ↔ ∃ σ ∈ σs, σ.back? = some (pc + i)

namespace Sited

variable {σs σs' : List Site} {pc : Nat} {c c' : List Instr}

theorem nil (pc : Nat) : Sited [] pc [] where
  behind := by simp
  placed := by simp
  matched := by simp
  backward i := by simp [not_backward_of_targets targets_nil]

theorem instr (pc : Nat) (i : Instr) : Sited [] pc [i] where
  behind := by simp
  placed := by simp
  matched := by simp
  backward j := by simp [not_backward_single]

theorem closing (pc : Nat) (tail : Bool) : Sited [] pc (closing tail) := by
  cases tail with
  | true => exact .instr pc .ret
  | false => exact .nil pc

/-- No site closes a loop before its own place. -/
theorem back?_le {σ : Site} {i : Nat} (h : σ.back? = some i) : σ.place ≤ i := by
  simp only [Site.back?] at h
  split at h
  · simp only [Option.some.injEq] at h
    omega
  · cases h

theorem append (h : ∀ l : Nat, l ∈ targets c' → l ∉ labels c) (hc : Sited σs pc c)
    (hc' : Sited σs' (pc + c.length) c') : Sited (σs ++ σs') pc (c ++ c') where
  behind σ hσ := by
    obtain hσ | hσ := List.mem_append.mp hσ
    · exact hc.behind σ hσ
    · have hle := hc'.behind σ hσ
      omega
  placed hp σ hσ := by
    obtain ⟨hp, hp'⟩ := (Placed.append_iff ..).mp hp
    obtain hσ | hσ := List.mem_append.mp hσ
    · exact hc.placed hp σ hσ
    · exact hc'.placed hp' σ hσ
  matched σ hσ := by
    obtain hσ | hσ := List.mem_append.mp hσ
    · exact hc.matched σ hσ
    · exact hc'.matched σ hσ
  backward i := by
    rw [backward_append h, hc.backward]
    constructor
    · rintro (⟨σ, hσ, hb⟩ | ⟨k, rfl, hk⟩)
      · exact ⟨σ, List.mem_append_left _ hσ, hb⟩
      · obtain ⟨σ, hσ, hb⟩ := (hc'.backward k).mp hk
        exact ⟨σ, List.mem_append_right _ hσ, by rw [hb, Nat.add_assoc]⟩
    · rintro ⟨σ, hσ, hb⟩
      obtain hσ | hσ := List.mem_append.mp hσ
      · exact .inl ⟨σ, hσ, hb⟩
      · have hle := hc'.behind σ hσ
        have hle' := back?_le hb
        refine .inr ⟨i - c.length, by omega, (hc'.backward _).mpr ⟨σ, hσ, ?_⟩⟩
        rw [hb]
        congr 1
        omega

/-- Code without labels may stand before any other. -/
theorem cons {i : Instr} (hi : i.label? = none) (h : Sited σs (pc + 1) c) :
    Sited σs pc (i :: c) :=
  append (c := [i]) (by simp [hi]) (.instr pc i) h

/-- An instruction that branches to no label of `c` may stand behind it. -/
theorem snoc {i : Instr} (hi : ∀ l : Nat, i.target? = some l → l ∉ labels c) (h : Sited σs pc c) :
    Sited σs pc (c ++ [i]) := by
  have h' := h.append (by simpa [Option.mem_toList] using hi) (.instr _ i)
  simpa using h'

theorem close (tail : Bool) (h : Sited σs pc c) : Sited σs pc (c ++ Instr.closing tail) := by
  have h' := h.append (by simp) (.closing _ tail)
  simpa using h'

theorem skip {b : Instr} {l : Label} (hb : b.target? = some l) (h : Sited σs (pc + 1) c) :
    Sited σs pc (b :: c ++ [.label l]) :=
  (h.cons (label?_of_target? hb)).snoc (by simp [target?])

/-- All that is emitted for an expression other than a loop is its site. -/
theorem here {σ : Site} (hp : σ.place = pc) (hm : Matched σ.code) (hb : σ.back? = none)
    (h : Sited σs pc σ.code) : Sited (σ :: σs) pc σ.code where
  behind := by simpa [hp] using h.behind
  placed hc := by
    rw [List.forall_mem_cons, hp]
    exact ⟨hc, h.placed hc⟩
  matched := by
    rw [List.forall_mem_cons]
    exact ⟨hm, h.matched⟩
  backward i := by simp [h.backward, hb]

/-- A loop is a site too, and the branch to its start goes back. -/
theorem loop {σ : Site} {l : Label} (r : Label) (tail : Bool)
    (hc : σ.code = .label l :: c ++ .go l :: .label r :: Instr.closing tail) (hp : σ.place = pc)
    (hm : Matched σ.code) (hb : σ.back? = some (pc + (c.length + 1)))
    (h : Sited σs pc (.label l :: c)) : Sited (σ :: σs) pc σ.code where
  behind := by simpa [hp] using h.behind
  placed hcode := by
    rw [List.forall_mem_cons, hp]
    refine ⟨hcode, h.placed ?_⟩
    rw [hc] at hcode
    exact ((Placed.append_iff ..).mp hcode).1
  matched := by
    rw [List.forall_mem_cons]
    exact ⟨hm, h.matched⟩
  backward i := by
    have hsplit : σ.code = (.label l :: c ++ [.go l]) ++ (.label r :: Instr.closing tail) := by
      simp [hc]
    have hrest : targets (.label r :: Instr.closing tail) = [] := by simp [target?]
    have hback : (∃ a, (Instr.go l).target? = some a ∧ a ∈ labels (.label l :: c)) ↔ True := by
      simp [target?, label?]
    rw [hsplit, backward_append (by simp [hrest]), backward_snoc, h.backward, hback]
    simp [not_backward_of_targets hrest, hb, or_comm, eq_comm]

end Sited

theorem Expr.mem_labels_emit {e : Expr} {tail : Bool} {n l : Nat} :
    l ∈ labels (e.emit tail n).code ↔ n ≤ l ∧ l < (e.emit tail n).next :=
  (e.emit_fills tail n).mem_iff

theorem Body.mem_labels_emit {b : Body} {tail : Bool} {n l : Nat} :
    l ∈ labels (b.emit tail n).code ↔ n ≤ l ∧ l < (b.emit tail n).next :=
  (b.emit_fills tail n).mem_iff

/-- The code of an expression branches to its own labels only. -/
theorem Expr.mem_targets_emit {e : Expr} {tail : Bool} {n l : Nat} :
    l ∈ targets (e.emit tail n).code ↔ n ≤ l ∧ l < (e.emit tail n).next :=
  (e.emit_matched tail n).mem_iff.trans mem_labels_emit

theorem Body.mem_targets_emit {b : Body} {tail : Bool} {n l : Nat} :
    l ∈ targets (b.emit tail n).code ↔ n ≤ l ∧ l < (b.emit tail n).next :=
  (b.emit_matched tail n).mem_iff.trans mem_labels_emit

theorem Expr.mem_targets_emitOperands {es : List Expr} {n l : Nat} :
    l ∈ targets (Expr.emitOperands es n).code ↔ n ≤ l ∧ l < (Expr.emitOperands es n).next :=
  (Expr.emitOperands_matched es n).mem_iff.trans (Expr.emitOperands_fills es n).mem_iff

mutual

theorem Expr.emit_sited : ∀ (e : Expr) (tail : Bool) (n pc : Nat),
    Sited (e.sites tail n pc) pc (e.emit tail n).code
  | .literal t, tail, n, pc => by
    apply Sited.here rfl ((Expr.literal t).emit_matched tail n) rfl
    exact .instr pc _
  | .fetch s, tail, n, pc => by
    apply Sited.here rfl ((Expr.fetch s).emit_matched tail n) rfl
    exact .instr pc _
  | .store s e, tail, n, pc => by
    apply Sited.here rfl ((Expr.store s e).emit_matched tail n) rfl
    apply (e.emit_sited false n pc).snoc
    cases tail <;> simp [target?]
  | .call f args, tail, n, pc => by
    apply Sited.here rfl ((Expr.call f args).emit_matched tail n) rfl
    apply (Expr.emitArgs_sited args n pc).snoc
    cases tail <;> simp [target?]
  | .ret e, tail, n, pc => by
    apply Sited.here rfl ((Expr.ret e).emit_matched tail n) rfl
    exact (e.emit_sited e.isLeaf n pc).close _
  | .ifThen c y, tail, n, pc => by
    apply Sited.here rfl ((Expr.ifThen c y).emit_matched tail n) rfl
    have hy := (y.emit_sited tail (c.emit false (n + 1)).next
      (pc + (c.emit false (n + 1)).code.length + 1)).skip (b := .goFalse n) rfl
    have h := ((c.emit_sited false (n + 1) pc).append ?_ hy).close tail
    · simpa [Site.of, Expr.emit] using h
    · intro l ht hl
      simp [target?, Body.mem_targets_emit] at ht
      rw [Expr.mem_labels_emit] at hl
      omega
  | .ifElse c y o, tail, n, pc => by
    apply Sited.here rfl ((Expr.ifElse c y o).emit_matched tail n) rfl
    have hcl := (c.emit_fills false (n + 2)).le
    have hyl := (y.emit_fills tail (c.emit false (n + 2)).next).le
    have hy := y.emit_sited tail (c.emit false (n + 2)).next
      (pc + (c.emit false (n + 2)).code.length + 1)
    have ho := o.emit_sited tail (y.emit tail (c.emit false (n + 2)).next).next
      (pc + (c.emit false (n + 2)).code.length + 1 +
        (y.emit tail (c.emit false (n + 2)).next).code.length + 2)
    -- the branch to the end of both arms and the label of the second stand between the arms
    have hyes := (hy.snoc (i := .go (n + 1)) ?_).snoc (i := .label n) (by simp [target?])
    · have harms := hyes.append ?_ (by simpa [Nat.add_assoc] using ho)
      · have h := (c.emit_sited false (n + 2) pc).append ?_
          ((harms.cons (i := .goFalse n) rfl).snoc (i := .label (n + 1)) (by simp [target?]))
        · simpa [Site.of, Expr.emit, Nat.add_assoc] using h
        · intro l ht hl
          simp [target?, Body.mem_targets_emit] at ht
          rw [Expr.mem_labels_emit] at hl
          omega
      · intro l ht hl
        rw [Body.mem_targets_emit] at ht
        simp [label?, Body.mem_labels_emit] at hl
        omega
    · intro l ht hl
      obtain rfl : n + 1 = l := by simpa [target?] using ht
      rw [Body.mem_labels_emit] at hl
      omega
  | .block b, tail, n, pc => by
    apply Sited.here rfl ((Expr.block b).emit_matched tail n) rfl
    exact b.emit_sited tail n pc
  | .loop c b, tail, n, pc => by
    have hcl := (c.emit_fills false (n + 2)).le
    have hc := c.emit_sited false (n + 2) (pc + 1)
    have hb := (b.emit_sited false (c.emit false (n + 2)).next
      (pc + 1 + (c.emit false (n + 2)).code.length + 1)).cons (i := .goFalse (n + 1)) rfl
    have hparts := hc.append ?_ hb
    · have h := Sited.append (c := [.label n]) ?_ (.instr pc _) hparts
      · apply Sited.loop (n + 1) tail ?_ rfl ((Expr.loop c b).emit_matched tail n) ?_ h
        · simp [Site.of, Expr.emit]
        · simp [Site.of, Site.back?, c.length_emit false (n + 2),
            b.length_emit false (c.emit false (n + 2)).next]
          omega
      · intro l ht hl
        simp [target?, Expr.mem_targets_emit, Body.mem_targets_emit] at ht
        simp [label?] at hl
        omega
    · intro l ht hl
      simp [target?, Body.mem_targets_emit] at ht
      rw [Expr.mem_labels_emit] at hl
      omega
  | .or l r, tail, n, pc => by
    apply Sited.here rfl ((Expr.or l r).emit_matched tail n) rfl
    have hr := (r.emit_sited tail (l.emit false (n + 1)).next
      (pc + (l.emit false (n + 1)).code.length + 1)).skip (b := .goTrue n) rfl
    have h := ((l.emit_sited false (n + 1) pc).append ?_ hr).close tail
    · simpa [Site.of, Expr.emit] using h
    · intro a ht hl
      simp [target?, Expr.mem_targets_emit] at ht
      rw [Expr.mem_labels_emit] at hl
      omega
  | .and l r, tail, n, pc => by
    apply Sited.here rfl ((Expr.and l r).emit_matched tail n) rfl
    have hr := (r.emit_sited tail (l.emit false (n + 1)).next
      (pc + (l.emit false (n + 1)).code.length + 1)).skip (b := .goFalse n) rfl
    have h := ((l.emit_sited false (n + 1) pc).append ?_ hr).close tail
    · simpa [Site.of, Expr.emit] using h
    · intro a ht hl
      simp [target?, Expr.mem_targets_emit] at ht
      rw [Expr.mem_labels_emit] at hl
      omega
  | .not e, tail, n, pc => by
    apply Sited.here rfl ((Expr.not e).emit_matched tail n) rfl
    apply (e.emit_sited false n pc).snoc
    cases tail <;> simp [target?]
  | .decl e, tail, n, pc => by
    apply Sited.here rfl ((Expr.decl e).emit_matched tail n) rfl
    have h := ((e.emit_sited false n pc).snoc (i := .push) (by simp [target?])).close tail
    simpa [Site.of, Expr.emit] using h

theorem Body.emit_sited : ∀ (b : Body) (tail : Bool) (n pc : Nat),
    Sited (b.sites tail n pc) pc (b.emit tail n).code
  | .last e, tail, n, pc => e.emit_sited tail n pc
  | .cons e rest, tail, n, pc => by
    apply (e.emit_sited false n pc).append ?_ (rest.emit_sited tail (e.emit false n).next _)
    intro l ht hl
    rw [Body.mem_targets_emit] at ht
    rw [Expr.mem_labels_emit] at hl
    omega

theorem Expr.emitArgs_sited : ∀ (es : List Expr) (n pc : Nat),
    Sited (Expr.sitesArgs es n pc) pc (Expr.emitArgs es n).code
  | [], n, pc => .nil pc
  | e :: es, n, pc => by
    apply (e.emit_sited false n pc).append ?_ (Expr.emitOperands_sited es (e.emit false n).next _)
    intro l ht hl
    rw [Expr.mem_targets_emitOperands] at ht
    rw [Expr.mem_labels_emit] at hl
    omega

theorem Expr.emitOperands_sited : ∀ (es : List Expr) (n pc : Nat),
    Sited (Expr.sitesOperands es n pc) pc (Expr.emitOperands es n).code
  | [], n, pc => .nil pc
  | e :: es, n, pc => by
    have hes := Expr.emitOperands_sited es (e.emit false n).next
      (pc + 1 + (e.emit false n).code.length)
    have hlen : pc + 1 + (e.emit false n).code.length =
        pc + (Instr.push :: (e.emit false n).code).length := by
      simp
      omega
    rw [hlen] at hes
    have hpush := ((e.emit_sited false n (pc + 1)).cons (i := .push) rfl).append ?_ hes
    · cases e with
      | literal t =>
        -- the push is part of the instruction
        have hlit := Sited.here (σ := ⟨.literal t, pc, [.makeValP t]⟩) rfl (.instr rfl rfl) rfl
          (.instr pc _)
        exact hlit.append (by simp [label?]) (Expr.emitOperands_sited es n (pc + 1))
      | _ =>
        rw [← hlen] at hpush
        exact hpush
    · intro l ht hl
      rw [Expr.mem_targets_emitOperands] at ht
      simp [label?, Expr.mem_labels_emit] at hl
      omega

end

end Morpho
