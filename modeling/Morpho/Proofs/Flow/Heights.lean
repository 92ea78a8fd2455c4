import Morpho.Proofs.Slots
import Morpho.Proofs.Flow.NoFallThrough
import Mathlib.Algebra.Ring.Int.Defs

/-! Operands on the frame. Every place in the code of an expression has a height: the operands that wait
there for a call, counted along the code as it is written. Branches go to places of their own height, so
control finds that many operands at a place whatever way it has come, above the variables that were
declared on the way. -/
namespace Morpho

namespace Instr

/-- The label that an instruction names, as a target or as its own. -/
def ref? : Instr → Option Label
  | go l | goFalse l | goTrue l | label l => some l
  | _ => none

theorem ref?_of_target? {i : Instr} {l : Label} (h : i.target? = some l) : i.ref? = some l := by
  cases i <;> first | exact h | cases h

theorem delta_of_ref? {i : Instr} {l : Label} (h : i.ref? = some l) : i.delta = 0 := by
  cases i <;> first | rfl | cases h

end Instr

namespace Flow

/-- Control goes from `pc` to `m`, and `tr` are the places of the instructions done on the way. -/
inductive Trace (code : List Instr) (pc : Nat) : List Nat → Nat → Prop
  | nil : Trace code pc [] pc
  | snoc {tr : List Nat} {m q : Nat} (h : Trace code pc tr m) (hs : Succ code m q) :
    Trace code pc (tr ++ [m]) q

/-- What the instructions at the places `tr` add to the depth of the frame. -/
def rise (code : List Instr) (tr : List Nat) : Int :=
  (tr.map fun pc => (code[pc]?.map Instr.delta).getD 0).sum

@[simp] theorem rise_nil (code : List Instr) : rise code [] = 0 := rfl

@[simp] theorem rise_append (code : List Instr) (tr tr' : List Nat) :
    rise code (tr ++ tr') = rise code tr + rise code tr' := by
  simp [rise]

theorem rise_single {code : List Instr} {pc : Nat} {i : Instr} (h : code[pc]? = some i) :
    rise code [pc] = i.delta := by
  simp [rise, h]

/-- What an instruction adds to the operands on the frame; variables are none. -/
def gain (i : Instr) (m : Mark) : Int := i.delta - if m = .declare then 1 else 0

/-- The operands that wait at a place, as they are counted along the code. -/
def height : List Instr → List Mark → Nat → Int
  | i :: c, m :: ms, j + 1 => gain i m + height c ms j
  | _, _, _ => 0

theorem height_succ {code : List Instr} {ms : List Mark} {j : Nat} {i : Instr} {m : Mark}
    (hi : code[j]? = some i) (hm : ms[j]? = some m) :
    height code ms (j + 1) = height code ms j + gain i m := by
  induction code generalizing ms j with
  | nil => simp at hi
  | cons i' code ih =>
    cases ms with
    | nil => simp at hm
    | cons m' ms =>
      cases j with
      | zero =>
        simp only [List.getElem?_cons_zero, Option.some.injEq] at hi hm
        simp [height, hi, hm]
      | succ j =>
        have h := ih (by simpa using hi) (by simpa using hm)
        simp only [height, h]
        omega

/-- Along the code, the operands lead from `k` to `k'` and are never fewer than none; `r` are the labels
that are named on the way, with the operands there. -/
inductive Climbs : List Instr → List Mark → Int → Int → List (Nat × Int) → Prop
  | nil {k : Int} (hk : 0 ≤ k) : Climbs [] [] k k []
  | cons {i : Instr} {m : Mark} {c : List Instr} {ms : List Mark} {k k' : Int}
    {r : List (Nat × Int)} (hk : 0 ≤ k) (hm : m = .declare → i = .push)
    (h : Climbs c ms (k + gain i m) k' r) :
    Climbs (i :: c) (m :: ms) k k' ((i.ref?.map (·, k)).toList ++ r)

namespace Climbs

variable {code code' : List Instr} {ms ms' : List Mark} {j k k' : Int} {r r' : List (Nat × Int)}

theorem start_nonneg (h : Climbs code ms k k' r) : 0 ≤ k := by
  cases h with
  | nil hk => exact hk
  | cons hk _ _ => exact hk

theorem append (h : Climbs code ms k j r) (h' : Climbs code' ms' j k' r') :
    Climbs (code ++ code') (ms ++ ms') k k' (r ++ r') := by
  induction h with
  | nil _ => exact h'
  | cons hk hm _ ih =>
    rw [List.append_assoc]
    exact .cons hk hm (ih h')

/-- An instruction that names no label. -/
theorem instr {i : Instr} {m : Mark} (hi : i.ref? = none) (hm : m = .declare → i = .push)
    (hk : 0 ≤ k) (hk' : k' = k + gain i m) (h : 0 ≤ k') : Climbs [i] [m] k k' [] := by
  subst hk'
  have hc := Climbs.cons hk hm (.nil h)
  rwa [hi] at hc

/-- An instruction that names a label. -/
theorem ref {i : Instr} {l : Label} (hi : i.ref? = some l) (h : Climbs code ms k k' r) :
    Climbs (i :: code) (.other :: ms) k k' ((l, k) :: r) := by
  have hg : gain i .other = 0 := by simp [gain, Instr.delta_of_ref? hi]
  have hc := Climbs.cons (i := i) (m := .other) h.start_nonneg (fun hm => by cases hm)
    (by rwa [hg, Int.add_zero])
  rwa [hi] at hc

theorem length_eq (h : Climbs code ms k k' r) : code.length = ms.length := by
  induction h with
  | nil _ => rfl
  | cons _ _ _ ih => simp [ih]

theorem height_nonneg (h : Climbs code ms k k' r) (i : Nat) : 0 ≤ k + height code ms i := by
  induction h generalizing i with
  | nil hk => simpa [height] using hk
  | cons hk _ _ ih =>
    cases i with
    | zero => simpa [height] using hk
    | succ i =>
      have h := ih i
      simp only [height]
      omega

theorem height_length (h : Climbs code ms k k' r) : k' = k + height code ms code.length := by
  induction h with
  | nil _ => simp [height]
  | cons _ _ _ ih =>
    simp only [List.length_cons, height]
    omega

theorem mem_of_ref? (h : Climbs code ms k k' r) {p : Nat} {i : Instr} {l : Label}
    (hp : code[p]? = some i) (hi : i.ref? = some l) : (l, k + height code ms p) ∈ r := by
  induction h generalizing p with
  | nil _ => simp at hp
  | cons _ _ _ ih =>
    cases p with
    | zero =>
      obtain rfl := Option.some.inj hp
      simp [hi, height]
    | succ p =>
      have h := ih (by simpa using hp)
      rw [Int.add_assoc] at h
      exact List.mem_append_right _ h

theorem push_of_declare (h : Climbs code ms k k' r) {p : Nat} {i : Instr}
    (hp : code[p]? = some i) (hm : ms[p]? = some .declare) : i = .push := by
  induction h generalizing p with
  | nil _ => simp at hp
  | cons _ hd _ ih =>
    cases p with
    | zero =>
      obtain rfl := Option.some.inj hp
      exact hd (Option.some.inj hm)
    | succ p => exact ih (by simpa using hp) (by simpa using hm)

end Climbs

/-- The labels in `r` are numbered from `n` on below `m`, and each is at one height. -/
structure Agree (r : List (Nat × Int)) (n m : Nat) : Prop where
  le : n ≤ m
  range : ∀ p ∈ r, n ≤ p.1 ∧ p.1 < m
  unique : ∀ {l a b}, (l, a) ∈ r → (l, b) ∈ r → a = b

namespace Agree

variable {r r' : List (Nat × Int)} {n m q : Nat}

theorem nil (n : Nat) : Agree [] n n := ⟨Nat.le_refl n, nofun, nofun⟩

theorem single (n : Nat) (k : Int) : Agree [(n, k)] n (n + 1) where
  le := Nat.le_succ n
  range := by simp
  unique := by simp +contextual

theorem append (h : Agree r n m) (h' : Agree r' m q) : Agree (r ++ r') n q where
  le := Nat.le_trans h.le h'.le
  range p hp := by
    have hle := h.le
    have hle' := h'.le
    obtain hp | hp := List.mem_append.mp hp
    · have := h.range p hp
      omega
    · have := h'.range p hp
      omega
  unique {l a b} ha hb := by
    obtain ha | ha := List.mem_append.mp ha <;> obtain hb | hb := List.mem_append.mp hb
    · exact h.unique ha hb
    · have := h.range _ ha
      have := h'.range _ hb
      omega
    · have := h'.range _ ha
      have := h.range _ hb
      omega
    · exact h'.unique ha hb

theorem of_subset (hr : r ⊆ r') (h : Agree r' n m) : Agree r n m where
  le := h.le
  range p hp := h.range p (hr hp)
  unique ha hb := h.unique (hr ha) (hr hb)

end Agree

/-- Along the code, the operands lead from `k` to `k'`, and the labels from `n` on below `m` are each at
one height. -/
def Level (c : List Instr) (ms : List Mark) (k k' : Int) (n m : Label) : Prop :=
  ∃ r, Climbs c ms k k' r ∧ Agree r n m

namespace Level

variable {code code' code'' : List Instr} {ms ms' ms'' : List Mark} {j k k' : Int} {n m p q : Label}

theorem nil (hk : 0 ≤ k) (n : Label) : Level [] [] k k n n := ⟨[], .nil hk, .nil n⟩

theorem instr {i : Instr} {x : Mark} (n : Label) (hi : i.ref? = none) (hx : x = .declare → i = .push)
    (hk : 0 ≤ k) (hk' : k' = k + gain i x) (h : 0 ≤ k') : Level [i] [x] k k' n n :=
  ⟨[], .instr hi hx hk hk' h, .nil n⟩

/-- An instruction that leaves the frame as it is. -/
theorem idle {i : Instr} {x : Mark} (n : Label) (hi : i.ref? = none) (hx : x = .declare → i = .push)
    (hg : gain i x = 0) (hk : 0 ≤ k) : Level [i] [x] k k n n :=
  .instr n hi hx hk (by omega) hk

theorem append (h : Level code ms k j n m) (h' : Level code' ms' j k' m p) :
    Level (code ++ code') (ms ++ ms') k k' n p := by
  obtain ⟨r, hc, ha⟩ := h
  obtain ⟨r', hc', ha'⟩ := h'
  exact ⟨r ++ r', hc.append hc', ha.append ha'⟩

theorem closing (tail : Bool) (hk : 0 ≤ k) (n : Label) :
    Level (Instr.closing tail) (Fragment.closing spans tail).marks k k n n := by
  cases tail with
  | true => exact .idle n rfl nofun rfl hk
  | false => exact .nil hk n

/-- A branch past `code'`, behind a test. -/
theorem skip {b : Instr} (hb : b.target? = some n) (h : Level code ms k k (n + 1) m)
    (h' : Level code' ms' k k m p) :
    Level (code ++ (b :: code' ++ [.label n])) (ms ++ (.other :: ms' ++ [.other])) k k n p := by
  obtain ⟨r, hc, ha⟩ := h
  obtain ⟨r', hc', ha'⟩ := h'
  have hend : Climbs [.label n] [.other] k k [(n, k)] := .ref rfl (.nil hc'.start_nonneg)
  refine ⟨_, hc.append (.ref (Instr.ref?_of_target? hb) (hc'.append hend)), ?_⟩
  refine .of_subset ?_ ((Agree.single n k).append (ha.append ha'))
  intro x hx
  simp at hx ⊢
  tauto

theorem either (h : Level code ms k k (n + 2) m) (h' : Level code' ms' k k m p)
    (h'' : Level code'' ms'' k k p q) :
    Level (code ++ (.goFalse n :: code' ++ .go (n + 1) :: .label n :: code'' ++ [.label (n + 1)]))
      (ms ++ (.other :: ms' ++ .other :: .other :: ms'' ++ [.other])) k k n q := by
  obtain ⟨r, hc, ha⟩ := h
  obtain ⟨r', hc', ha'⟩ := h'
  obtain ⟨r'', hc'', ha''⟩ := h''
  have hend : Climbs [.label (n + 1)] [.other] k k [(n + 1, k)] := .ref rfl (.nil hc'.start_nonneg)
  have hno := hc''.append hend
  have hyes := hc'.append (.ref (i := .go (n + 1)) rfl (.ref (i := .label n) rfl hno))
  refine ⟨_, hc.append (.ref (i := .goFalse n) rfl (by simpa using hyes)), ?_⟩
  refine .of_subset ?_ (((Agree.single n k).append (.single (n + 1) k)).append
    (ha.append (ha'.append ha'')))
  intro x hx
  simp at hx ⊢
  tauto

theorem loop (h : Level code ms k k (n + 2) m) (h' : Level code' ms' k k m p) :
    Level (.label n :: code ++ .goFalse (n + 1) :: code' ++ [.go n, .label (n + 1)])
      (.other :: ms ++ .other :: ms' ++ [.other, .other]) k k n p := by
  obtain ⟨r, hc, ha⟩ := h
  obtain ⟨r', hc', ha'⟩ := h'
  have hend : Climbs [.go n, .label (n + 1)] [.other, .other] k k [(n, k), (n + 1, k)] :=
    .ref rfl (.ref rfl (.nil hc'.start_nonneg))
  have hbody := hc.append (.ref (i := .goFalse (n + 1)) rfl (hc'.append hend))
  refine ⟨_, .ref (i := .label n) rfl (by simpa using hbody), ?_⟩
  refine .of_subset ?_ (((Agree.single n k).append (.single (n + 1) k)).append (ha.append ha'))
  intro x hx
  simp at hx ⊢
  tauto

/-- A step leads to the height that the instruction makes of its own. -/
theorem height_of_succ (h : Level code ms 0 k n m) {pc q : Nat} (hs : Succ code pc q) :
    ∃ i x, code[pc]? = some i ∧ ms[pc]? = some x ∧ height code ms q = height code ms pc + gain i x := by
  obtain ⟨r, hc, ha⟩ := h
  have hmark : ∀ {i}, code[pc]? = some i → ∃ x, ms[pc]? = some x := by
    intro i hi
    obtain ⟨hlt, -⟩ := List.getElem?_eq_some_iff.mp hi
    exact ⟨_, List.getElem?_eq_getElem (hc.length_eq ▸ hlt)⟩
  cases hs with
  | next hi _ =>
    obtain ⟨x, hx⟩ := hmark hi
    exact ⟨_, x, hi, hx, height_succ hi hx⟩
  | @jump _ i l hi ht hl =>
    obtain ⟨x, hx⟩ := hmark hi
    have hsame := ha.unique (hc.mem_of_ref? hl rfl) (hc.mem_of_ref? hi (Instr.ref?_of_target? ht))
    have hno : x ≠ .declare := by
      rintro rfl
      rw [hc.push_of_declare hi hx] at ht
      cases ht
    have hg : gain i x = 0 := by
      simp [gain, hno, Instr.delta_of_ref? (Instr.ref?_of_target? ht)]
    exact ⟨i, x, hi, hx, by omega⟩

/-- Whatever way control comes to a place, it finds there as many operands as the height says, above the
variables declared on the way. -/
theorem rise_of_trace (h : Level code ms 0 k n m) {tr : List Nat} {q : Nat} (ht : Trace code 0 tr q) :
    rise code tr = height code ms q + tr.countP (ms[·]? == some .declare) := by
  induction ht with
  | nil => cases code <;> cases ms <;> simp [height]
  | snoc _ hs ih =>
    obtain ⟨i, x, hi, hx, hq⟩ := h.height_of_succ hs
    rw [rise_append, rise_single hi, List.countP_append, ih, hq, gain]
    by_cases hd : x = .declare
    · simp [hx, hd]
      omega
    · simp [hx, hd]
      omega

theorem rise_eq_height (h : Level code ms 0 k n m) (hd : .declare ∉ ms) {tr : List Nat} {q : Nat}
    (ht : Trace code 0 tr q) : rise code tr = height code ms q := by
  have hnone : tr.countP (ms[·]? == some .declare) = 0 := by
    rw [List.countP_eq_zero]
    intro p _ hp
    exact hd (List.mem_of_getElem? (beq_iff_eq.mp hp))
  rw [h.rise_of_trace ht, hnone]
  exact Int.add_zero _

theorem height_nonneg (h : Level code ms 0 k n m) (i : Nat) : 0 ≤ height code ms i := by
  obtain ⟨r, hc, -⟩ := h
  have hi := hc.height_nonneg i
  omega

theorem height_length (h : Level code ms 0 k n m) : height code ms code.length = k := by
  obtain ⟨r, hc, -⟩ := h
  have hk := hc.height_length
  omega

end Level
end Flow

open Morpho.Flow

/-- One more operand. -/
theorem Expr.operand_level {e : Expr} {n : Label} {k : Int} (hk : 0 ≤ k)
    (h : Level (e.emit false n).code (e.fragment spans false).marks (k + 1) (k + 1) n
      (e.emit false n).next) :
    Level (e.asOperand (e.emit false n).code) (e.operandFragment spans (e.fragment spans false)).marks
      k (k + 1) n (e.emit false n).next := by
  have hpush : Level [.push] [.other] k (k + 1) n n := .instr n rfl nofun hk rfl (by omega)
  have hp := hpush.append h
  cases e with
  | literal t => exact .instr n rfl nofun hk rfl (by omega)
  | _ => exact hp

mutual

/-- The code of an expression takes as many operands as it brings, and never one that was there before
it. -/
theorem Expr.emit_level : ∀ (e : Expr) (tail : Bool) (n : Label) {k : Int}, 0 ≤ k →
    Level (e.emit tail n).code (e.fragment spans tail).marks k k n (e.emit tail n).next
  | .literal t, tail, n, k, hk => by cases tail <;> exact .idle n rfl nofun rfl hk
  | .fetch s, tail, n, k, hk => by cases tail <;> exact .idle n rfl nofun rfl hk
  | .store s e, tail, n, k, hk => by
    have h := e.emit_level false n hk
    cases tail <;> exact h.append (.idle _ rfl nofun rfl hk)
  | .call f args, tail, n, k, hk => by
    have h := Expr.emitArgs_level args n hk
    have hpos : 0 ≤ k + ((args.length - 1 : Nat) : Int) := by omega
    cases tail <;> refine h.append (.instr _ rfl nofun hpos ?_ hk) <;> simp [gain, Instr.delta]
  | .ret e, tail, n, k, hk => (e.emit_level e.isLeaf n hk).append (.closing _ hk _)
  | .ifThen c y, tail, n, k, hk => by
    have hc := c.emit_level false (n + 1) hk
    have hy := y.emit_level tail (c.emit false (n + 1)).next hk
    have h := (Level.skip (b := .goFalse n) rfl hc hy).append (.closing tail hk _)
    simpa [Expr.emit, Expr.fragment, Fragment.seq, Fragment.skip] using h
  | .ifElse c y o, tail, n, k, hk => by
    have hc := c.emit_level false (n + 2) hk
    have hy := y.emit_level tail (c.emit false (n + 2)).next hk
    have ho := o.emit_level tail (y.emit tail (c.emit false (n + 2)).next).next hk
    have h := hc.either hy ho
    simpa [Expr.emit, Expr.fragment, Fragment.seq, Fragment.either] using h
  | .block b, tail, n, k, hk => b.emit_level tail n hk
  | .loop c b, tail, n, k, hk => by
    have hc := c.emit_level false (n + 2) hk
    have hb := b.emit_level false (c.emit false (n + 2)).next hk
    have h := (hc.loop hb).append (.closing tail hk _)
    simpa [Expr.emit, Expr.fragment, Fragment.seq, Fragment.loop] using h
  | .or l r, tail, n, k, hk => by
    have hl := l.emit_level false (n + 1) hk
    have hr := r.emit_level tail (l.emit false (n + 1)).next hk
    have h := (Level.skip (b := .goTrue n) rfl hl hr).append (.closing tail hk _)
    simpa [Expr.emit, Expr.fragment, Fragment.seq, Fragment.skip] using h
  | .and l r, tail, n, k, hk => by
    have hl := l.emit_level false (n + 1) hk
    have hr := r.emit_level tail (l.emit false (n + 1)).next hk
    have h := (Level.skip (b := .goFalse n) rfl hl hr).append (.closing tail hk _)
    simpa [Expr.emit, Expr.fragment, Fragment.seq, Fragment.skip] using h
  | .not e, tail, n, k, hk => by
    have h := e.emit_level false n hk
    cases tail <;> exact h.append (.idle _ rfl nofun rfl hk)
  | .decl e, tail, n, k, hk => by
    have h := e.emit_level false n hk
    have hpush : Level [.push] [.declare] k k (e.emit false n).next (e.emit false n).next :=
      .idle _ rfl (fun _ => rfl) rfl hk
    exact h.append (hpush.append (.closing tail hk _))

theorem Body.emit_level : ∀ (b : Body) (tail : Bool) (n : Label) {k : Int}, 0 ≤ k →
    Level (b.emit tail n).code (b.fragment spans tail).marks k k n (b.emit tail n).next
  | .last e, tail, n, _, hk => e.emit_level tail n hk
  | .cons e rest, tail, n, _, hk => (e.emit_level false n hk).append (rest.emit_level tail _ hk)

theorem Expr.emitArgs_level : ∀ (es : List Expr) (n : Label) {k : Int}, 0 ≤ k →
    Level (Expr.emitArgs es n).code (Expr.fragmentArgs spans es).marks k
      (k + ((es.length - 1 : Nat) : Int)) n (Expr.emitArgs es n).next
  | [], n, k, hk => by simpa [Expr.emitArgs, Expr.fragmentArgs, Fragment.nil] using Level.nil hk n
  | e :: es, n, k, hk => (e.emit_level false n hk).append (Expr.emitOperands_level es _ hk)

theorem Expr.emitOperands_level : ∀ (es : List Expr) (n : Label) {k : Int}, 0 ≤ k →
    Level (Expr.emitOperands es n).code (Expr.fragmentOperands spans es).marks k
      (k + (es.length : Int)) n (Expr.emitOperands es n).next
  | [], n, k, hk => by
    simpa [Expr.emitOperands, Expr.fragmentOperands, Fragment.nil] using Level.nil hk n
  | e :: es, n, k, hk => by
    have hk' : 0 ≤ k + 1 := by omega
    have h := (Expr.operand_level hk (e.emit_level false n hk')).append
      (Expr.emitOperands_level es _ hk')
    have hlen : k + ((e :: es).length : Int) = k + 1 + (es.length : Int) := by
      rw [List.length_cons]
      omega
    rw [hlen]
    exact h

end

end Morpho
