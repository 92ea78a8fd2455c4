import Morpho.Proofs.Calls
import Morpho.Proofs.Sites
import Morpho.Proofs.Flow.Heights

/-! The operands of calls are balanced. On every way through its code, an expression never takes from the
frame what was there before it, and what it leaves there are the variables declared on the way. Without
declarations, a call finds on top of the frame what its own arguments have pushed since control last
came to them, and the depth at a place is the same on all ways to it. -/
namespace Morpho

open Morpho.Instr

/-- Every call in the code `c`, which starts at place `pc`, closes the site of its expression; the
arguments there declare no more than `d` variables. -/
def CallsSited (σs : List Site) (pc : Nat) (code : List Instr) (d : Nat) : Prop :=
  ∀ i x y, code[i]? = some x → x.call? = some y → ∃ args n a,
    Site.of (.call y.name args) y.returns n a ∈ σs ∧ args.length = y.argc ∧
      a + (Expr.emitArgs args n).code.length = pc + i ∧ Expr.declsAll args ≤ d

namespace CallsSited

variable {σs σs' : List Site} {pc d d' : Nat} {c c' : List Instr}

theorem nil (pc d : Nat) : CallsSited [] pc [] d := by
  intro i x y hx
  simp at hx

theorem instr {i : Instr} (hi : i.call? = none) (pc d : Nat) : CallsSited [] pc [i] d := by
  intro j x y hx hy
  obtain rfl : i = x := by
    have h := List.mem_of_getElem? hx
    simpa [eq_comm] using h
  cases hi.symm.trans hy

theorem append (h : CallsSited σs pc c d) (h' : CallsSited σs' (pc + c.length) c' d') :
    CallsSited (σs ++ σs') pc (c ++ c') (d + d') := by
  intro i x y hx hy
  by_cases hi : i < c.length
  · rw [List.getElem?_append_left hi] at hx
    obtain ⟨args, n, a, hσ, hargs, ha, hd⟩ := h i x y hx hy
    exact ⟨args, n, a, List.mem_append_left _ hσ, hargs, ha, by omega⟩
  · rw [List.getElem?_append_right (by omega)] at hx
    obtain ⟨args, n, a, hσ, hargs, ha, hd⟩ := h' _ x y hx hy
    exact ⟨args, n, a, List.mem_append_right _ hσ, hargs, by omega, by omega⟩

theorem cons {i : Instr} (hi : i.call? = none) (h : CallsSited σs (pc + 1) c d) :
    CallsSited σs pc (i :: c) d := by
  have h' := (instr hi pc 0).append h
  simpa using h'

theorem snoc {i : Instr} (hi : i.call? = none) (h : CallsSited σs pc c d) :
    CallsSited σs pc (c ++ [i]) d := by
  have h' := h.append (instr hi _ 0)
  simpa using h'

theorem close (tail : Bool) (h : CallsSited σs pc c d) :
    CallsSited σs pc (c ++ Instr.closing tail) d := by
  cases tail with
  | true => exact h.snoc rfl
  | false => simpa [Instr.closing] using h

/-- The site around some others closes no call of theirs. -/
theorem here (σ : Site) (h : CallsSited σs pc c d) : CallsSited (σ :: σs) pc c d := by
  intro i x y hx hy
  obtain ⟨args, n, a, hσ, hrest⟩ := h i x y hx hy
  exact ⟨args, n, a, List.mem_cons_of_mem σ hσ, hrest⟩

theorem weaken (h : CallsSited σs pc c d) (hd : d ≤ d') : CallsSited σs pc c d' := by
  intro i x y hx hy
  obtain ⟨args, n, a, hσ, hargs, ha, hle⟩ := h i x y hx hy
  exact ⟨args, n, a, hσ, hargs, ha, Nat.le_trans hle hd⟩

end CallsSited

mutual

theorem Expr.emit_callsSited : ∀ (e : Expr) (tail : Bool) (n pc : Nat),
    CallsSited (e.sites tail n pc) pc (e.emit tail n).code e.decls
  | .literal t, tail, n, pc => by
    apply CallsSited.here
    cases tail <;> exact .instr rfl pc _
  | .fetch s, tail, n, pc => by
    apply CallsSited.here
    cases tail <;> exact .instr rfl pc _
  | .store s e, tail, n, pc => by
    apply CallsSited.here
    cases tail <;> exact (e.emit_callsSited false n pc).snoc rfl
  | .call f args, tail, n, pc => by
    intro i x y hx hy
    -- the call itself stands behind the code of its arguments
    by_cases hi : i < (Expr.emitArgs args n).code.length
    · have h := (Expr.emitArgs_callsSited args n pc).here (.of (.call f args) tail n pc)
      have hx' : (Expr.emitArgs args n).code[i]? = some x := by
        rwa [Expr.emit, List.getElem?_append_left hi] at hx
      exact h i x y hx' hy
    · have hlt := (List.getElem?_eq_some_iff.mp hx).1
      have hend : i = (Expr.emitArgs args n).code.length := by
        simp [Expr.emit] at hlt
        omega
      subst hend
      have hy' : y = ⟨f, args.length, tail⟩ := by
        rw [Expr.emit, List.getElem?_concat_length, Option.some.injEq] at hx
        subst hx
        cases tail <;> simpa [Instr.call?, eq_comm] using hy
      subst hy'
      exact ⟨args, n, pc, List.mem_cons_self, rfl, rfl, Nat.le_refl _⟩
  | .ret e, tail, n, pc => ((e.emit_callsSited e.isLeaf n pc).close _).here _
  | .ifThen c y, tail, n, pc => by
    apply CallsSited.here
    have hc := c.emit_callsSited false (n + 1) pc
    have hy := y.emit_callsSited tail (c.emit false (n + 1)).next
      (pc + (c.emit false (n + 1)).code.length + 1)
    have h := (hc.append ((hy.cons (i := .goFalse n) rfl).snoc (i := .label n) rfl)).close tail
    simpa [Expr.emit, Expr.decls] using h
  | .ifElse c y o, tail, n, pc => by
    apply CallsSited.here
    have hc := c.emit_callsSited false (n + 2) pc
    have hy := y.emit_callsSited tail (c.emit false (n + 2)).next
      (pc + (c.emit false (n + 2)).code.length + 1)
    have ho := o.emit_callsSited tail (y.emit tail (c.emit false (n + 2)).next).next
      (pc + (c.emit false (n + 2)).code.length + 1 +
        (y.emit tail (c.emit false (n + 2)).next).code.length + 2)
    have hyes := (hy.snoc (i := .go (n + 1)) rfl).snoc (i := .label n) rfl
    have harms := hyes.append (by simpa [Nat.add_assoc] using ho)
    have h := hc.append ((harms.cons (i := .goFalse n) rfl).snoc (i := .label (n + 1)) rfl)
    simpa [Expr.emit, Expr.decls, Nat.add_assoc] using h
  | .block b, tail, n, pc => (b.emit_callsSited tail n pc).here _
  | .loop c b, tail, n, pc => by
    apply CallsSited.here
    have hc := c.emit_callsSited false (n + 2) (pc + 1)
    have hb := b.emit_callsSited false (c.emit false (n + 2)).next
      (pc + 1 + (c.emit false (n + 2)).code.length + 1)
    have hparts := (hc.append (hb.cons (i := .goFalse (n + 1)) rfl)).cons (i := .label n) rfl
    have h := ((hparts.snoc (i := .go n) rfl).snoc (i := .label (n + 1)) rfl).close tail
    simpa [Expr.emit, Expr.decls] using h
  | .or l r, tail, n, pc => by
    apply CallsSited.here
    have hl := l.emit_callsSited false (n + 1) pc
    have hr := r.emit_callsSited tail (l.emit false (n + 1)).next
      (pc + (l.emit false (n + 1)).code.length + 1)
    have h := (hl.append ((hr.cons (i := .goTrue n) rfl).snoc (i := .label n) rfl)).close tail
    simpa [Expr.emit, Expr.decls] using h
  | .and l r, tail, n, pc => by
    apply CallsSited.here
    have hl := l.emit_callsSited false (n + 1) pc
    have hr := r.emit_callsSited tail (l.emit false (n + 1)).next
      (pc + (l.emit false (n + 1)).code.length + 1)
    have h := (hl.append ((hr.cons (i := .goFalse n) rfl).snoc (i := .label n) rfl)).close tail
    simpa [Expr.emit, Expr.decls] using h
  | .not e, tail, n, pc => by
    apply CallsSited.here
    cases tail <;> exact (e.emit_callsSited false n pc).snoc rfl
  | .decl e, tail, n, pc => by
    apply CallsSited.here
    have h := ((e.emit_callsSited false n pc).snoc (i := .push) rfl).close tail
    have h' := h.weaken (Nat.le_succ _)
    simpa [Expr.emit, Expr.decls] using h'

theorem Body.emit_callsSited : ∀ (b : Body) (tail : Bool) (n pc : Nat),
    CallsSited (b.sites tail n pc) pc (b.emit tail n).code b.decls
  | .last e, tail, n, pc => e.emit_callsSited tail n pc
  | .cons e rest, tail, n, pc =>
    (e.emit_callsSited false n pc).append (rest.emit_callsSited tail (e.emit false n).next _)

theorem Expr.emitArgs_callsSited : ∀ (es : List Expr) (n pc : Nat),
    CallsSited (Expr.sitesArgs es n pc) pc (Expr.emitArgs es n).code (Expr.declsAll es)
  | [], _, pc => .nil pc _
  | e :: es, n, pc =>
    (e.emit_callsSited false n pc).append (Expr.emitOperands_callsSited es (e.emit false n).next _)

theorem Expr.emitOperands_callsSited : ∀ (es : List Expr) (n pc : Nat),
    CallsSited (Expr.sitesOperands es n pc) pc (Expr.emitOperands es n).code (Expr.declsAll es)
  | [], n, pc => .nil pc _
  | e :: es, n, pc => by
    have hes := Expr.emitOperands_callsSited es (e.emit false n).next
      (pc + 1 + (e.emit false n).code.length)
    have hlen : pc + 1 + (e.emit false n).code.length =
        pc + (Instr.push :: (e.emit false n).code).length := by
      simp
      omega
    rw [hlen] at hes
    have hpush := ((e.emit_callsSited false n (pc + 1)).cons (i := .push) rfl).append hes
    cases e with
    | literal t =>
      have hlit := (CallsSited.instr (i := .makeValP t) rfl pc 0).here ⟨.literal t, pc, [.makeValP t]⟩
      exact hlit.append (Expr.emitOperands_callsSited es n (pc + 1))
    | _ =>
      rw [← hlen] at hpush
      exact hpush

end

theorem Placed.getElem?_sub {code part : List Instr} {a p : Nat} (h : Placed code a part)
    (hle : a ≤ p) (hlt : p < a + part.length) : part[p - a]? = code[p]? := by
  rw [← h.getElem? (by omega)]
  congr 1
  omega

namespace Flow

variable {code part : List Instr} {a : Nat}

/-- Control comes into closed code, or to the instruction behind it, from inside or at the start. -/
theorem entry_of_succ (hn : (targets code).Nodup) (hp : Placed code a part) (hm : Matched part)
    (hend : ∀ l, code[a + part.length]? ≠ some (.label l)) {pc q : Nat} (hs : Succ code pc q)
    (hq : a ≤ q ∧ q ≤ a + part.length) : (a ≤ pc ∧ pc < a + part.length) ∨ q = a := by
  cases hs with
  | next hi hf => omega
  | @jump _ i l hi ht hl =>
    have hlt : q < a + part.length := Nat.lt_of_le_of_ne hq.2 fun h => hend l (h ▸ hl)
    -- the label is in the closed code, and so is the one branch to it
    have hlabel : part[q - a]? = some (.label l) := (hp.getElem?_sub hq.1 hlt).trans hl
    have htarget : l ∈ targets part := hm.mem_iff.mpr (mem_labels_of_getElem? hlabel)
    obtain ⟨b, hb, hbl⟩ := List.mem_filterMap.mp htarget
    obtain ⟨j, hj⟩ := List.mem_iff_getElem?.mp hb
    obtain ⟨hjlt, -⟩ := List.getElem?_eq_some_iff.mp hj
    have hpc : pc = a + j := place_unique hn hi ht ((hp.getElem? hjlt).trans hj) hbl
    exact .inl (by omega)

/-- The last time that control came into closed code, it stayed there since. -/
theorem Trace.last_entry (hn : (targets code).Nodup) (hp : Placed code a part) (hm : Matched part)
    (hend : ∀ l, code[a + part.length]? ≠ some (.label l)) {pc q : Nat} {tr : List Nat}
    (h : Trace code pc tr q) (hpc : pc ≤ a) (hq : a ≤ q ∧ q ≤ a + part.length) :
    ∃ before since, tr = before ++ since ∧ Trace code pc before a ∧ Trace code a since q ∧
      ∀ p ∈ since, a ≤ p ∧ p < a + part.length := by
  induction h with
  | nil =>
    obtain rfl : pc = a := by omega
    exact ⟨[], [], rfl, .nil, .nil, nofun⟩
  | @snoc tr m q h hs ih =>
    obtain hin | rfl := entry_of_succ hn hp hm hend hs hq
    · obtain ⟨before, since, rfl, hb, hsince, hall⟩ := ih ⟨hin.1, by omega⟩
      refine ⟨before, since ++ [m], by simp, hb, hsince.snoc hs, ?_⟩
      simpa [or_imp, forall_and, hin] using hall
    · exact ⟨tr ++ [m], [], by simp, h.snoc hs, .nil, nofun⟩

/-- A step inside a part of the code is a step of the part. -/
theorem Succ.of_placed (hp : Placed code a part)
    (hend : ∀ l, code[a + part.length]? ≠ some (.label l)) {pc q : Nat} (hs : Succ code pc q)
    (hpc : a ≤ pc ∧ pc < a + part.length) (hq : a ≤ q ∧ q ≤ a + part.length) :
    Succ part (pc - a) (q - a) := by
  have hfrom := hp.getElem?_sub hpc.1 hpc.2
  cases hs with
  | next hi hf =>
    rw [Nat.sub_add_comm hpc.1]
    exact .next (hfrom.trans hi) hf
  | @jump _ i l hi ht hl =>
    have hlt : q < a + part.length := Nat.lt_of_le_of_ne hq.2 fun h => hend l (h ▸ hl)
    exact .jump (hfrom.trans hi) ht ((hp.getElem?_sub hq.1 hlt).trans hl)

end Flow

/-- What an instruction at place `pc` makes of the frame. A cell is known by the place of the
instruction that has pushed it, and the newest comes first. -/
def Instr.cells (pc : Nat) : Instr → List Nat → List Nat
  | push, s | makeValP _, s => pc :: s
  | call _ n, s | callR _ n, s => s.drop (n - 1)
  | _, s => s

namespace Flow

/-- The frame after the instructions at the places `tr`. -/
def cells (code : List Instr) (s : List Nat) (tr : List Nat) : List Nat :=
  tr.foldl (fun s pc => (code[pc]?.map (Instr.cells pc · s)).getD s) s

theorem cells_append (code : List Instr) (s tr tr' : List Nat) :
    cells code s (tr ++ tr') = cells code (cells code s tr) tr' :=
  List.foldl_append

theorem cells_snoc {code : List Instr} {pc : Nat} {i : Instr} (hi : code[pc]? = some i)
    (s tr : List Nat) : cells code s (tr ++ [pc]) = i.cells pc (cells code s tr) := by
  rw [cells_append]
  simp [cells, hi]

/-- An instruction that needs no more cells than are on top of `s` leaves `s` alone. -/
theorem exists_cells_instr (i : Instr) (own : List Nat) (h : 0 ≤ own.length + i.delta) (pc : Nat)
    (s : List Nat) : ∃ own', i.cells pc (own ++ s) = own' ++ s ∧
      (own'.length : Int) = own.length + i.delta ∧ own' ⊆ own ++ [pc] := by
  have hdrop : ∀ n, (n - 1 : Nat) ≤ own.length → ∃ own', (own ++ s).drop (n - 1) = own' ++ s ∧
      (own'.length : Int) = own.length + -((n - 1 : Nat) : Int) ∧ own' ⊆ own ++ [pc] := by
    intro n hn
    refine ⟨own.drop (n - 1), List.drop_append_of_le_length hn, ?_, ?_⟩
    · rw [List.length_drop]
      omega
    · exact fun x hx => List.mem_append_left _ (List.mem_of_mem_drop hx)
  have hsame : own ⊆ own ++ [pc] := List.subset_append_left own [pc]
  have hpush : pc :: own ⊆ own ++ [pc] := by simp
  cases i with
  | push => exact ⟨pc :: own, rfl, by simp [delta], hpush⟩
  | makeValP t => exact ⟨pc :: own, rfl, by simp [delta], hpush⟩
  | call f n => exact hdrop n (by simp [delta] at h; omega)
  | callR f n => exact hdrop n (by simp [delta] at h; omega)
  | _ => exact ⟨own, rfl, by simp [delta], hsame⟩

/-- Code that declares nothing leaves the frame below alone, and has on top of it what it has pushed
itself. -/
theorem Level.cells_of_trace {ms : List Mark} {k : Int} {n m : Label} (h : Level part ms 0 k n m)
    (hd : .declare ∉ ms) (hp : Placed code a part)
    (hend : ∀ l, code[a + part.length]? ≠ some (.label l)) {tr : List Nat} {q : Nat}
    (ht : Trace code a tr q) (hin : ∀ p ∈ tr, a ≤ p ∧ p < a + part.length)
    (hq : a ≤ q ∧ q ≤ a + part.length) (s : List Nat) :
    ∃ own, cells code s tr = own ++ s ∧ (own.length : Int) = height part ms (q - a) ∧ own ⊆ tr := by
  induction ht with
  | nil =>
    refine ⟨[], rfl, ?_, List.nil_subset _⟩
    rw [Nat.sub_self]
    cases part <;> cases ms <;> rfl
  | @snoc tr pc q _ hs ih =>
    have hpc : a ≤ pc ∧ pc < a + part.length := hin pc (by simp)
    obtain ⟨own, hcells, hlen, hsub⟩ := ih (fun p hp' => hin p (by simp [hp'])) ⟨hpc.1, by omega⟩
    obtain ⟨i, x, hi, hx, hheight⟩ := h.height_of_succ (hs.of_placed hp hend hpc hq)
    have hi' : code[pc]? = some i := (hp.getElem?_sub hpc.1 hpc.2).symm.trans hi
    have hx' : x ≠ .declare := fun hx' => hd (List.mem_of_getElem? (hx' ▸ hx))
    have hgain : gain i x = i.delta := by simp [gain, hx']
    have hpos := h.height_nonneg (q - a)
    obtain ⟨own', hcells', hlen', hsub'⟩ := exists_cells_instr i own (by omega) pc s
    refine ⟨own', ?_, by omega, ?_⟩
    · rw [cells_snoc hi', hcells, hcells']
    · intro p hp'
      obtain hown | hpc' := List.mem_append.mp (hsub' hp')
      · exact List.mem_append_left _ (hsub hown)
      · exact List.mem_append_right _ hpc'

/-- Control has last come to `a` after `before` and then gone on to `m` without leaving the code between
them. Whatever was on the frame at the start, the frame is then the one at `a` with `k` cells more, all
of them pushed since. -/
structure Since (code : List Instr) (before since : List Nat) (a m k : Nat) : Prop where
  enters : Trace code 0 before a
  follows : Trace code a since m
  inside : ∀ p ∈ since, a ≤ p ∧ p < m
  pushed : ∀ s, ∃ own, cells code s (before ++ since) = own ++ cells code s before ∧
    own.length = k ∧ own ⊆ since

end Flow

open Morpho.Flow

/-- The places of the pushes that declare variables, in order. -/
def Expr.pushes (e : Expr) (tail : Bool) : List Nat :=
  (e.fragment Flow.spans tail).marks.findIdxs (· == .declare)

theorem Expr.countP_pushes (e : Expr) (tail : Bool) (tr : List Nat) :
    tr.countP ((e.fragment Flow.spans tail).marks[·]? == some .declare) =
      tr.countP (· ∈ e.pushes tail) := by
  refine List.countP_congr fun p _ => ?_
  simp [Expr.pushes, List.getElem?_eq_some_iff]

/-- A call in the code of an expression without declarations finds on top of the frame what its own
arguments have pushed since control last came to them. -/
theorem Expr.since_of_call {e : Expr} (hd : e.decls = 0) (tail : Bool) (n : Label) {tr : List Nat}
    {m : Nat} {i : Instr} {y : Call} (hi : (e.emit tail n).code[m]? = some i) (hy : i.call? = some y)
    (ht : Trace (e.emit tail n).code 0 tr m) :
    ∃ args n' a before since, Site.of (.call y.name args) y.returns n' a ∈ e.sites tail n 0 ∧
      args.length = y.argc ∧ a + (Expr.emitArgs args n').code.length = m ∧ tr = before ++ since ∧
      Since (e.emit tail n).code before since a m (y.argc - 1) := by
  obtain ⟨args, n', a, hσ, hargs, hm, hdargs⟩ := e.emit_callsSited tail n 0 m i y hi hy
  rw [Nat.zero_add] at hm
  subst hm
  have hsited := e.emit_sited tail n 0
  have hplaced : Placed (e.emit tail n).code a (Expr.emitArgs args n').code := by
    have h := hsited.placed (Placed.self _) _ hσ
    exact ((Placed.append_iff ..).mp h).1
  have hend : ∀ l, (e.emit tail n).code[a + (Expr.emitArgs args n').code.length]? ≠
      some (.label l) := by
    intro l hl
    rw [hi] at hl
    cases hl
    cases hy
  have hnodup : (targets (e.emit tail n).code).Nodup :=
    (e.emit_matched tail n).nodup_iff.mpr (e.emit_fills tail n).nodup
  have hbounds : a ≤ a + (Expr.emitArgs args n').code.length ∧
      a + (Expr.emitArgs args n').code.length ≤ a + (Expr.emitArgs args n').code.length := by
    omega
  obtain ⟨before, since, rfl, hbefore, hsince, hin⟩ :=
    ht.last_entry hnodup hplaced (Expr.emitArgs_matched args n') hend (Nat.zero_le a) hbounds
  have hlevel := Expr.emitArgs_level args n' (Int.le_refl 0)
  have hnone : Mark.declare ∉ (Expr.fragmentArgs Flow.spans args).marks := by
    rw [← List.count_eq_zero, Expr.count_marksArgs]
    omega
  refine ⟨args, n', a, before, since, hσ, hargs, rfl, rfl, hbefore, hsince, hin, ?_⟩
  intro s
  obtain ⟨own, hcells, hlen, hsub⟩ := hlevel.cells_of_trace hnone hplaced hend hsince hin hbounds
    (cells (e.emit tail n).code s before)
  rw [Nat.add_sub_cancel_left, hlevel.height_length] at hlen
  refine ⟨own, ?_, by omega, hsub⟩
  rw [cells_append, hcells]

/-- On every way through the code of an expression from its first instruction, the frame never gets
below its depth at the start, and at the end of the code it is deeper by the declarations made on the way.
In an expression without declarations, every call takes from the frame what its own arguments have pushed
since control last came to them. In a function without declarations, all ways to a place lead to the same
depth. -/
theorem Expr.operands_balanced :
    (∀ (e : Expr) (tail : Bool) (n : Label) (tr : List Nat) (m : Nat),
      Trace (e.emit tail n).code 0 tr m →
        0 ≤ rise (e.emit tail n).code tr ∧
        (m = (e.emit tail n).code.length →
          rise (e.emit tail n).code tr = tr.countP (· ∈ e.pushes tail))) ∧
    (∀ (e : Expr) (tail : Bool) (n : Label) (tr : List Nat) (m : Nat) (i : Instr) (y : Call),
      e.decls = 0 → (e.emit tail n).code[m]? = some i → i.call? = some y →
        Trace (e.emit tail n).code 0 tr m →
        ∃ args n' a before since, Site.of (.call y.name args) y.returns n' a ∈ e.sites tail n 0 ∧
          args.length = y.argc ∧ a + (Expr.emitArgs args n').code.length = m ∧
          tr = before ++ since ∧ Since (e.emit tail n).code before since a m (y.argc - 1)) ∧
    (∀ (f : Function) (n : Label) (tr tr' : List Nat) (m : Nat), f.body.decls = 0 →
      Trace (f.routine n).1.code 0 tr m → Trace (f.routine n).1.code 0 tr' m →
        rise (f.routine n).1.code tr = rise (f.routine n).1.code tr') := by
  refine ⟨?_, ?_, ?_⟩
  · intro e tail n tr m ht
    have hlevel := e.emit_level tail n (Int.le_refl 0)
    have hrise := hlevel.rise_of_trace ht
    rw [e.countP_pushes] at hrise
    have hpos := hlevel.height_nonneg m
    refine ⟨by omega, ?_⟩
    rintro rfl
    rw [hrise, hlevel.height_length, Int.zero_add]
  · intro e tail n tr m i y hd hi hy ht
    exact Expr.since_of_call hd tail n hi hy ht
  · intro f n tr tr' m hd ht ht'
    have hlevel := f.body.emit_level true n (Int.le_refl 0)
    have hnone : Mark.declare ∉ (f.body.fragment Flow.spans true).marks := by
      rw [← List.count_eq_zero, Body.count_marks, hd]
    exact (hlevel.rise_eq_height hnone ht).trans (hlevel.rise_eq_height hnone ht').symm

/-- The second argument of a call branches, and it may declare a variable. -/
theorem Expr.operands_balanced_of_branch :
    let arg (e : Expr) : Expr := .call "f" [.fetch 0, .and (.fetch 1) e]
    let e : Expr := arg (.decl (.literal "1"))
    let e' : Expr := arg (.literal "1")
    let f : Function := ⟨"g", 2, .last e'⟩
    (rise (e.emit false 0).code [0, 1, 2, 3, 4, 5, 6, 7] = 1 ∧
      [0, 1, 2, 3, 4, 5, 6, 7].countP (· ∈ e.pushes false) = 1) ∧
    (∃ args n' a before since, Site.of (.call "f" args) false n' a ∈ e'.sites false 0 0 ∧
      args.length = 2 ∧ a + (Expr.emitArgs args n').code.length = 6 ∧
      [0, 1, 2, 3, 5] = before ++ since ∧ Since (e'.emit false 0).code before since a 6 1) ∧
    rise (f.routine 0).1.code [0, 1, 2, 3] = rise (f.routine 0).1.code [0, 1, 2, 3, 4] := by
  intro arg e e' f
  obtain ⟨hrise, hcall, hdepth⟩ := operands_balanced
  have hvar : Trace (e.emit false 0).code 0 [0, 1, 2, 3, 4, 5, 6, 7] 8 :=
    (((((((Trace.nil.snoc (.next rfl rfl)).snoc (.next rfl rfl)).snoc (.next rfl rfl)).snoc
      (.next rfl rfl)).snoc (.next rfl rfl)).snoc (.next rfl rfl)).snoc (.next rfl rfl)).snoc
      (.next rfl rfl)
  have hskip : Trace (e'.emit false 0).code 0 [0, 1, 2, 3, 5] 6 :=
    ((((Trace.nil.snoc (.next rfl rfl)).snoc (.next rfl rfl)).snoc (.next rfl rfl)).snoc
      (.jump rfl rfl rfl)).snoc (.next rfl rfl)
  have hover : Trace (f.routine 0).1.code 0 [0, 1, 2, 3] 5 :=
    (((Trace.nil.snoc (.next rfl rfl)).snoc (.next rfl rfl)).snoc (.next rfl rfl)).snoc
      (.jump rfl rfl rfl)
  have hthrough : Trace (f.routine 0).1.code 0 [0, 1, 2, 3, 4] 5 :=
    ((((Trace.nil.snoc (.next rfl rfl)).snoc (.next rfl rfl)).snoc (.next rfl rfl)).snoc
      (.next rfl rfl)).snoc (.next rfl rfl)
  have hone : [0, 1, 2, 3, 4, 5, 6, 7].countP (· ∈ e.pushes false) = 1 := by decide
  refine ⟨⟨?_, hone⟩, ?_, ?_⟩
  · rw [(hrise e false 0 _ 8 hvar).2 rfl, hone]
    rfl
  · exact hcall e' false 0 _ 6 _ ⟨"f", 2, false⟩ rfl rfl rfl hskip
  · exact hdepth f 0 _ _ 5 rfl hover hthrough

end Morpho
