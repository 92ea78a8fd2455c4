import Morpho.Proofs.Evaluation
import Morpho.Proofs.Labels

/-! The code of a function does what its body means. Whatever the functions that it calls answer,
the machine hands back a value, gets stuck or runs forever exactly when the evaluator does. -/
namespace Morpho

namespace Ending

variable {V W : Type} {o : Ending V W} {r : Machine.Status V W} {s : Machine.State V W}

/-- How a function ends whose body comes to this. -/
def status? : Ending V W → Option (Machine.Status V W)
  | value s | returned s => some (.returned s)
  | stuck => some .stuck
  | exhausted => none

theorem status?_eq_returned : o.status? = some (.returned s) ↔ o = .value s ∨ o = .returned s := by
  cases o <;> simp [status?]

theorem status?_eq_stuck : o.status? = some .stuck ↔ o = .stuck := by
  cases o <;> simp [status?]

theorem status?_eq_none : o.status? = none ↔ o = .exhausted := by
  cases o <;> simp [status?]

theorem status?_ne_running (h : o.status? = some r) (d : Machine.Config V W) : r ≠ .running d := by
  rintro rfl
  cases o <;> simp [status?] at h

end Ending

namespace Machine

variable {V W : Type} {P : Platform V W} {code : List Instr}

/-- The machine gets from `c` to `r`. -/
def Comes (P : Platform V W) (code : List Instr) (c : Config V W) (r : Status V W) : Prop :=
  ∃ n, run P code n c = r

/-- From `c` on the machine runs for at least `n` steps. -/
def Lasts (P : Platform V W) (code : List Instr) (n : Nat) (c : Config V W) : Prop :=
  ∃ d, run P code n c = .running d

namespace Comes

variable {c d : Config V W} {r : Status V W}

theorem refl (c : Config V W) : Comes P code c (.running c) := ⟨0, rfl⟩

theorem of_step (h : step P code c = r) : Comes P code c r := by
  refine ⟨1, ?_⟩
  rw [run, h]
  cases r <;> rfl

theorem trans (h : Comes P code c (.running d)) (h' : Comes P code d r) : Comes P code c r := by
  obtain ⟨m, hm⟩ := h
  obtain ⟨n, hn⟩ := h'
  refine ⟨m + n, ?_⟩
  rw [run_add, hm]
  exact hn

end Comes

theorem Lasts.after {c d : Config V W} {n : Nat} (h : Comes P code c (.running d))
    (hd : Lasts P code n d) : Lasts P code n c := by
  obtain ⟨m, hm⟩ := h
  obtain ⟨e, he⟩ := hd
  have h : run P code (m + n) c = .running e := by
    rw [run_add, hm]
    exact he
  exact running_of_le (by omega) h

theorem step_eq_next {pc : Nat} {s t : State V W} {i : Instr} (hi : code[pc]? = some i)
    (he : i.effect P s = some t) (hr : i.returns = false) (hj : i.jump? P t = none) :
    step P code ⟨pc, s⟩ = .running ⟨pc + 1, t⟩ := by
  simp [step, hi, he, hr, hj]

theorem step_eq_jump {pc m : Nat} {s t : State V W} {i : Instr} {l : Label}
    (hn : (Instr.labels code).Nodup) (hi : code[pc]? = some i) (he : i.effect P s = some t)
    (hr : i.returns = false) (hj : i.jump? P t = some l) (hl : code[m]? = some (.label l)) :
    step P code ⟨pc, s⟩ = .running ⟨m, t⟩ := by
  have hm : target? code l = some m := by
    cases h : target? code l with
    | none =>
      have hall := List.findIdx?_eq_none_iff.mp h
      exact absurd (hall _ (List.mem_of_getElem? hl)) (by simp)
    | some k =>
      obtain ⟨hk, hp, -⟩ := List.findIdx?_eq_some_iff_getElem.mp h
      have hkl : code[k]? = some (.label l) := by
        rw [List.getElem?_eq_getElem hk]
        simpa using hp
      rw [Instr.label_unique hn hkl hl]
  simp [step, hi, he, hr, hj, hm]

/-- What code comes to once its value is ready: in tail position it hands the value back, elsewhere
it goes on at `pc`. -/
def finish (tail : Bool) (pc : Nat) (s : State V W) : Status V W :=
  if tail then .returned s else .running ⟨pc, s⟩

/-- From `c` on the machine does what the evaluator came to, where a value leads to `done`. A loop
that the evaluator gave up keeps the machine busy for as many steps as there were rounds. -/
def Meets (P : Platform V W) (code : List Instr) (bound : Nat) (c : Config V W)
    (done : State V W → Status V W) : Ending V W → Prop
  | .value s => Comes P code c (done s)
  | .returned s => Comes P code c (.returned s)
  | .stuck => Comes P code c .stuck
  | .exhausted => Lasts P code bound c

namespace Meets

variable {bound pc m : Nat} {c d : Config V W} {done : State V W → Status V W} {o : Ending V W}

theorem after (h : Comes P code c (.running d)) (hd : Meets P code bound d done o) :
    Meets P code bound c done o := by
  cases o with
  | value s => exact h.trans hd
  | returned s => exact h.trans hd
  | stuck => exact h.trans hd
  | exhausted => exact .after h hd

/-- A step more allows for a round more. -/
theorem step (h : step P code c = .running d) (hd : Meets P code bound d done o) :
    Meets P code (bound + 1) c done o := by
  cases o with
  | value s => exact (Comes.of_step h).trans hd
  | returned s => exact (Comes.of_step h).trans hd
  | stuck => exact (Comes.of_step h).trans hd
  | exhausted =>
    obtain ⟨e, he⟩ := hd
    refine ⟨e, ?_⟩
    rw [run, h]
    exact he

theorem weaken {n : Nat} (hn : n ≤ bound) (h : Meets P code bound c done o) :
    Meets P code n c done o := by
  cases o with
  | value s => exact h
  | returned s => exact h
  | stuck => exact h
  | exhausted =>
    obtain ⟨d, hd⟩ := h
    exact running_of_le hn hd

theorem andThen {k : State V W → Ending V W} (h : Meets P code bound c (finish false pc) o)
    (hk : ∀ s, Meets P code bound ⟨pc, s⟩ done (k s)) : Meets P code bound c done (o.andThen k) := by
  cases o with
  | value s => exact (hk s).after h
  | returned s => exact h
  | stuck => exact h
  | exhausted => exact h

theorem returned (h : Meets P code bound c (finish true pc) o) :
    Meets P code bound c done (o.andThen .returned) := by
  cases o with
  | value s => exact h
  | returned s => exact h
  | stuck => exact h
  | exhausted => exact h

theorem ends_at {tail : Bool} (hm : pc = m) (h : Meets P code bound c (finish tail pc) o) :
    Meets P code bound c (finish tail m) o := hm ▸ h

/-- An arm of a construct ends where the construct ends, provided its value is led there. -/
theorem arm {tail : Bool} (h : Meets P code bound c (finish tail pc) o)
    (hm : tail = false → ∀ s, Comes P code ⟨pc, s⟩ (.running ⟨m, s⟩)) :
    Meets P code bound c (finish tail m) o := by
  cases tail with
  | true => exact h
  | false =>
    cases o with
    | value s => exact Comes.trans h (hm rfl s)
    | returned s => exact h
    | stuck => exact h
    | exhausted => exact h

/-- One instruction that stays in line, in its plain or its returning form. -/
theorem instr {i : Instr} (hi : code[pc]? = some i) (hj : ∀ t, i.jump? P t = none)
    (s : State V W) :
    Meets P code bound ⟨pc, s⟩ (finish i.returns (pc + 1)) (.ofOption (i.effect P s)) := by
  cases he : i.effect P s with
  | none => exact Comes.of_step (by simp [Machine.step, hi, he])
  | some t =>
    apply Comes.of_step
    cases hr : i.returns with
    | true => simp [Machine.step, hi, he, hr, finish]
    | false => exact step_eq_next hi he hr (hj t)

theorem closing {tail : Bool} (h : Placed code pc (Instr.closing tail)) (s : State V W) :
    Meets P code bound ⟨pc, s⟩ (finish tail (pc + (Instr.closing tail).length)) (.value s) := by
  cases tail with
  | false => exact Comes.refl _
  | true =>
    have hi : code[pc]? = some .ret := h.1
    exact instr hi (fun _ => rfl) s

theorem join {tail : Bool} {l : Label} (h : Placed code pc (.label l :: Instr.closing tail))
    (s : State V W) :
    Meets P code bound ⟨pc, s⟩ (finish tail (pc + 1 + (Instr.closing tail).length)) (.value s) :=
  (closing h.2 s).after (.of_step (step_eq_next h.1 rfl rfl rfl))

/-- Once the value of a function is handed back, the machine ends as the evaluator does. -/
theorem comes {r : Status V W} (h : Meets P code bound c .returned o) (ho : o.status? = some r) :
    Comes P code c r := by
  cases o with
  | value s =>
    obtain rfl := Option.some.inj ho
    exact h
  | returned s =>
    obtain rfl := Option.some.inj ho
    exact h
  | stuck =>
    obtain rfl := Option.some.inj ho
    exact h
  | exhausted => simp [Ending.status?] at ho

/-- A machine that has ended within the bound ended as the evaluator does. -/
theorem status?_eq {r : Status V W} (h : Meets P code bound c .returned o)
    (hr : ∀ d, r ≠ .running d) (hc : run P code bound c = r) : o.status? = some r := by
  cases ho : o.status? with
  | none =>
    rw [Ending.status?_eq_none.mp ho] at h
    obtain ⟨d, hd⟩ := h
    exact absurd (hc.symm.trans hd) (hr d)
  | some q =>
    obtain ⟨k, hk⟩ := h.comes ho
    rw [run_unique (Ending.status?_ne_running ho) hr hk hc]

/-- A test, a branch past the code for `k`, that code and the join that the branch goes to. -/
theorem skip (skips : State V W → Bool) {tail : Bool} {l : Label} {b : Instr}
    {k : State V W → Ending V W} (hn : (Instr.labels code).Nodup)
    (htest : Meets P code bound c (finish false pc) o) (hb : code[pc]? = some b)
    (he : ∀ s, b.effect P s = some s) (hr : b.returns = false)
    (hj : ∀ s, b.jump? P s = if skips s then some l else none)
    (hk : ∀ s, Meets P code bound ⟨pc + 1, s⟩ (finish tail m) (k s))
    (hl : Placed code m (.label l :: Instr.closing tail)) :
    Meets P code bound c (finish tail (m + 1 + (Instr.closing tail).length))
      (o.andThen fun s => if skips s then .value s else k s) := by
  refine htest.andThen fun s => ?_
  cases hs : skips s with
  | true =>
    have hjump : Machine.step P code ⟨pc, s⟩ = .running ⟨m, s⟩ :=
      step_eq_jump hn hb (he s) hr (by simp [hj, hs]) hl.1
    exact (join hl s).after (.of_step hjump)
  | false =>
    have hnext : Machine.step P code ⟨pc, s⟩ = .running ⟨pc + 1, s⟩ :=
      step_eq_next hb (he s) hr (by simp [hj, hs])
    refine after (.of_step hnext) ((hk s).arm ?_)
    rintro rfl t
    have hjoin : Meets P code bound ⟨m, t⟩ (finish false (m + 1 + 0)) (.value t) := join hl t
    exact hjoin

/-- A test with a branch to the code for `k'`, which stands behind that for `k`. -/
theorem either {q r : Nat} {tail : Bool} {l l' : Label} {k k' : State V W → Ending V W}
    (hn : (Instr.labels code).Nodup) (htest : Meets P code bound c (finish false pc) o)
    (hb : code[pc]? = some (.goFalse l))
    (hk : ∀ s, Meets P code bound ⟨pc + 1, s⟩ (finish tail q) (k s))
    (hg : code[q]? = some (.go l')) (hl : code[q + 1]? = some (.label l))
    (hk' : ∀ s, Meets P code bound ⟨q + 2, s⟩ (finish tail r) (k' s))
    (he : code[r]? = some (.label l')) :
    Meets P code bound c (finish tail (r + 1))
      (o.andThen fun s => if P.holds s.acc then k s else k' s) := by
  have hend : ∀ s, Comes P code ⟨r, s⟩ (.running ⟨r + 1, s⟩) := fun s =>
    .of_step (step_eq_next he rfl rfl rfl)
  refine htest.andThen fun s => ?_
  cases hs : P.holds s.acc with
  | true =>
    have hin : Machine.step P code ⟨pc, s⟩ = .running ⟨pc + 1, s⟩ :=
      step_eq_next hb rfl rfl (by simp [Instr.jump?, hs])
    refine after (.of_step hin) ((hk s).arm fun _ t => ?_)
    exact (Comes.of_step (step_eq_jump hn hg rfl rfl rfl he)).trans (hend t)
  | false =>
    have hout : Machine.step P code ⟨pc, s⟩ = .running ⟨q + 1, s⟩ :=
      step_eq_jump hn hb rfl rfl (by simp [Instr.jump?, hs]) hl
    have hnext : Machine.step P code ⟨q + 1, s⟩ = .running ⟨q + 2, s⟩ :=
      step_eq_next hl rfl rfl rfl
    refine after (.of_step hout) (after (.of_step hnext) ((hk' s).arm fun _ t => hend t))

/-- A loop whose label `l` stands at `pc`, whose branch out of it stands at `q` and whose way back
to the start stands at `r`. -/
theorem rounds {q r : Nat} {tail : Bool} {l l' : Label} {test body : State V W → Ending V W}
    (hn : (Instr.labels code).Nodup) (hstart : code[pc]? = some (.label l))
    (htest : ∀ s, Meets P code bound ⟨pc + 1, s⟩ (finish false q) (test s))
    (hout : code[q]? = some (.goFalse l'))
    (hbody : ∀ s, Meets P code bound ⟨q + 1, s⟩ (finish false r) (body s))
    (hback : code[r]? = some (.go l))
    (hend : Placed code (r + 1) (.label l' :: Instr.closing tail)) :
    ∀ n ≤ bound, ∀ s, Meets P code n ⟨pc, s⟩ (finish tail (r + 2 + (Instr.closing tail).length))
      (Ending.rounds P.holds test body n s) := by
  intro n
  induction n with
  | zero =>
    intro _ s
    exact ⟨⟨pc, s⟩, rfl⟩
  | succ n ih =>
    intro hle s
    have hb : n ≤ bound := by omega
    refine .step (step_eq_next hstart rfl rfl rfl) (((htest s).weaken hb).andThen fun t => ?_)
    cases ht : P.holds t.acc with
    | true =>
      have hin : Machine.step P code ⟨q, t⟩ = .running ⟨q + 1, t⟩ :=
        step_eq_next hout rfl rfl (by simp [Instr.jump?, ht])
      refine after (.of_step hin) (((hbody t).weaken hb).andThen fun u => ?_)
      have hagain : Machine.step P code ⟨r, u⟩ = .running ⟨pc, u⟩ :=
        step_eq_jump hn hback rfl rfl rfl hstart
      exact (ih hb u).after (.of_step hagain)
    | false =>
      have hleave : Machine.step P code ⟨q, t⟩ = .running ⟨r + 1, t⟩ :=
        step_eq_jump hn hout rfl rfl (by simp [Instr.jump?, ht]) hend.1
      exact (join hend t).after (.of_step hleave)

end Meets
end Machine

section

open Machine

variable {V W : Type}

mutual

/-- Code that stands anywhere in a routine does what its expression means. -/
theorem Expr.emit_meets (P : Platform V W) {code : List Instr} (bound : Nat)
    (hn : (Instr.labels code).Nodup) : ∀ (e : Expr) (tail : Bool) (n : Label) (pc : Nat) (s : State V W),
    Placed code pc (e.emit tail n).code →
    Meets P code bound ⟨pc, s⟩ (finish tail (pc + (e.emit tail n).code.length)) (e.eval P bound s)
  | .literal t, tail, n, pc, s, h => by
    cases tail <;> exact Meets.instr h.1 (fun _ => rfl) s
  | .fetch k, tail, n, pc, s, h => by
    cases tail <;> exact Meets.instr h.1 (fun _ => rfl) s
  | .store k e, tail, n, pc, s, h => by
    obtain ⟨he, hi, -⟩ := (Placed.append_iff ..).mp h
    have hv := e.emit_meets P bound hn false n pc s he
    refine hv.andThen fun t => ?_
    cases tail <;> exact .ends_at (by simp [Expr.emit, Nat.add_assoc]) (.instr hi (fun _ => rfl) t)
  | .call f args, tail, n, pc, s, h => by
    obtain ⟨ha, hi, -⟩ := (Placed.append_iff ..).mp h
    have hv := Expr.emitArgs_meets P bound hn args n pc s ha
    refine hv.andThen fun t => ?_
    cases tail <;> exact .ends_at (by simp [Expr.emit, Nat.add_assoc]) (.instr hi (fun _ => rfl) t)
  | .ret e, tail, n, pc, s, h => by
    obtain ⟨he, hc⟩ := (Placed.append_iff ..).mp h
    have hv := e.emit_meets P bound hn e.isLeaf n pc s he
    cases hl : e.isLeaf with
    | true =>
      rw [hl] at hv
      exact hv.returned
    | false =>
      rw [hl] at hv hc
      refine hv.andThen fun t => ?_
      have hr : Meets P code bound ⟨_, t⟩ (finish true _) (.value t) := .instr hc.1 (fun _ => rfl) t
      exact hr
  | .ifThen c y, tail, n, pc, s, h => by
    simp only [Expr.emit, Placed.append_iff, Placed.cons_iff, List.length_append,
      List.length_cons] at h
    obtain ⟨⟨hl, hb, hr⟩, hj⟩ := h
    have hv := c.emit_meets P bound hn false (n + 1) pc s hl
    have hk := fun t => y.emit_meets P bound hn tail (c.emit false (n + 1)).next _ t hr
    have hs := Meets.skip (fun t => !P.holds t.acc) hn hv hb (fun _ => rfl) rfl
      (fun t => by cases ht : P.holds t.acc <;> simp [Instr.jump?, ht])
      (fun t => (hk t).ends_at (by omega)) hj
    have hm := hs.ends_at (m := pc + ((Expr.ifThen c y).emit tail n).code.length)
      (by simp [Expr.emit]; omega)
    simpa [Expr.eval, ← Bool.not_eq_true] using hm
  | .ifElse c y o, tail, n, pc, s, h => by
    simp only [Expr.emit, Placed.append_iff, Placed.cons_iff, Placed.nil_iff, List.length_append,
      List.length_cons, and_true] at h
    obtain ⟨⟨⟨hc, hb, hy⟩, hg, hl, ho⟩, he⟩ := h
    have hv := c.emit_meets P bound hn false (n + 2) pc s hc
    have hk := fun t => y.emit_meets P bound hn tail (c.emit false (n + 2)).next _ t hy
    have hk' := fun t => o.emit_meets P bound hn tail (y.emit tail (c.emit false (n + 2)).next).next _ t ho
    have hs := Meets.either hn hv hb (fun t => (hk t).ends_at (by omega)) hg hl
      (fun t => (hk' t).ends_at (by omega)) he
    exact hs.ends_at (by simp [Expr.emit]; omega)
  | .block b, tail, n, pc, s, h => b.emit_meets P bound hn tail n pc s h
  | .loop c b, tail, n, pc, s, h => by
    simp only [Expr.emit, List.cons_append, Placed.append_iff, Placed.cons_iff, List.length_append,
      List.length_cons] at h
    obtain ⟨hs, ⟨hc, hg, hb⟩, hback, hend⟩ := h
    have hv := fun t => c.emit_meets P bound hn false (n + 2) (pc + 1) t hc
    have hk := fun t => b.emit_meets P bound hn false (c.emit false (n + 2)).next _ t hb
    have hr := Meets.rounds hn hs hv hg (fun t => (hk t).ends_at (by omega)) hback hend
    refine .ends_at (by simp [Expr.emit]; omega) (hr bound (Nat.le_refl bound) s)
  | .or l r, tail, n, pc, s, h => by
    simp only [Expr.emit, Placed.append_iff, Placed.cons_iff, List.length_append,
      List.length_cons] at h
    obtain ⟨⟨hl, hb, hr⟩, hj⟩ := h
    have hv := l.emit_meets P bound hn false (n + 1) pc s hl
    have hk := fun t => r.emit_meets P bound hn tail (l.emit false (n + 1)).next _ t hr
    have hs := Meets.skip (fun t => P.holds t.acc) hn hv hb (fun _ => rfl) rfl
      (fun t => by cases ht : P.holds t.acc <;> simp [Instr.jump?, ht])
      (fun t => (hk t).ends_at (by omega)) hj
    have hm := hs.ends_at (m := pc + ((Expr.or l r).emit tail n).code.length)
      (by simp [Expr.emit]; omega)
    simpa [Expr.eval] using hm
  | .and l r, tail, n, pc, s, h => by
    simp only [Expr.emit, Placed.append_iff, Placed.cons_iff, List.length_append,
      List.length_cons] at h
    obtain ⟨⟨hl, hb, hr⟩, hj⟩ := h
    have hv := l.emit_meets P bound hn false (n + 1) pc s hl
    have hk := fun t => r.emit_meets P bound hn tail (l.emit false (n + 1)).next _ t hr
    have hs := Meets.skip (fun t => !P.holds t.acc) hn hv hb (fun _ => rfl) rfl
      (fun t => by cases ht : P.holds t.acc <;> simp [Instr.jump?, ht])
      (fun t => (hk t).ends_at (by omega)) hj
    have hm := hs.ends_at (m := pc + ((Expr.and l r).emit tail n).code.length)
      (by simp [Expr.emit]; omega)
    simpa [Expr.eval, ← Bool.not_eq_true] using hm
  | .not e, tail, n, pc, s, h => by
    obtain ⟨he, hi, -⟩ := (Placed.append_iff ..).mp h
    have hv := e.emit_meets P bound hn false n pc s he
    refine hv.andThen fun t => ?_
    cases tail <;> exact .ends_at (by simp [Expr.emit, Nat.add_assoc]) (.instr hi (fun _ => rfl) t)
  | .decl e, tail, n, pc, s, h => by
    obtain ⟨he, hi, hc⟩ := (Placed.append_iff ..).mp h
    have hv := e.emit_meets P bound hn false n pc s he
    refine hv.andThen fun t => ?_
    refine .ends_at ?_ ((Meets.closing hc t.push).after (.of_step (step_eq_next hi rfl rfl rfl)))
    simp [Expr.emit]
    omega

theorem Body.emit_meets (P : Platform V W) {code : List Instr} (bound : Nat)
    (hn : (Instr.labels code).Nodup) : ∀ (b : Body) (tail : Bool) (n : Label) (pc : Nat) (s : State V W),
    Placed code pc (b.emit tail n).code →
    Meets P code bound ⟨pc, s⟩ (finish tail (pc + (b.emit tail n).code.length)) (b.eval P bound s)
  | .last e, tail, n, pc, s, h => e.emit_meets P bound hn tail n pc s h
  | .cons e rest, tail, n, pc, s, h => by
    obtain ⟨he, hr⟩ := (Placed.append_iff ..).mp h
    have hv := e.emit_meets P bound hn false n pc s he
    refine hv.andThen fun t => ?_
    have ht := rest.emit_meets P bound hn tail (e.emit false n).next _ t hr
    simpa [Body.emit, Nat.add_assoc] using ht

theorem Expr.emitArgs_meets (P : Platform V W) {code : List Instr} (bound : Nat)
    (hn : (Instr.labels code).Nodup) : ∀ (es : List Expr) (n : Label) (pc : Nat) (s : State V W),
    Placed code pc (Expr.emitArgs es n).code →
    Meets P code bound ⟨pc, s⟩ (finish false (pc + (Expr.emitArgs es n).code.length))
      (Expr.evalArgs P bound es s)
  | [], n, pc, s, h => Comes.refl _
  | e :: es, n, pc, s, h => by
    obtain ⟨he, hr⟩ := (Placed.append_iff ..).mp h
    have hv := e.emit_meets P bound hn false n pc s he
    refine hv.andThen fun t => ?_
    have ht := Expr.emitOperands_meets P bound hn es (e.emit false n).next _ t hr
    simpa [Expr.emitArgs, Nat.add_assoc] using ht

theorem Expr.emitOperands_meets (P : Platform V W) {code : List Instr} (bound : Nat)
    (hn : (Instr.labels code).Nodup) : ∀ (es : List Expr) (n : Label) (pc : Nat) (s : State V W),
    Placed code pc (Expr.emitOperands es n).code →
    Meets P code bound ⟨pc, s⟩ (finish false (pc + (Expr.emitOperands es n).code.length))
      (Expr.evalOperands P bound es s)
  | [], n, pc, s, h => Comes.refl _
  | e :: es, n, pc, s, h => by
    obtain ⟨he, hr⟩ := (Placed.append_iff ..).mp h
    have hv : Meets P code bound ⟨pc, s⟩
        (finish false (pc + (e.asOperand (e.emit false n).code).length))
        (e.eval P bound s.push) := by
      obtain ⟨t, rfl, ht⟩ | hp := e.asOperand_cases (e.emit false n).code
      · rw [ht] at he ⊢
        exact .instr he.1 (fun _ => rfl) s
      · rw [hp] at he ⊢
        have hk := e.emit_meets P bound hn false n (pc + 1) s.push he.2
        have hs : step P code ⟨pc, s⟩ = .running ⟨pc + 1, s.push⟩ :=
          step_eq_next he.1 rfl rfl rfl
        exact .ends_at (by simp; omega) (.after (.of_step hs) hk)
    refine hv.andThen fun t => ?_
    have ht := Expr.emitOperands_meets P bound hn es (e.emit false n).next _ t hr
    simpa [Expr.emitOperands, Nat.add_assoc] using ht

end

end

namespace Function

open Machine

variable {V W : Type} (P : Platform V W) (f : Function) (n : Label) (s : State V W)

theorem routine_meets (bound : Nat) :
    Meets P (f.routine n).1.code bound ⟨0, s⟩ .returned (f.body.eval P bound s) := by
  have hn := f.labels_nodup n
  exact f.body.emit_meets P bound hn true n 0 s (Placed.self _)

/-- The evaluator and the machine end alike. -/
theorem eval_status_iff {r : Status V W} (hr : ∀ d, r ≠ .running d) :
    (∃ k, (f.body.eval P k s).status? = some r) ↔ ∃ k, run P (f.routine n).1.code k ⟨0, s⟩ = r := by
  constructor
  · rintro ⟨k, hk⟩
    exact (f.routine_meets P n s k).comes hk
  · rintro ⟨k, hk⟩
    exact ⟨k, (f.routine_meets P n s k).status?_eq hr hk⟩

/-- For every function, every state to start from and whatever the called functions answer: its
body, evaluated by its structure, and its code, run by the machine, hand back the same state, get
stuck or run forever together. -/
theorem behaves_iff_routine_behaves (b : Behaviour V W) :
    f.Behaves P s b ↔ (f.routine n).1.Behaves P s b := by
  cases b with
  | returns t =>
    have h := f.eval_status_iff P n s (r := .returned t) (by simp)
    simp only [Ending.status?_eq_returned] at h
    exact h
  | stuck =>
    have h := f.eval_status_iff P n s (r := .stuck) (by simp)
    simp only [Ending.status?_eq_stuck] at h
    exact h
  | diverges =>
    constructor
    · intro h k
      have hm := f.routine_meets P n s k
      rw [h k] at hm
      exact hm
    · intro h k
      -- an ending with a status would be an ending of the machine
      cases hs : (f.body.eval P k s).status? with
      | none => exact Ending.status?_eq_none.mp hs
      | some r =>
        obtain ⟨j, hj⟩ := (f.routine_meets P n s k).comes hs
        obtain ⟨d, hd⟩ := h j
        exact absurd (hj.symm.trans hd) (Ending.status?_ne_running hs d)

end Function
end Morpho
