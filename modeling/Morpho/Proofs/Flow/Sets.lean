import Morpho.Proofs.Flow

/-! The depths at which control can reach an instruction, as sets. The sets that the structure of an
expression gives are exact: no path leaves them, and every depth in them has its path. -/
namespace Morpho.Flow

open scoped Pointwise

/-- Sets of depths. -/
def sets : Domain (Set Int) where
  unreached := ∅
  exactly k := {k}
  add S T := S + T
  join S T := S ∪ T
  again S := (AddSubmonoid.closure S : Set Int)

/-- The set at place `i` of the list contains `k`. -/
def Within (l : List (Set Int)) (i : Nat) (k : Int) : Prop := ∃ S, l[i]? = some S ∧ k ∈ S

namespace Within

variable {l l' : List (Set Int)} {S : Set Int} {i : Nat} {k : Int}

@[simp] theorem nil_iff : Within [] i k ↔ False := by simp [Within]

@[simp] theorem cons_iff :
    Within (S :: l) i k ↔ (i = 0 ∧ k ∈ S) ∨ ∃ j, i = j + 1 ∧ Within l j k := by
  cases i with
  | zero => simp [Within]
  | succ i => simp [Within]

@[simp] theorem append_iff :
    Within (l ++ l') i k ↔ Within l i k ∨ ∃ j, i = l.length + j ∧ Within l' j k := by
  induction l generalizing i with
  | nil => simp
  | cons T l ih =>
    simp only [List.cons_append, cons_iff, ih, List.length_cons]
    constructor
    · rintro (h | ⟨j, rfl, h | ⟨m, rfl, h⟩⟩)
      · exact .inl (.inl h)
      · exact .inl (.inr ⟨j, rfl, h⟩)
      · exact .inr ⟨m, by omega, h⟩
    · rintro ((h | ⟨j, rfl, h⟩) | ⟨m, rfl, h⟩)
      · exact .inl h
      · exact .inr ⟨j, rfl, .inl h⟩
      · exact .inr ⟨l.length + m, by omega, .inr ⟨m, rfl, h⟩⟩

@[simp] theorem map_add_iff :
    Within (l.map (S + ·)) i k ↔ ∃ a ∈ S, ∃ b, Within l i b ∧ a + b = k := by
  simp only [Within, List.getElem?_map, Option.map_eq_some_iff]
  constructor
  · rintro ⟨T, ⟨U, hU, rfl⟩, a, ha, b, hb, rfl⟩
    exact ⟨a, ha, b, ⟨U, hU, hb⟩, rfl⟩
  · rintro ⟨a, ha, b, ⟨U, hU, hb⟩, rfl⟩
    exact ⟨_, ⟨U, hU, rfl⟩, Set.add_mem_add ha hb⟩

end Within

namespace Fragment

/-- Control can come to place `i` of the fragment, its end included, with `k` more than at the
start. -/
def At (f : Fragment (Set Int)) (i : Nat) (k : Int) : Prop :=
  Within f.depths i k ∨ (i = f.depths.length ∧ k ∈ f.exit)

end Fragment

/-- What a step from a known instruction can be. -/
theorem Step.cases_of {code : List Instr} {pc : Nat} {d : Int} {q : Point} {i : Instr}
    (hi : code[pc]? = some i) (h : Step code ⟨pc, d⟩ q) :
    (i.falls = true ∧ q = ⟨pc + 1, d + i.delta⟩) ∨
      ∃ l m, i.target? = some l ∧ code[m]? = some (.label l) ∧ q = ⟨m, d⟩ := by
  cases h with
  | next hi' hf =>
    obtain rfl := Option.some.inj (hi.symm.trans hi')
    exact .inl ⟨hf, rfl⟩
  | jump hi' ht hl =>
    obtain rfl := Option.some.inj (hi.symm.trans hi')
    exact .inr ⟨_, _, ht, hl, rfl⟩

/-- The fragment says exactly what the paths do that enter the code at `pc`: a step from one of its
places leads to one of its places or to its end, and all of them are reached. -/
structure Exact (code : List Instr) (pc : Nat) (f : Fragment (Set Int)) : Prop where
  entry : f.At 0 0
  closed : ∀ {i n k d q}, Within f.depths i k → n = pc + i → Step code ⟨n, d + k⟩ q →
    ∃ j m, f.At j m ∧ q.pc = pc + j ∧ q.depth = d + m
  attained : ∀ {i n k} (d : Int), f.At i k → n = pc + i → Path code ⟨pc, d⟩ ⟨n, d + k⟩

namespace Exact

variable {code : List Instr} {pc : Nat} {f g : Fragment (Set Int)}

theorem nil (code : List Instr) (pc : Nat) : Exact code pc (.nil sets) where
  entry := .inr ⟨rfl, rfl⟩
  closed h := by simp [Fragment.nil] at h
  attained := by
    rintro i n k d (h | ⟨rfl, rfl⟩) rfl
    · simp [Fragment.nil] at h
    · simpa [Fragment.nil] using Relation.ReflTransGen.refl

/-- An instruction that is no branch. -/
theorem instr {i : Instr} (m : Mark) (hi : code[pc]? = some i) (ht : i.target? = none) :
    Exact code pc (.instr sets m i.returns i.delta) := by
  have hf : i.falls = !i.returns := by cases i <;> first | rfl | simp [Instr.target?] at ht
  refine ⟨.inl (by simp [Fragment.instr, sets]), ?_, ?_⟩
  · rintro j n k d q hk rfl hs
    obtain ⟨rfl, rfl⟩ : j = 0 ∧ k = 0 := by simpa [Fragment.instr, sets] using hk
    obtain ⟨hn, rfl⟩ | ⟨l, _, hl, -⟩ := hs.cases_of hi
    · refine ⟨1, i.delta, .inr ⟨rfl, ?_⟩, rfl, by simp⟩
      have hr : i.returns = false := by simpa [hf] using hn
      simp [Fragment.instr, hr, sets]
    · simp [ht] at hl
  · rintro j n k d (hk | ⟨rfl, hk⟩) rfl
    · obtain ⟨rfl, rfl⟩ : j = 0 ∧ k = 0 := by simpa [Fragment.instr, sets] using hk
      simpa using Relation.ReflTransGen.refl
    · cases hr : i.returns with
      | true => simp [Fragment.instr, hr, sets] at hk
      | false =>
        obtain rfl : k = i.delta := by simpa [Fragment.instr, hr, sets] using hk
        exact .single (.next hi (by simp [hf, hr]))

theorem closing {tail : Bool} (h : Placed code pc (Instr.closing tail)) :
    Exact code pc (.closing sets tail) := by
  cases tail with
  | true => exact instr .other h.1 rfl
  | false => exact nil code pc

theorem seq_at_iff {i : Nat} {k : Int} : (Fragment.seq sets f g).At i k ↔
    Within f.depths i k ∨ ∃ j a b, a ∈ f.exit ∧ g.At j b ∧ i = f.depths.length + j ∧ k = a + b := by
  simp only [Fragment.At, Fragment.seq, sets, Within.append_iff, Within.map_add_iff,
    List.length_append, List.length_map, Set.mem_add]
  constructor
  · rintro ((h | ⟨j, rfl, a, ha, b, hb, rfl⟩) | ⟨rfl, a, ha, b, hb, rfl⟩)
    · exact .inl h
    · exact .inr ⟨j, a, b, ha, .inl hb, rfl, rfl⟩
    · exact .inr ⟨_, a, b, ha, .inr ⟨rfl, hb⟩, rfl, rfl⟩
  · rintro (h | ⟨j, a, b, ha, hb | ⟨rfl, hb⟩, rfl, rfl⟩)
    · exact .inl (.inl h)
    · exact .inl (.inr ⟨j, rfl, a, ha, b, hb, rfl⟩)
    · exact .inr ⟨rfl, a, ha, b, hb, rfl⟩

/-- Where the first part ends, the second begins. -/
theorem seq_at_of_at (hg : g.At 0 0) {i : Nat} {k : Int} (h : f.At i k) :
    (Fragment.seq sets f g).At i k := by
  obtain h | ⟨rfl, h⟩ := h
  · exact seq_at_iff.mpr (.inl h)
  · exact seq_at_iff.mpr (.inr ⟨0, k, 0, h, hg, by simp, by simp⟩)

theorem seq (hf : Exact code pc f) (hg : Exact code (pc + f.depths.length) g) :
    Exact code pc (.seq sets f g) := by
  refine ⟨seq_at_of_at hg.entry hf.entry, ?_, ?_⟩
  · rintro i n k d q hk rfl hs
    simp only [Fragment.seq, sets, Within.append_iff, Within.map_add_iff] at hk
    obtain hk | ⟨j, rfl, a, ha, b, hb, rfl⟩ := hk
    · obtain ⟨j, m, hj, hq⟩ := hf.closed hk rfl hs
      exact ⟨j, m, seq_at_of_at hg.entry hj, hq⟩
    · rw [← Int.add_assoc] at hs
      obtain ⟨j', m, hj, hq⟩ := hg.closed hb (by omega) hs
      refine ⟨f.depths.length + j', a + m, ?_, by omega, by omega⟩
      exact seq_at_iff.mpr (.inr ⟨j', a, m, ha, hj, rfl, rfl⟩)
  · rintro i n k d hk rfl
    obtain hk | ⟨j, a, b, ha, hb, rfl, rfl⟩ := seq_at_iff.mp hk
    · exact hf.attained d (.inl hk) rfl
    · have h₁ := hf.attained d (.inr ⟨rfl, ha⟩) rfl
      have h₂ := hg.attained (d + a) hb (n := pc + (f.depths.length + j)) (by omega)
      rw [Int.add_assoc] at h₂
      exact h₁.trans h₂

/-- A label only lets control through. -/
theorem step_label {l : Label} {d : Int} {q : Point} (hl : code[pc]? = some (.label l)) :
    Step code ⟨pc, d⟩ q ↔ q = ⟨pc + 1, d⟩ := by
  constructor
  · intro h
    obtain ⟨-, rfl⟩ | ⟨l', _, ht, -⟩ := h.cases_of hl
    · simp [Instr.delta]
    · simp [Instr.target?] at ht
  · rintro rfl
    have h : Step code ⟨pc, d⟩ ⟨pc + 1, d + 0⟩ := .next hl rfl
    simpa using h

/-- A branch goes to its label, or to the next instruction if it can. -/
theorem step_branch {b : Instr} {l : Label} {m : Nat} {d : Int} {q : Point}
    (hn : (Instr.labels code).Nodup) (hb : code[pc]? = some b) (ht : b.target? = some l)
    (hl : code[m]? = some (.label l)) :
    Step code ⟨pc, d⟩ q ↔ q = ⟨m, d⟩ ∨ (b.falls = true ∧ q = ⟨pc + 1, d⟩) := by
  have hd : b.delta = 0 := by cases b <;> first | rfl | simp [Instr.target?] at ht
  constructor
  · intro h
    obtain ⟨hf, rfl⟩ | ⟨l', m', ht', hl', rfl⟩ := h.cases_of hb
    · exact .inr ⟨hf, by simp [hd]⟩
    · obtain rfl := Option.some.inj (ht.symm.trans ht')
      rw [Instr.label_unique hn hl' hl]
      exact .inl rfl
  · rintro (rfl | ⟨hf, rfl⟩)
    · exact .jump hb ht hl
    · have h : Step code ⟨pc, d⟩ ⟨pc + 1, d + b.delta⟩ := .next hb hf
      simpa [hd] using h

theorem skip_within_iff {i : Nat} {k : Int} : Within (Fragment.skip sets f).depths i k ↔
    (i = 0 ∧ k = 0) ∨ (∃ j, i = j + 1 ∧ Within f.depths j k) ∨
      (i = f.depths.length + 1 ∧ (k = 0 ∨ k ∈ f.exit)) := by
  simp only [Fragment.skip, sets, List.cons_append, Within.cons_iff, Within.append_iff,
    Within.nil_iff, Set.mem_singleton_iff, Set.mem_union]
  grind

theorem skip_at_of_at {i : Nat} {k : Int} (h : f.At i k) : (Fragment.skip sets f).At (i + 1) k := by
  obtain h | ⟨rfl, h⟩ := h
  · exact .inl (skip_within_iff.mpr (.inr (.inl ⟨i, rfl, h⟩)))
  · exact .inl (skip_within_iff.mpr (.inr (.inr ⟨rfl, .inr h⟩)))

theorem skip {b : Instr} {l : Label} {q : Nat} (hn : (Instr.labels code).Nodup)
    (hb : code[pc]? = some b) (ht : b.target? = some l) (hb' : b.falls = true)
    (hf : Exact code (pc + 1) f) (hq : q = pc + 1 + f.depths.length)
    (hl : code[q]? = some (.label l)) : Exact code pc (.skip sets f) := by
  have hlen : (Fragment.skip sets f).depths.length = f.depths.length + 2 := by simp [Fragment.skip]
  refine ⟨.inl (skip_within_iff.mpr (.inl ⟨rfl, rfl⟩)), ?_, ?_⟩
  · rintro i n k d p hk rfl hs
    obtain ⟨rfl, rfl⟩ | ⟨j, rfl, hj⟩ | ⟨rfl, hj⟩ := skip_within_iff.mp hk
    · obtain rfl | ⟨-, rfl⟩ := (step_branch hn hb ht hl).mp hs
      · have hend := skip_within_iff (f := f).mpr (.inr (.inr ⟨rfl, .inl rfl⟩))
        exact ⟨_, 0, .inl hend, by simp only; omega, rfl⟩
      · exact ⟨1, 0, skip_at_of_at hf.entry, rfl, rfl⟩
    · obtain ⟨j', m, hm, hp⟩ := hf.closed hj (by omega) hs
      exact ⟨j' + 1, m, skip_at_of_at hm, by omega, hp.2⟩
    · rw [show pc + (f.depths.length + 1) = q by omega, step_label hl] at hs
      subst hs
      exact ⟨f.depths.length + 2, k, .inr ⟨hlen.symm, hj⟩, by simp only; omega, rfl⟩
  · rintro i n k d hk rfl
    have hskip : Step code ⟨pc, d⟩ ⟨q, d⟩ := (step_branch hn hb ht hl).mpr (.inl rfl)
    have hin : Step code ⟨pc, d⟩ ⟨pc + 1, d⟩ := (step_branch hn hb ht hl).mpr (.inr ⟨hb', rfl⟩)
    -- the label is reached past the code or through it
    have hjoin : ∀ k, k = 0 ∨ k ∈ f.exit → Path code ⟨pc, d⟩ ⟨q, d + k⟩ := by
      rintro k (rfl | hk)
      · simpa using Relation.ReflTransGen.single hskip
      · exact .head hin (hf.attained d (.inr ⟨rfl, hk⟩) hq)
    obtain hk | ⟨rfl, hk⟩ := hk
    · obtain ⟨rfl, rfl⟩ | ⟨j, rfl, hj⟩ | ⟨rfl, hj⟩ := skip_within_iff.mp hk
      · simpa using Relation.ReflTransGen.refl
      · exact .head hin (hf.attained d (.inl hj) (by omega))
      · rw [show pc + (f.depths.length + 1) = q by omega]
        exact hjoin k hj
    · rw [hlen, show pc + (f.depths.length + 2) = q + 1 by omega]
      exact (hjoin k hk).tail ((step_label hl).mpr rfl)

theorem either_within_iff {i : Nat} {k : Int} : Within (Fragment.either sets f g).depths i k ↔
    (i = 0 ∧ k = 0) ∨ (∃ j, i = j + 1 ∧ Within f.depths j k) ∨
      (i = f.depths.length + 1 ∧ k ∈ f.exit) ∨ (i = f.depths.length + 2 ∧ k = 0) ∨
      (∃ j, i = f.depths.length + 3 + j ∧ Within g.depths j k) ∨
      (i = f.depths.length + 3 + g.depths.length ∧ (k ∈ f.exit ∨ k ∈ g.exit)) := by
  simp only [Fragment.either, sets, List.cons_append, List.append_assoc, Within.cons_iff,
    Within.append_iff, Within.nil_iff, Set.mem_singleton_iff, Set.mem_union]
  grind

theorem either_at_of_at_left {i : Nat} {k : Int} (h : f.At i k) :
    (Fragment.either sets f g).At (i + 1) k := by
  obtain h | ⟨rfl, h⟩ := h
  · exact .inl (either_within_iff.mpr (.inr (.inl ⟨i, rfl, h⟩)))
  · exact .inl (either_within_iff.mpr (.inr (.inr (.inl ⟨rfl, h⟩))))

theorem either_at_of_at_right {i : Nat} {k : Int} (h : g.At i k) :
    (Fragment.either sets f g).At (f.depths.length + 3 + i) k := by
  obtain h | ⟨rfl, h⟩ := h
  · exact .inl (either_within_iff.mpr (.inr (.inr (.inr (.inr (.inl ⟨i, rfl, h⟩))))))
  · exact .inl (either_within_iff.mpr (.inr (.inr (.inr (.inr (.inr ⟨rfl, .inr h⟩))))))

theorem either {l l' : Label} {q r : Nat} (hn : (Instr.labels code).Nodup)
    (hb : code[pc]? = some (.goFalse l)) (hf : Exact code (pc + 1) f)
    (hq : q = pc + 1 + f.depths.length) (hg' : code[q]? = some (.go l'))
    (hl : code[q + 1]? = some (.label l)) (hg : Exact code (q + 2) g)
    (hr : r = q + 2 + g.depths.length) (hl' : code[r]? = some (.label l')) :
    Exact code pc (.either sets f g) := by
  have hlen : (Fragment.either sets f g).depths.length =
      f.depths.length + 3 + g.depths.length + 1 := by
    simp [Fragment.either]
    omega
  refine ⟨.inl (either_within_iff.mpr (.inl ⟨rfl, rfl⟩)), ?_, ?_⟩
  · rintro i n k d p hk rfl hs
    obtain ⟨rfl, rfl⟩ | ⟨j, rfl, hj⟩ | ⟨rfl, hj⟩ | ⟨rfl, rfl⟩ | ⟨j, rfl, hj⟩ | ⟨rfl, hj⟩ :=
      either_within_iff.mp hk
    · obtain rfl | ⟨-, rfl⟩ := (step_branch hn hb rfl hl).mp hs
      · have hno := either_within_iff (f := f) (g := g).mpr (.inr (.inr (.inr (.inl ⟨rfl, rfl⟩))))
        exact ⟨_, 0, .inl hno, by simp only; omega, rfl⟩
      · exact ⟨1, 0, either_at_of_at_left hf.entry, rfl, rfl⟩
    · obtain ⟨j', m, hm, hp⟩ := hf.closed hj (by omega) hs
      exact ⟨j' + 1, m, either_at_of_at_left hm, by omega, hp.2⟩
    · rw [show pc + (f.depths.length + 1) = q by omega, step_branch hn hg' rfl hl'] at hs
      obtain rfl | ⟨hgo, -⟩ := hs
      · have hend := either_within_iff (f := f) (g := g).mpr
          (.inr (.inr (.inr (.inr (.inr ⟨rfl, .inl hj⟩)))))
        exact ⟨_, k, .inl hend, by simp only; omega, rfl⟩
      · simp [Instr.falls] at hgo
    · rw [show pc + (f.depths.length + 2) = q + 1 by omega, step_label hl] at hs
      subst hs
      exact ⟨_, 0, either_at_of_at_right hg.entry, by simp only; omega, rfl⟩
    · obtain ⟨j', m, hm, hp⟩ := hg.closed hj (by omega) hs
      exact ⟨_, m, either_at_of_at_right hm, by omega, hp.2⟩
    · rw [show pc + (f.depths.length + 3 + g.depths.length) = r by omega, step_label hl'] at hs
      subst hs
      exact ⟨_, k, .inr ⟨hlen.symm, hj⟩, by simp only; omega, rfl⟩
  · rintro i n k d hk rfl
    have hin : Step code ⟨pc, d⟩ ⟨pc + 1, d⟩ := (step_branch hn hb rfl hl).mpr (.inr ⟨rfl, rfl⟩)
    have hno : Path code ⟨pc, d⟩ ⟨q + 1, d⟩ := .single ((step_branch hn hb rfl hl).mpr (.inl rfl))
    have hstart : Path code ⟨pc, d⟩ ⟨q + 2, d⟩ := hno.tail ((step_label hl).mpr rfl)
    have hyes : ∀ k ∈ f.exit, Path code ⟨pc, d⟩ ⟨q, d + k⟩ := by
      intro k hk
      exact .head hin (hf.attained d (.inr ⟨rfl, hk⟩) hq)
    have hjoin : ∀ k, k ∈ f.exit ∨ k ∈ g.exit → Path code ⟨pc, d⟩ ⟨r, d + k⟩ := by
      rintro k (hk | hk)
      · exact (hyes k hk).tail ((step_branch hn hg' rfl hl').mpr (.inl rfl))
      · exact hstart.trans (hg.attained d (.inr ⟨rfl, hk⟩) hr)
    obtain hk | ⟨rfl, hk⟩ := hk
    · obtain ⟨rfl, rfl⟩ | ⟨j, rfl, hj⟩ | ⟨rfl, hj⟩ | ⟨rfl, rfl⟩ | ⟨j, rfl, hj⟩ | ⟨rfl, hj⟩ :=
        either_within_iff.mp hk
      · simpa using Relation.ReflTransGen.refl
      · exact .head hin (hf.attained d (.inl hj) (by omega))
      · rw [show pc + (f.depths.length + 1) = q by omega]
        exact hyes k hj
      · rw [show pc + (f.depths.length + 2) = q + 1 by omega]
        simpa using hno
      · exact hstart.trans (hg.attained d (.inl hj) (by omega))
      · rw [show pc + (f.depths.length + 3 + g.depths.length) = r by omega]
        exact hjoin k hj
    · rw [hlen, show pc + (f.depths.length + 3 + g.depths.length + 1) = r + 1 by omega]
      exact (hjoin k hk).tail ((step_label hl').mpr rfl)

/-- What whole rounds of a loop can add. -/
def rounds (f g : Fragment (Set Int)) : AddSubmonoid Int := AddSubmonoid.closure (f.exit + g.exit)

theorem rounds_add {a b c : Int} (ha : a ∈ rounds f g) (hb : b ∈ f.exit) (hc : c ∈ g.exit) :
    a + b + c ∈ rounds f g := by
  rw [Int.add_assoc]
  exact add_mem ha (AddSubmonoid.subset_closure (Set.add_mem_add hb hc))

theorem loop_within_iff {i : Nat} {k : Int} : Within (Fragment.loop sets f g).depths i k ↔
    (i = 0 ∧ k ∈ rounds f g) ∨
      (∃ j, i = j + 1 ∧ ∃ a ∈ rounds f g, ∃ b, Within f.depths j b ∧ a + b = k) ∨
      (i = f.depths.length + 1 ∧ ∃ a ∈ rounds f g, ∃ b ∈ f.exit, a + b = k) ∨
      (∃ j, i = f.depths.length + 2 + j ∧
        ∃ a ∈ rounds f g, ∃ b ∈ f.exit, ∃ c, Within g.depths j c ∧ a + b + c = k) ∨
      (i = f.depths.length + 2 + g.depths.length ∧
        ∃ a ∈ rounds f g, ∃ b ∈ f.exit, ∃ c ∈ g.exit, a + b + c = k) ∨
      (i = f.depths.length + 3 + g.depths.length ∧
        ∃ a ∈ rounds f g, ∃ b ∈ f.exit, a + b = k) := by
  simp only [Fragment.loop, sets, rounds, List.cons_append, List.append_assoc, Within.cons_iff,
    Within.append_iff, Within.map_add_iff, Within.nil_iff, Set.mem_add, SetLike.mem_coe,
    List.length_map]
  constructor
  · rintro (h | ⟨j, rfl, h | ⟨m, rfl, ⟨rfl, h⟩ | ⟨m, rfl, ⟨t, ⟨a, ha, b, hb, rfl⟩, c, hc, rfl⟩ |
      ⟨m, rfl, ⟨rfl, t, ⟨a, ha, b, hb, rfl⟩, c, hc, rfl⟩ | ⟨m, rfl, ⟨rfl, h⟩ | ⟨m, -, ⟨⟩⟩⟩⟩⟩⟩⟩)
    · exact .inl h
    · exact .inr (.inl ⟨j, rfl, h⟩)
    · exact .inr (.inr (.inl ⟨by omega, h⟩))
    · exact .inr (.inr (.inr (.inl ⟨m, by omega, a, ha, b, hb, c, hc, rfl⟩)))
    · exact .inr (.inr (.inr (.inr (.inl ⟨by omega, a, ha, b, hb, c, hc, rfl⟩))))
    · exact .inr (.inr (.inr (.inr (.inr ⟨by omega, h⟩))))
  · rintro (h | ⟨j, rfl, h⟩ | ⟨rfl, h⟩ | ⟨j, rfl, a, ha, b, hb, c, hc, rfl⟩ |
      ⟨rfl, a, ha, b, hb, c, hc, rfl⟩ | ⟨rfl, h⟩)
    · exact .inl h
    · exact .inr ⟨j, rfl, .inl h⟩
    · exact .inr ⟨_, rfl, .inr ⟨0, by omega, .inl ⟨rfl, h⟩⟩⟩
    · exact .inr ⟨f.depths.length + (j + 1), by omega, .inr ⟨j + 1, rfl,
        .inr ⟨j, rfl, .inl ⟨a + b, ⟨a, ha, b, hb, rfl⟩, c, hc, rfl⟩⟩⟩⟩
    · exact .inr ⟨f.depths.length + (g.depths.length + 1), by omega, .inr ⟨_, rfl,
        .inr ⟨_, rfl, .inr ⟨0, rfl, .inl ⟨rfl, a + b, ⟨a, ha, b, hb, rfl⟩, c, hc, rfl⟩⟩⟩⟩⟩
    · exact .inr ⟨f.depths.length + (g.depths.length + 1 + 1), by omega, .inr ⟨_, rfl,
        .inr ⟨_, rfl, .inr ⟨1, rfl, .inr ⟨0, rfl, .inl ⟨rfl, h⟩⟩⟩⟩⟩⟩

theorem loop_at_of_at_test {i : Nat} {a b : Int} (ha : a ∈ rounds f g) (h : f.At i b) :
    (Fragment.loop sets f g).At (i + 1) (a + b) := by
  obtain h | ⟨rfl, h⟩ := h
  · exact .inl (loop_within_iff.mpr (.inr (.inl ⟨i, rfl, a, ha, b, h, rfl⟩)))
  · exact .inl (loop_within_iff.mpr (.inr (.inr (.inl ⟨rfl, a, ha, b, h, rfl⟩))))

theorem loop_at_of_at_body {i : Nat} {a b c : Int} (ha : a ∈ rounds f g) (hb : b ∈ f.exit)
    (h : g.At i c) : (Fragment.loop sets f g).At (f.depths.length + 2 + i) (a + b + c) := by
  obtain h | ⟨rfl, h⟩ := h
  · exact .inl (loop_within_iff.mpr (.inr (.inr (.inr (.inl ⟨i, rfl, a, ha, b, hb, c, h, rfl⟩)))))
  · exact .inl (loop_within_iff.mpr
      (.inr (.inr (.inr (.inr (.inl ⟨rfl, a, ha, b, hb, c, h, rfl⟩))))))

/-- Any number of rounds leads back to the start. -/
theorem path_rounds {l l' : Label} {q r : Nat} (hn : (Instr.labels code).Nodup)
    (hs : code[pc]? = some (.label l)) (hf : Exact code (pc + 1) f)
    (hq : q = pc + 1 + f.depths.length) (hb : code[q]? = some (.goFalse l'))
    (hg : Exact code (q + 1) g) (hr : r = q + 1 + g.depths.length)
    (hl : code[r]? = some (.go l)) (hl' : code[r + 1]? = some (.label l')) {k : Int}
    (hk : k ∈ rounds f g) : ∀ d, Path code ⟨pc, d⟩ ⟨pc, d + k⟩ := by
  induction hk using AddSubmonoid.closure_induction with
  | mem k hk =>
    intro d
    obtain ⟨a, ha, b, hb', rfl⟩ := hk
    have h₁ : Path code ⟨pc, d⟩ ⟨pc + 1, d⟩ := .single ((step_label hs).mpr rfl)
    have h₂ := h₁.trans (hf.attained d (.inr ⟨rfl, ha⟩) hq)
    have h₃ := h₂.tail ((step_branch hn hb rfl hl').mpr (.inr ⟨rfl, rfl⟩))
    have h₄ := h₃.trans (hg.attained (d + a) (.inr ⟨rfl, hb'⟩) hr)
    have h₅ := h₄.tail ((step_branch hn hl rfl hs).mpr (.inl rfl))
    rw [Int.add_assoc] at h₅
    exact h₅
  | zero =>
    intro d
    simpa using Relation.ReflTransGen.refl
  | add a b _ _ iha ihb =>
    intro d
    have h := (iha d).trans (ihb (d + a))
    rw [Int.add_assoc] at h
    exact h

theorem loop {l l' : Label} {q r : Nat} (hn : (Instr.labels code).Nodup)
    (hs : code[pc]? = some (.label l)) (hf : Exact code (pc + 1) f)
    (hq : q = pc + 1 + f.depths.length) (hb : code[q]? = some (.goFalse l'))
    (hg : Exact code (q + 1) g) (hr : r = q + 1 + g.depths.length)
    (hl : code[r]? = some (.go l)) (hl' : code[r + 1]? = some (.label l')) :
    Exact code pc (.loop sets f g) := by
  have hlen : (Fragment.loop sets f g).depths.length =
      f.depths.length + 3 + g.depths.length + 1 := by
    simp [Fragment.loop]
    omega
  have hzero : (0 : Int) ∈ rounds f g := zero_mem _
  refine ⟨.inl (loop_within_iff.mpr (.inl ⟨rfl, hzero⟩)), ?_, ?_⟩
  · rintro i n k d p hk rfl hp
    obtain ⟨rfl, ha⟩ | ⟨j, rfl, a, ha, b, hj, rfl⟩ | ⟨rfl, a, ha, b, hb', rfl⟩ |
      ⟨j, rfl, a, ha, b, hb', c, hj, rfl⟩ | ⟨rfl, a, ha, b, hb', c, hc, rfl⟩ |
      ⟨rfl, a, ha, b, hb', rfl⟩ := loop_within_iff.mp hk
    · rw [show pc + 0 = pc by omega, step_label hs] at hp
      subst hp
      exact ⟨1, k + 0, loop_at_of_at_test ha hf.entry, rfl, by simp⟩
    · rw [← Int.add_assoc] at hp
      obtain ⟨j', m, hm, hpc, hd⟩ := hf.closed hj (by omega) hp
      exact ⟨j' + 1, a + m, loop_at_of_at_test ha hm, by omega, by omega⟩
    · rw [show pc + (f.depths.length + 1) = q by omega, step_branch hn hb rfl hl'] at hp
      obtain rfl | ⟨-, rfl⟩ := hp
      · have hend := loop_within_iff (f := f) (g := g).mpr
          (.inr (.inr (.inr (.inr (.inr ⟨rfl, a, ha, b, hb', rfl⟩)))))
        exact ⟨_, a + b, .inl hend, by simp only; omega, rfl⟩
      · exact ⟨_, a + b + 0, loop_at_of_at_body ha hb' hg.entry, by simp only; omega, by simp⟩
    · rw [← Int.add_assoc] at hp
      obtain ⟨j', m, hm, hpc, hd⟩ := hg.closed hj (by omega) hp
      exact ⟨_, a + b + m, loop_at_of_at_body ha hb' hm, by omega, by omega⟩
    · rw [show pc + (f.depths.length + 2 + g.depths.length) = r by omega,
        step_branch hn hl rfl hs] at hp
      obtain rfl | ⟨hgo, -⟩ := hp
      · have hback := loop_within_iff.mpr (.inl ⟨rfl, rounds_add ha hb' hc⟩)
        exact ⟨0, a + b + c, .inl hback, rfl, rfl⟩
      · simp [Instr.falls] at hgo
    · rw [show pc + (f.depths.length + 3 + g.depths.length) = r + 1 by omega, step_label hl'] at hp
      subst hp
      refine ⟨_, a + b, .inr ⟨hlen.symm, ?_⟩, by simp only; omega, rfl⟩
      exact Set.add_mem_add ha hb'
  · rintro i n k d hk rfl
    have hstart : ∀ a ∈ rounds f g, Path code ⟨pc, d⟩ ⟨pc + 1, d + a⟩ := by
      intro a ha
      exact (path_rounds hn hs hf hq hb hg hr hl hl' ha d).tail ((step_label hs).mpr rfl)
    have htest : ∀ a ∈ rounds f g, ∀ b ∈ f.exit, Path code ⟨pc, d⟩ ⟨q, d + a + b⟩ := by
      intro a ha b hb'
      exact (hstart a ha).trans (hf.attained (d + a) (.inr ⟨rfl, hb'⟩) hq)
    have hbody : ∀ a ∈ rounds f g, ∀ b ∈ f.exit, Path code ⟨pc, d⟩ ⟨q + 1, d + a + b⟩ := by
      intro a ha b hb'
      exact (htest a ha b hb').tail ((step_branch hn hb rfl hl').mpr (.inr ⟨rfl, rfl⟩))
    have hend : ∀ a ∈ rounds f g, ∀ b ∈ f.exit, Path code ⟨pc, d⟩ ⟨r + 1, d + a + b⟩ := by
      intro a ha b hb'
      exact (htest a ha b hb').tail ((step_branch hn hb rfl hl').mpr (.inl rfl))
    obtain hk | ⟨rfl, a, ha, b, hb', rfl⟩ := hk
    · obtain ⟨rfl, ha⟩ | ⟨j, rfl, a, ha, b, hj, rfl⟩ | ⟨rfl, a, ha, b, hb', rfl⟩ |
        ⟨j, rfl, a, ha, b, hb', c, hj, rfl⟩ | ⟨rfl, a, ha, b, hb', c, hc, rfl⟩ |
        ⟨rfl, a, ha, b, hb', rfl⟩ := loop_within_iff.mp hk
      · exact path_rounds hn hs hf hq hb hg hr hl hl' ha d
      · have h := (hstart a ha).trans (hf.attained (d + a) (.inl hj) rfl)
        rwa [Int.add_assoc, show pc + 1 + j = pc + (j + 1) by omega] at h
      · have h := htest a ha b hb'
        rwa [Int.add_assoc, show q = pc + (f.depths.length + 1) by omega] at h
      · have h := (hbody a ha b hb').trans (hg.attained (d + a + b) (.inl hj) rfl)
        rwa [Int.add_assoc, Int.add_assoc, ← Int.add_assoc a,
          show q + 1 + j = pc + (f.depths.length + 2 + j) by omega] at h
      · have h := (hbody a ha b hb').trans (hg.attained (d + a + b) (.inr ⟨rfl, hc⟩) hr)
        rwa [Int.add_assoc, Int.add_assoc, ← Int.add_assoc a,
          show r = pc + (f.depths.length + 2 + g.depths.length) by omega] at h
      · have h := hend a ha b hb'
        rwa [Int.add_assoc, show r + 1 = pc + (f.depths.length + 3 + g.depths.length) by omega] at h
    · have h := (hend a ha b hb').tail ((step_label hl').mpr rfl)
      rwa [Int.add_assoc, show r + 1 + 1 = pc + (f.depths.length + 3 + g.depths.length + 1) by omega,
        ← hlen] at h

end Exact
end Morpho.Flow
