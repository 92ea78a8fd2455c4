import Morpho.Proofs.Sites

/-! Functions compiled one after the other. Their labels and branches are the same numbers, each once,
and no branch leaves its function or goes into the code of an expression from outside. -/
namespace Morpho

open Morpho.Instr

/-- The sites of all expressions in a function whose labels start at `n`. -/
def Function.sites (f : Function) (n : Label) : List Site := f.body.sites true n 0

namespace Routine

/-- The routine number `k` has at place `i` a branch to `l`. -/
def Branch (rs : List Routine) (k i : Nat) (l : Label) : Prop :=
  ∃ r b, rs[k]? = some r ∧ r.code[i]? = some b ∧ b.target? = some l

/-- The routine number `k` is the code of `f` with labels from `m` on. Its labels and the targets of
its branches are the same numbers. A branch, of whichever routine, goes to a label in the code of an
expression of `f` exactly if it stands in that code, and a branch of the routine goes back if it closes
a loop and ahead if not. -/
structure Linked (rs : List Routine) (k : Nat) (f : Function) (m : Label) : Prop where
  routine : rs[k]? = some (f.routine m).1
  labels : Fills (labels (f.routine m).1.code) m (f.routine m).2
  targets : Fills (f.routine m).1.targets m (f.routine m).2
  placed : ∀ σ ∈ f.sites m, Placed (f.routine m).1.code σ.place σ.code
  closed : ∀ σ ∈ f.sites m, ∀ k' i l, Branch rs k' i l →
    (l ∈ Instr.labels σ.code ↔ k' = k ∧ σ.place ≤ i ∧ i < σ.place + σ.code.length)
  back : ∀ i j, Goes (f.routine m).1.code i j → (j < i ↔ ∃ σ ∈ f.sites m, σ.back? = some i)
  ahead : ∀ i j, Goes (f.routine m).1.code i j → (i < j ↔ ∀ σ ∈ f.sites m, σ.back? ≠ some i)

theorem ofFunctions_labels : ∀ (fs : List Function) (n : Label),
    Fills ((ofFunctions fs n).1.flatMap fun r => labels r.code) n (ofFunctions fs n).2
  | [], n => .nil n
  | f :: fs, n => by
    have h := (f.body.emit_fills true n).append (ofFunctions_labels fs (f.body.emit true n).next)
    simpa [ofFunctions, Function.routine] using h

theorem ofFunctions_targets : ∀ (fs : List Function) (n : Label),
    Fills ((ofFunctions fs n).1.flatMap targets) n (ofFunctions fs n).2
  | [], n => .nil n
  | f :: fs, n => by
    have hf := (f.body.emit_fills true n).of_perm (f.body.emit_matched true n)
    have h := hf.append (ofFunctions_targets fs (f.body.emit true n).next)
    simpa [ofFunctions, Function.routine, targets, Instr.targets] using h

theorem ofFunctions_getElem? : ∀ {fs : List Function} (n : Label) {k : Nat} {f : Function},
    fs[k]? = some f → ∃ m, (ofFunctions fs n).1[k]? = some (f.routine m).1
  | [], n, k, f, h => by simp at h
  | g :: fs, n, 0, f, h => by
    obtain rfl : g = f := by simpa using h
    exact ⟨n, rfl⟩
  | g :: fs, n, k + 1, f, h => ofFunctions_getElem? (g.routine n).2 (by simpa using h)

/-- Where each label is the target of one branch in all routines, two branches to a label are one. -/
theorem branch_unique {rs : List Routine} (hn : (rs.flatMap targets).Nodup) {k k' i i' : Nat}
    {l : Label} (h : Branch rs k i l) (h' : Branch rs k' i' l) : k = k' ∧ i = i' := by
  obtain ⟨r, b, hr, hb, hl⟩ := h
  obtain ⟨r', b', hr', hb', hl'⟩ := h'
  obtain ⟨hone, hdis⟩ := List.nodup_flatMap.mp hn
  have hmem : l ∈ r.targets := mem_targets_of_getElem? hb hl
  have hmem' : l ∈ r'.targets := mem_targets_of_getElem? hb' hl'
  have hk : k = k' := by
    by_contra hne
    rw [List.pairwise_iff_getElem] at hdis
    obtain ⟨hlen, rfl⟩ := List.getElem?_eq_some_iff.mp hr
    obtain ⟨hlen', rfl⟩ := List.getElem?_eq_some_iff.mp hr'
    obtain hlt | hlt := Nat.lt_or_gt_of_ne hne
    · exact hdis k k' hlen hlen' hlt hmem hmem'
    · exact hdis k' k hlen' hlen hlt hmem' hmem
  subst hk
  obtain rfl : r = r' := by simpa [hr] using hr'
  exact ⟨rfl, place_unique (hone r (List.mem_of_getElem? hr)) hb hl hb' hl'⟩

/-- The code of a site is closed: its labels are the targets of its own branches. -/
theorem mem_labels_iff_of_branch {rs : List Routine} (hn : (rs.flatMap targets).Nodup) {k : Nat}
    {r : Routine} (hr : rs[k]? = some r) {pc : Nat} {c : List Instr} (hp : Placed r.code pc c)
    (hm : Matched c) {k' i : Nat} {l : Label} (h : Branch rs k' i l) :
    l ∈ Instr.labels c ↔ k' = k ∧ pc ≤ i ∧ i < pc + c.length := by
  constructor
  · intro hl
    obtain ⟨b, hb, ht⟩ := List.mem_filterMap.mp (hm.mem_iff.mpr hl)
    obtain ⟨x, hx⟩ := List.mem_iff_getElem?.mp hb
    have hlen : x < c.length := (List.getElem?_eq_some_iff.mp hx).1
    have hin : Branch rs k (pc + x) l := ⟨r, b, hr, by rw [hp.getElem? hlen, hx], ht⟩
    obtain ⟨rfl, rfl⟩ := branch_unique hn h hin
    exact ⟨rfl, by omega, by omega⟩
  · rintro ⟨rfl, hle, hlt⟩
    obtain ⟨r', b, hr', hb, ht⟩ := h
    obtain rfl : r = r' := by simpa [hr] using hr'
    have hx := hp.getElem? (i := i - pc) (by omega)
    rw [Nat.add_sub_cancel' hle, hb] at hx
    exact hm.mem_iff.mp (mem_targets_of_getElem? hx.symm ht)

/-- For all functions compiled one after the other: the labels that their code defines are those from
the first one on below the next free one, each defined once and each the target of one branch. Each
function has an interval of them for itself, the code of every expression in it is closed, and only the
branch that closes a loop goes back. -/
theorem ofFunctions_linked (fs : List Function) (n : Label) :
    Fills ((ofFunctions fs n).1.flatMap fun r => Instr.labels r.code) n (ofFunctions fs n).2 ∧
    Fills ((ofFunctions fs n).1.flatMap targets) n (ofFunctions fs n).2 ∧
    ∀ k f, fs[k]? = some f → ∃ m, Linked (ofFunctions fs n).1 k f m := by
  have htargets := ofFunctions_targets fs n
  refine ⟨ofFunctions_labels fs n, htargets, fun k f hf => ?_⟩
  obtain ⟨m, hr⟩ := ofFunctions_getElem? n hf
  have hlabels := f.body.emit_fills true m
  have hsites := f.body.emit_sited true m 0
  have hplaced := hsites.placed (.self _)
  have hback : ∀ i j, Goes (f.routine m).1.code i j →
      (j < i ↔ ∃ σ ∈ f.sites m, σ.back? = some i) := by
    intro i j h
    have hi := hsites.backward i
    rw [Nat.zero_add] at hi
    exact (lt_iff_backward hlabels.nodup h).trans hi
  refine ⟨m, hr, hlabels, hlabels.of_perm (f.body.emit_matched true m), hplaced, ?_, hback, ?_⟩
  · intro σ hσ k' i l hb
    exact mem_labels_iff_of_branch htargets.nodup hr (hplaced σ hσ) (hsites.matched σ hσ) hb
  · intro i j h
    have hne := ne_of_goes h
    have hiff := hback i j h
    constructor
    · intro hlt σ hσ heq
      have hgt := hiff.mpr ⟨σ, hσ, heq⟩
      omega
    · intro hall
      have hge : ¬ j < i := fun hlt =>
        let ⟨σ, hσ, heq⟩ := hiff.mp hlt
        hall σ hσ heq
      omega

/-- A loop inside a branch, compiled behind another function with a branch. -/
theorem ofFunctions_linked_nested :
    let f : Function := ⟨"f", 1, .last (.or (.fetch 0) (.literal "1"))⟩
    let g : Function := ⟨"g", 1, .last (.ifThen (.fetch 0)
      (.last (.loop (.fetch 0) (.last (.store 0 (.literal "null"))))))⟩
    [f, g][1]? = some g ∧ ∃ m, Linked (ofFunctions [f, g] 5).1 1 g m :=
  ⟨rfl, (ofFunctions_linked _ 5).2.2 1 _ rfl⟩

end Routine

end Morpho
