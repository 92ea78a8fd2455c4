import Morpho.Proofs.Flow.Reached
import Mathlib.Order.Bounds.Basic

/-! Depths by their least element and by whether there is another one. These descriptions can be
computed, and they are exact for the sets of depths at which control reaches an instruction. -/
namespace Morpho

namespace Flow

open scoped Pointwise

/-- A set of depths: its least element, and whether that is the only one. -/
structure Span where
  least : Int
  single : Bool
  deriving DecidableEq

namespace Span

def add (x y : Span) : Span := ⟨x.least + y.least, x.single && y.single⟩

def join (x y : Span) : Span :=
  ⟨min x.least y.least, x.single && y.single && x.least == y.least⟩

/-- Any number of rounds, none of which takes depth away. -/
def again (x : Span) : Span := ⟨0, x.single && x.least == 0⟩

end Span

/-- Descriptions of sets of depths; none describes the empty set. -/
def spans : Domain (Option Span) where
  unreached := none
  exactly k := some ⟨k, true⟩
  add
    | some x, some y => some (x.add y)
    | _, _ => none
  join
    | some x, some y => some (x.join y)
    | none, y => y
    | x, none => x
  again
    | some x => some x.again
    | none => some ⟨0, true⟩

/-- The description `x` is true of the set. -/
def Spans (x : Option Span) (S : Set Int) : Prop :=
  match x with
  | none => S = ∅
  | some x => IsLeast S x.least ∧ (x.single = true ↔ ∀ k ∈ S, k = x.least)

namespace Spans

variable {x y : Option Span} {S T : Set Int}

theorem unreached : Spans spans.unreached sets.unreached := rfl

theorem exactly (k : Int) : Spans (spans.exactly k) (sets.exactly k) := by
  refine ⟨isLeast_singleton, ?_⟩
  simp [sets]

theorem add (hx : Spans x S) (hy : Spans y T) : Spans (spans.add x y) (sets.add S T) := by
  cases x with
  | none =>
    obtain rfl : S = ∅ := hx
    exact Set.empty_add
  | some x =>
    cases y with
    | none =>
      obtain rfl : T = ∅ := hy
      exact Set.add_empty
    | some y =>
      obtain ⟨⟨hm, hlow⟩, hs⟩ := hx
      obtain ⟨⟨hm', hlow'⟩, hs'⟩ := hy
      refine ⟨⟨Set.add_mem_add hm hm', ?_⟩, ?_⟩
      · rintro _ ⟨a, ha, b, hb, rfl⟩
        exact Int.add_le_add (hlow ha) (hlow' hb)
      · change (x.single && y.single) = true ↔ ∀ k ∈ S + T, k = x.least + y.least
        rw [Bool.and_eq_true, hs, hs']
        constructor
        · rintro ⟨h, h'⟩ _ ⟨a, ha, b, hb, rfl⟩
          simp [h a ha, h' b hb]
        · intro h
          constructor
          · intro a ha
            have := h _ (Set.add_mem_add ha hm')
            omega
          · intro b hb
            have := h _ (Set.add_mem_add hm hb)
            omega

theorem join (hx : Spans x S) (hy : Spans y T) : Spans (spans.join x y) (sets.join S T) := by
  cases x with
  | none =>
    obtain rfl : S = ∅ := hx
    simpa [spans, sets] using hy
  | some x =>
    cases y with
    | none =>
      obtain rfl : T = ∅ := hy
      simpa [spans, sets] using hx
    | some y =>
      obtain ⟨hm, hs⟩ := hx
      obtain ⟨hm', hs'⟩ := hy
      refine ⟨hm.union hm', ?_⟩
      change (x.single && y.single && x.least == y.least) = true ↔
        ∀ k ∈ S ∪ T, k = min x.least y.least
      rw [Bool.and_eq_true, Bool.and_eq_true, hs, hs', beq_iff_eq]
      constructor
      · rintro ⟨⟨h, h'⟩, heq⟩ k (hk | hk)
        · have := h k hk
          omega
        · have := h' k hk
          omega
      · intro h
        have hl := h _ (.inl hm.1)
        have hl' := h _ (.inr hm'.1)
        refine ⟨⟨fun k hk => ?_, fun k hk => ?_⟩, by omega⟩
        · have := h k (.inl hk)
          omega
        · have := h k (.inr hk)
          omega

theorem nonneg_of_again (h₀ : ∀ k ∈ S, 0 ≤ k) {k : Int} (hk : k ∈ sets.again S) : 0 ≤ k := by
  induction hk using AddSubmonoid.closure_induction with
  | mem k hk => exact h₀ k hk
  | zero => exact Int.le_refl 0
  | add a b _ _ ha hb => exact Int.add_nonneg ha hb

/-- Rounds that take no depth away come back to where they started, or deeper. -/
theorem again (hx : Spans x S) (h₀ : ∀ k ∈ S, 0 ≤ k) : Spans (spans.again x) (sets.again S) := by
  cases x with
  | none =>
    obtain rfl : S = ∅ := hx
    have h : sets.again ∅ = {0} := by simp [sets]
    rw [h]
    exact exactly 0
  | some x =>
    obtain ⟨⟨hm, -⟩, hs⟩ := hx
    have hsub : S ⊆ sets.again S := AddSubmonoid.subset_closure
    refine ⟨⟨zero_mem (AddSubmonoid.closure S), fun k => nonneg_of_again h₀⟩, ?_⟩
    change (x.single && x.least == 0) = true ↔ ∀ k ∈ sets.again S, k = 0
    rw [Bool.and_eq_true, hs, beq_iff_eq]
    constructor
    · rintro ⟨h, hz⟩ k hk
      induction hk using AddSubmonoid.closure_induction with
      | mem k hk => rw [h k hk, hz]
      | zero => rfl
      | add a b _ _ ha hb => rw [ha, hb, Int.add_zero]
    · intro h
      have hz := h _ (hsub hm)
      exact ⟨fun k hk => by rw [h k (hsub hk), hz], hz⟩

end Spans

namespace Fragment

/-- The fragment `f` describes the fragment `g`, and `g` leaves nobody at its end with less than `k`
more than at its start. -/
structure Spans (k : Int) (f : Fragment (Option Span)) (g : Fragment (Set Int)) : Prop where
  marks : f.marks = g.marks
  depths : List.Forall₂ Flow.Spans f.depths g.depths
  exit : Flow.Spans f.exit g.exit
  floor : ∀ m ∈ g.exit, k ≤ m

namespace Spans

variable {f f' : Fragment (Option Span)} {g g' : Fragment (Set Int)} {j k : Int}

theorem nil : Spans 0 (.nil spans) (.nil sets) where
  marks := rfl
  depths := .nil
  exit := .exactly 0
  floor _ hm := Int.le_of_eq (Eq.symm hm)

theorem weaken (h : Spans k f g) (hj : j ≤ k) : Spans j f g :=
  { h with floor := fun m hm => Int.le_trans hj (h.floor m hm) }

theorem instr (m : Mark) (r : Bool) (k : Int) :
    Spans k (.instr spans m r k) (.instr sets m r k) where
  marks := rfl
  depths := .cons (.exactly 0) .nil
  exit := by
    cases r with
    | true => exact .unreached
    | false => exact .exactly k
  floor _ hm := by
    cases r with
    | true => exact hm.elim
    | false => exact Int.le_of_eq (Eq.symm hm)

theorem closing (tail : Bool) : Spans 0 (.closing spans tail) (.closing sets tail) := by
  cases tail with
  | true => exact instr .other true 0
  | false => exact nil

theorem map_add {x : Option Span} {S : Set Int} {l : List (Option Span)} {l' : List (Set Int)}
    (hx : Flow.Spans x S) (hl : List.Forall₂ Flow.Spans l l') :
    List.Forall₂ Flow.Spans (l.map (spans.add x)) (l'.map (sets.add S)) := by
  rw [List.forall₂_map_left_iff, List.forall₂_map_right_iff]
  exact hl.imp fun _ _ h => hx.add h

theorem seq (h : Spans j f g) (h' : Spans k f' g') :
    Spans (j + k) (.seq spans f f') (.seq sets g g') where
  marks := by simp [Fragment.seq, h.marks, h'.marks]
  depths := List.rel_append h.depths (map_add h.exit h'.depths)
  exit := h.exit.add h'.exit
  floor := by
    rintro _ ⟨a, ha, b, hb, rfl⟩
    exact Int.add_le_add (h.floor a ha) (h'.floor b hb)

theorem skip (h : Spans 0 f g) : Spans 0 (.skip spans f) (.skip sets g) where
  marks := by simp [Fragment.skip, h.marks]
  depths := List.rel_append (.cons (.exactly 0) h.depths) (.cons (.join (.exactly 0) h.exit) .nil)
  exit := .join (.exactly 0) h.exit
  floor := by
    rintro m (rfl | hm)
    · exact Int.le_refl 0
    · exact h.floor m hm

theorem either (h : Spans 0 f g) (h' : Spans 0 f' g') :
    Spans 0 (.either spans f f') (.either sets g g') where
  marks := by simp [Fragment.either, h.marks, h'.marks]
  depths := List.rel_append (List.rel_append (.cons (.exactly 0) h.depths)
    (.cons h.exit (.cons (.exactly 0) h'.depths))) (.cons (h.exit.join h'.exit) .nil)
  exit := h.exit.join h'.exit
  floor := by
    rintro m (hm | hm)
    · exact h.floor m hm
    · exact h'.floor m hm

theorem loop (h : Spans 0 f g) (h' : Spans 0 f' g') :
    Spans 0 (.loop spans f f') (.loop sets g g') := by
  have hround : ∀ k ∈ sets.add g.exit g'.exit, 0 ≤ k := (h.seq h').floor
  have hstart := (h.exit.add h'.exit).again hround
  have htest := hstart.add h.exit
  refine ⟨by simp [Fragment.loop, h.marks, h'.marks], ?_, htest, ?_⟩
  · exact List.rel_append (List.rel_append (.cons hstart (map_add hstart h.depths))
      (.cons htest (map_add htest h'.depths))) (.cons (htest.add h'.exit) (.cons htest .nil))
  · rintro _ ⟨a, ha, b, hb, rfl⟩
    exact Int.add_nonneg (Spans.nonneg_of_again hround ha) (h.floor b hb)

end Spans
end Fragment
end Flow

open Morpho.Flow

theorem Expr.operand_spans (e : Expr) {f : Fragment (Option Span)} {g : Fragment (Set Int)}
    (h : f.Spans 0 g) : (e.operandFragment spans f).Spans 1 (e.operandFragment sets g) := by
  have hp := (Fragment.Spans.instr .other false 1).seq h
  cases e with
  | literal t => exact .instr .other false 1
  | _ => exact hp

mutual

/-- Descriptions computed along an expression are true of its sets, and an expression leaves on the
frame at least what it found there. -/
theorem Expr.fragment_spans : ∀ (e : Expr) (tail : Bool),
    (e.fragment spans tail).Spans 0 (e.fragment sets tail)
  | .literal t, tail => .instr .other tail 0
  | .fetch s, tail => .instr (.access s) tail 0
  | .store s e, tail => (e.fragment_spans false).seq (.instr (.access s) tail 0)
  | .call f args, tail => by
    have h := (Expr.fragmentArgs_spans args).seq
      (.instr .other tail (-((args.length - 1 : Nat) : Int)))
    exact h.weaken (by omega)
  | .ret e, tail => (e.fragment_spans e.isLeaf).seq (.closing _)
  | .ifThen c y, tail =>
    (c.fragment_spans false).seq ((y.fragment_spans tail).skip.seq (.closing tail))
  | .ifElse c y o, tail =>
    (c.fragment_spans false).seq ((y.fragment_spans tail).either (o.fragment_spans tail))
  | .block b, tail => b.fragment_spans tail
  | .loop c b, tail =>
    ((c.fragment_spans false).loop (b.fragment_spans false)).seq (.closing tail)
  | .or l r, tail =>
    (l.fragment_spans false).seq ((r.fragment_spans tail).skip.seq (.closing tail))
  | .and l r, tail =>
    (l.fragment_spans false).seq ((r.fragment_spans tail).skip.seq (.closing tail))
  | .not e, tail => (e.fragment_spans false).seq (.instr .other tail 0)
  | .decl e, tail => by
    have h := (e.fragment_spans false).seq
      ((Fragment.Spans.instr .declare false 1).seq (.closing tail))
    exact h.weaken (by omega)

theorem Body.fragment_spans : ∀ (b : Body) (tail : Bool),
    (b.fragment spans tail).Spans 0 (b.fragment sets tail)
  | .last e, tail => e.fragment_spans tail
  | .cons e rest, tail => (e.fragment_spans false).seq (rest.fragment_spans tail)

theorem Expr.fragmentArgs_spans : ∀ es : List Expr,
    (Expr.fragmentArgs spans es).Spans ((es.length - 1 : Nat) : Int) (Expr.fragmentArgs sets es)
  | [] => .nil
  | e :: es => by
    have h := (e.fragment_spans false).seq (Expr.fragmentOperands_spans es)
    refine h.weaken ?_
    rw [List.length_cons]
    omega

theorem Expr.fragmentOperands_spans : ∀ es : List Expr,
    (Expr.fragmentOperands spans es).Spans es.length (Expr.fragmentOperands sets es)
  | [] => .nil
  | e :: es => by
    have h := (e.operand_spans (e.fragment_spans false)).seq (Expr.fragmentOperands_spans es)
    refine h.weaken ?_
    rw [List.length_cons]
    omega

end

namespace Function

/-- The code of a function, instruction by instruction, with a description of the depths. -/
def spans (f : Function) : Fragment (Option Span) := f.body.fragment Flow.spans true

theorem spans_flow (f : Function) : f.spans.Spans 0 f.flow := f.body.fragment_spans true

end Function
end Morpho
