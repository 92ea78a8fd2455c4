import Morpho.Proofs.Labels

/-! Calls. The code of a function makes the calls that are written in it, each one at one place and all
in the order of evaluation: what stands inside a call before the call itself, from left to right. A call
returns from the function if its value is what a return hands over, or what the function itself does. -/
namespace Morpho

/-- The expressions right inside an expression, in order. -/
def Expr.children : Expr → List Expr
  | .literal _ | .fetch _ => []
  | .store _ e | .ret e | .not e | .decl e => [e]
  | .call _ args => args
  | .ifThen c y => c :: y.toList
  | .ifElse c y o => c :: (y.toList ++ o.toList)
  | .block b => b.toList
  | .loop c b => c :: b.toList
  | .or l r | .and l r => [l, r]

theorem Body.sizeOf_lt_of_mem {b : Body} {e : Expr} (h : e ∈ b.toList) : sizeOf e < sizeOf b := by
  induction b using Body.toList.induct with
  | case1 e' =>
    obtain rfl : e = e' := by simpa [Body.toList] using h
    simp
  | case2 e' rest ih =>
    have hrest : e = e' ∨ sizeOf e < sizeOf rest := (List.mem_cons.mp h).imp id ih
    simp only [Body.cons.sizeOf_spec]
    grind

theorem Body.length_pos (b : Body) : 0 < b.length := by
  cases b <;> simp [Body.length]

theorem Expr.sizeOf_lt_of_mem_children {e c : Expr} (h : c ∈ e.children) : sizeOf c < sizeOf e := by
  have hbody : ∀ b : Body, c ∈ b.toList → sizeOf c < sizeOf b := fun b => Body.sizeOf_lt_of_mem
  have hargs : ∀ es : List Expr, c ∈ es → sizeOf c < sizeOf es := fun es => List.sizeOf_lt_of_mem
  cases e <;> simp only [Expr.children] at h <;> grind

namespace Expr

/-- A way from an expression into one of its children. -/
structure Turn where
  parent : Expr
  child : Nat

/-- An expression somewhere inside another one, and the way to it from there. -/
structure Node where
  way : List Turn
  expr : Expr

/-- The node as it is seen from further out. -/
def Node.under (t : Turn) (x : Node) : Node := { x with way := t :: x.way }

/-- All nodes of an expression in post-order: those of its children, from left to right, and itself. -/
def nodes (e : Expr) : List Node :=
  e.children.zipIdx.attach.flatMap (fun q => q.1.1.nodes.map (.under ⟨e, q.1.2⟩)) ++ [⟨[], e⟩]
termination_by sizeOf e
decreasing_by exact sizeOf_lt_of_mem_children (List.fst_mem_of_mem_zipIdx q.2)

/-- The nodes of some children of `parent`, numbered from `i` on. -/
def nodesFrom (parent : Expr) (i : Nat) (es : List Expr) : List Node :=
  (es.zipIdx i).flatMap fun q => q.1.nodes.map (.under ⟨parent, q.2⟩)

theorem nodes_eq (e : Expr) : e.nodes = nodesFrom e 0 e.children ++ [⟨[], e⟩] := by
  rw [nodes, nodesFrom]
  congr 1
  conv_rhs => rw [← List.attach_map_subtype_val e.children.zipIdx, List.flatMap_map]

@[simp] theorem nodesFrom_nil (parent : Expr) (i : Nat) : nodesFrom parent i [] = [] := rfl

@[simp] theorem nodesFrom_cons (parent : Expr) (i : Nat) (e : Expr) (es : List Expr) :
    nodesFrom parent i (e :: es) = e.nodes.map (.under ⟨parent, i⟩) ++ nodesFrom parent (i + 1) es := rfl

theorem nodesFrom_append (parent : Expr) (i : Nat) (es es' : List Expr) :
    nodesFrom parent i (es ++ es') =
      nodesFrom parent i es ++ nodesFrom parent (i + es.length) es' := by
  rw [nodesFrom, List.zipIdx_append, List.flatMap_append]
  rfl

/-- Returns hand over the value of their child. -/
def isReturn : Expr → Bool
  | .ret _ => true
  | _ => false

/-- Into a child whose value is that of its parent, and after which nothing is left to do: the last
expression of a block or of an arm, or the right operand of `or` and `and`. The children of a branch
are its condition and the expressions of its arms. -/
def Turn.isTail (t : Turn) : Bool :=
  match t.parent with
  | .block b => t.child + 1 == b.length
  | .ifThen _ y => t.child == y.length
  | .ifElse _ y o => t.child == y.length || t.child == y.length + o.length
  | .or _ _ | .and _ _ => t.child == 1
  | _ => false

namespace Node

/-- The node is what a return hands over. -/
def isReturned (x : Node) : Bool := x.way.getLast?.any (·.parent.isReturn)

/-- The node is in tail position as far as the expression that it is seen from. -/
def isTail (x : Node) : Bool := x.way.all Turn.isTail

end Node
end Expr

/-- A call with the number of its arguments; it may return from the function that makes it. -/
structure Call where
  name : String
  argc : Nat
  returns : Bool
  deriving DecidableEq

/-- The call that an instruction makes. -/
def Instr.call? : Instr → Option Call
  | call f n => some ⟨f, n, false⟩
  | callR f n => some ⟨f, n, true⟩
  | _ => none

/-- The calls that code makes, in order. -/
def Instr.calls (code : List Instr) : List Call := code.filterMap Instr.call?

/-- The call that a node is. It returns if it is what a return hands over, or if it is in tail position
and `tail` says that the expression it is seen from is so, too. -/
def Expr.Node.call? (tail : Bool) (x : Expr.Node) : Option Call :=
  match x.expr with
  | .call f args => some ⟨f, args.length, x.isReturned || (tail && x.isTail)⟩
  | _ => none

namespace Instr

@[simp] theorem calls_nil : calls [] = [] := rfl
@[simp] theorem calls_cons (i : Instr) (code : List Instr) :
    calls (i :: code) = i.call?.toList ++ calls code := by
  cases h : i.call? <;> simp [calls, h]
@[simp] theorem calls_append (a b : List Instr) : calls (a ++ b) = calls a ++ calls b :=
  List.filterMap_append
@[simp] theorem calls_closing (tail : Bool) : calls (closing tail) = [] := by
  cases tail <;> rfl

end Instr

namespace Expr

@[simp] theorem Node.under_way (t : Turn) (x : Node) : (x.under t).way = t :: x.way := rfl
@[simp] theorem Node.under_expr (t : Turn) (x : Node) : (x.under t).expr = x.expr := rfl

/-- Below anything but a return, a call is in tail position if its turns are and the one to them is. -/
theorem Node.call?_under {t : Turn} (ht : t.parent.isReturn = false) (tail : Bool) (x : Node) :
    (x.under t).call? tail = x.call? (tail && t.isTail) := by
  have hreturned : (x.under t).isReturned = x.isReturned := by
    cases hx : x.way with
    | nil => simp [Node.isReturned, hx, ht]
    | cons t' way => simp [Node.isReturned, hx]
  simp only [Node.call?, Node.under_expr, hreturned, Node.isTail, Node.under_way, List.all_cons,
    Bool.and_assoc]

/-- The calls in an expression, in order; `tail` says whether it is in tail position itself. -/
def calls (tail : Bool) (e : Expr) : List Call := e.nodes.filterMap (Node.call? tail)

/-- The calls in some children of `parent`, numbered from `i` on. -/
def callsFrom (tail : Bool) (parent : Expr) (i : Nat) (es : List Expr) : List Call :=
  (nodesFrom parent i es).filterMap (Node.call? tail)

theorem calls_eq (tail : Bool) (e : Expr) :
    e.calls tail = callsFrom tail e 0 e.children ++ (Node.call? tail ⟨[], e⟩).toList := by
  rw [calls, nodes_eq, List.filterMap_append, callsFrom]
  cases h : Node.call? tail ⟨[], e⟩ <;> simp [h]

section Children

variable {parent : Expr} {tail : Bool} {i : Nat}

@[simp] theorem callsFrom_nil : callsFrom tail parent i [] = [] := rfl

theorem callsFrom_append (es es' : List Expr) :
    callsFrom tail parent i (es ++ es') =
      callsFrom tail parent i es ++ callsFrom tail parent (i + es.length) es' := by
  rw [callsFrom, nodesFrom_append, List.filterMap_append]
  rfl

theorem callsFrom_cons (hp : parent.isReturn = false) (e : Expr) (es : List Expr) :
    callsFrom tail parent i (e :: es) =
      e.calls (tail && Turn.isTail ⟨parent, i⟩) ++ callsFrom tail parent (i + 1) es := by
  rw [callsFrom, nodesFrom_cons, List.filterMap_append, List.filterMap_map, calls]
  congr 2
  funext x
  exact x.call?_under hp tail

/-- Where no turn is a tail turn, no child is in tail position. -/
theorem callsFrom_eq_flatMap (hp : parent.isReturn = false) (ht : ∀ k, Turn.isTail ⟨parent, k⟩ = false)
    (es : List Expr) : callsFrom tail parent i es = es.flatMap (calls false) := by
  induction es generalizing i with
  | nil => rfl
  | cons e es ih => rw [callsFrom_cons hp, ht, Bool.and_false, ih, List.flatMap_cons]

end Children
end Expr

/-- The calls in a body, whose last expression is in tail position if the body is. -/
def Body.calls (tail : Bool) : Body → List Call
  | .last e => e.calls tail
  | .cons e rest => e.calls false ++ rest.calls tail

namespace Expr

/-- A body among the children of `parent`, of whose turns only the one to its end may be a tail turn. -/
theorem callsFrom_toList {parent : Expr} {tail : Bool} {i : Nat} (hp : parent.isReturn = false)
    (last : Bool) (b : Body)
    (hinit : ∀ k, i ≤ k → k + 1 < i + b.length → Turn.isTail ⟨parent, k⟩ = false)
    (hlast : ∀ k, k + 1 = i + b.length → Turn.isTail ⟨parent, k⟩ = last) :
    callsFrom tail parent i b.toList = b.calls (tail && last) := by
  induction b using Body.toList.induct generalizing i with
  | case1 e =>
    rw [Body.toList, callsFrom_cons hp, hlast i rfl, callsFrom_nil, List.append_nil, Body.calls]
  | case2 e rest ih =>
    simp only [Body.length] at hinit hlast
    have hrest : callsFrom tail parent (i + 1) rest.toList = rest.calls (tail && last) :=
      ih (fun k hi hk => hinit k (by omega) (by omega)) (fun k hk => hlast k (by omega))
    have hpos := rest.length_pos
    rw [Body.toList, callsFrom_cons hp, hinit i (by omega) (by omega), hrest, Bool.and_false, Body.calls]

theorem mem_nodes {e : Expr} {x : Node} (hx : x ∈ e.nodes) :
    x = ⟨[], e⟩ ∨ ∃ k way, x.way = ⟨e, k⟩ :: way := by
  rw [nodes_eq, List.mem_append, List.mem_singleton] at hx
  refine hx.symm.imp_right fun hx => ?_
  obtain ⟨q, -, hx⟩ := List.mem_flatMap.mp hx
  obtain ⟨y, -, rfl⟩ := List.mem_map.mp hx
  exact ⟨q.2, y.way, rfl⟩

theorem Turn.isTail_of_isLeaf {t : Turn} (h : t.parent.isLeaf = true) : t.isTail = false := by
  obtain ⟨parent, k⟩ := t
  cases parent <;> first | rfl | cases h

/-- Right below a return, only a call that is handed over itself is fused with it. -/
theorem Node.call?_under_ret {e : Expr} {x : Node} (hx : x ∈ e.nodes) (tail : Bool) :
    (x.under ⟨.ret e, 0⟩).call? tail = x.call? e.isLeaf := by
  obtain rfl | ⟨k, way, hway⟩ := mem_nodes hx
  · cases e <;> simp [Node.call?, Node.isReturned, Node.isTail, Expr.isReturn, Expr.isLeaf]
  · have hreturned : (x.under ⟨.ret e, 0⟩).isReturned = x.isReturned := by
      simp [Node.isReturned, hway]
    have htail : (e.isLeaf && x.isTail) = false := by
      cases h : e.isLeaf with
      | false => rfl
      | true => simp [Node.isTail, hway, Turn.isTail_of_isLeaf (t := ⟨e, k⟩) h]
    have hret : (x.under ⟨.ret e, 0⟩).isTail = false := by simp [Node.isTail, Turn.isTail]
    simp only [Node.call?, Node.under_expr, hreturned, htail, hret, Bool.and_false]

section Constructors

variable (tail : Bool)

theorem calls_literal (t : String) : (literal t).calls tail = [] := by
  simp [calls_eq, children, Node.call?]

theorem calls_fetch (s : Nat) : (fetch s).calls tail = [] := by
  simp [calls_eq, children, Node.call?]

theorem calls_store (s : Nat) (e : Expr) : (store s e).calls tail = e.calls false := by
  rw [calls_eq, children, callsFrom_eq_flatMap rfl fun _ => rfl]
  simp [Node.call?]

theorem calls_not (e : Expr) : (Expr.not e).calls tail = e.calls false := by
  rw [calls_eq, children, callsFrom_eq_flatMap rfl fun _ => rfl]
  simp [Node.call?]

theorem calls_decl (e : Expr) : (decl e).calls tail = e.calls false := by
  rw [calls_eq, children, callsFrom_eq_flatMap rfl fun _ => rfl]
  simp [Node.call?]

theorem calls_or (l r : Expr) : (Expr.or l r).calls tail = l.calls false ++ r.calls tail := by
  rw [calls_eq, children, callsFrom_cons rfl, callsFrom_cons rfl]
  simp [Turn.isTail, Node.call?]

theorem calls_and (l r : Expr) : (Expr.and l r).calls tail = l.calls false ++ r.calls tail := by
  rw [calls_eq, children, callsFrom_cons rfl, callsFrom_cons rfl]
  simp [Turn.isTail, Node.call?]

theorem calls_call (f : String) (args : List Expr) :
    (call f args).calls tail = args.flatMap (calls false) ++ [⟨f, args.length, tail⟩] := by
  rw [calls_eq, children, callsFrom_eq_flatMap rfl fun _ => rfl]
  simp [Node.call?, Node.isReturned, Node.isTail]

theorem calls_ret (e : Expr) : (ret e).calls tail = e.calls e.isLeaf := by
  have hunder : (e.nodes.map (.under ⟨.ret e, 0⟩)).filterMap (Node.call? tail) = e.calls e.isLeaf := by
    rw [List.filterMap_map, calls]
    exact List.filterMap_congr fun x hx => Node.call?_under_ret hx tail
  rw [calls_eq, children, callsFrom, nodesFrom_cons, nodesFrom_nil, List.append_nil, hunder]
  simp [Node.call?]

theorem calls_block (b : Body) : (block b).calls tail = b.calls tail := by
  rw [calls_eq, children, callsFrom_toList rfl true b]
  · simp [Node.call?]
  · intro k _ hk
    simp [Turn.isTail]
    omega
  · intro k hk
    simp [Turn.isTail]
    omega

theorem calls_loop (c : Expr) (b : Body) :
    (loop c b).calls tail = c.calls false ++ b.calls false := by
  rw [calls_eq, children, callsFrom_cons rfl,
    callsFrom_toList rfl false b (fun _ _ _ => rfl) fun _ _ => rfl]
  simp [Node.call?, Turn.isTail]

theorem calls_ifThen (c : Expr) (y : Body) :
    (ifThen c y).calls tail = c.calls false ++ y.calls tail := by
  have hpos := y.length_pos
  have hcond : Turn.isTail ⟨ifThen c y, 0⟩ = false := by
    simp [Turn.isTail]
    omega
  rw [calls_eq, children, callsFrom_cons rfl, hcond, callsFrom_toList rfl true y]
  · simp [Node.call?]
  · intro k _ hk
    simp [Turn.isTail]
    omega
  · intro k hk
    simp [Turn.isTail]
    omega

theorem calls_ifElse (c : Expr) (y o : Body) :
    (ifElse c y o).calls tail = c.calls false ++ (y.calls tail ++ o.calls tail) := by
  have hy := y.length_pos
  have ho := o.length_pos
  have hturn : ∀ k, Turn.isTail ⟨ifElse c y o, k⟩ = (k == y.length || k == y.length + o.length) :=
    fun _ => rfl
  rw [calls_eq, children, callsFrom_cons rfl, callsFrom_append, Body.length_toList,
    callsFrom_toList rfl true y, callsFrom_toList rfl true o]
  · have hcond : Turn.isTail ⟨ifElse c y o, 0⟩ = false := by
      simp [hturn]
      omega
    simp [hcond, Node.call?]
  all_goals
    intros
    simp [hturn]
    omega

end Constructors
end Expr

mutual

theorem Expr.calls_emit : ∀ (e : Expr) (tail : Bool) (n : Label),
    Instr.calls (e.emit tail n).code = e.calls tail
  | .literal t, tail, n => by cases tail <;> simp [Expr.emit, Expr.calls_literal, Instr.call?]
  | .fetch s, tail, n => by cases tail <;> simp [Expr.emit, Expr.calls_fetch, Instr.call?]
  | .store s e, tail, n => by
    cases tail <;> simp [Expr.emit, Expr.calls_store, Instr.call?, e.calls_emit]
  | .call f args, tail, n => by
    cases tail <;> simp [Expr.emit, Expr.calls_call, Instr.call?, Expr.calls_emitArgs args]
  | .ret e, tail, n => by simp [Expr.emit, Expr.calls_ret, e.calls_emit]
  | .ifThen c y, tail, n => by
    simp [Expr.emit, Expr.calls_ifThen, Instr.call?, c.calls_emit, y.calls_emit]
  | .ifElse c y o, tail, n => by
    simp [Expr.emit, Expr.calls_ifElse, Instr.call?, c.calls_emit, y.calls_emit, o.calls_emit]
  | .block b, tail, n => by simp [Expr.emit, Expr.calls_block, b.calls_emit]
  | .loop c b, tail, n => by
    simp [Expr.emit, Expr.calls_loop, Instr.call?, c.calls_emit, b.calls_emit]
  | .or l r, tail, n => by
    simp [Expr.emit, Expr.calls_or, Instr.call?, l.calls_emit, r.calls_emit]
  | .and l r, tail, n => by
    simp [Expr.emit, Expr.calls_and, Instr.call?, l.calls_emit, r.calls_emit]
  | .not e, tail, n => by
    cases tail <;> simp [Expr.emit, Expr.calls_not, Instr.call?, e.calls_emit]
  | .decl e, tail, n => by simp [Expr.emit, Expr.calls_decl, Instr.call?, e.calls_emit]

theorem Body.calls_emit : ∀ (b : Body) (tail : Bool) (n : Label),
    Instr.calls (b.emit tail n).code = b.calls tail
  | .last e, tail, n => by simp [Body.emit, Body.calls, e.calls_emit]
  | .cons e rest, tail, n => by simp [Body.emit, Body.calls, e.calls_emit, rest.calls_emit]

theorem Expr.calls_emitArgs : ∀ (es : List Expr) (n : Label),
    Instr.calls (Expr.emitArgs es n).code = es.flatMap (Expr.calls false)
  | [], n => rfl
  | e :: es, n => by simp [Expr.emitArgs, e.calls_emit, Expr.calls_emitOperands es]

theorem Expr.calls_emitOperands : ∀ (es : List Expr) (n : Label),
    Instr.calls (Expr.emitOperands es n).code = es.flatMap (Expr.calls false)
  | [], n => rfl
  | e :: es, n => by
    -- a literal argument makes no calls in either form
    have ho : Instr.calls (e.asOperand (e.emit false n).code) = e.calls false := by
      obtain ⟨t, rfl, ht⟩ | hp := e.asOperand_cases (e.emit false n).code
      · rw [ht, Expr.calls_literal]
        rfl
      · simp [hp, Instr.call?, e.calls_emit]
    simp [Expr.emitOperands, ho, Expr.calls_emitOperands es]

end

/-- The nodes of a function, those of its body taken as one block. -/
def Function.nodes (f : Function) : List Expr.Node := (Expr.block f.body).nodes

/-- The calls that the code of a function makes are the call nodes of the function in post-order, each
once with its name and the number of its arguments. Those that return are the ones that a return hands
over and the ones in tail position. -/
theorem Function.calls_routine (f : Function) (n : Label) :
    Instr.calls (f.routine n).1.code = f.nodes.filterMap (Expr.Node.call? true) := by
  have h : Instr.calls (f.routine n).1.code = f.body.calls true := f.body.calls_emit true n
  rw [h, ← Expr.calls_block]
  rfl

end Morpho
