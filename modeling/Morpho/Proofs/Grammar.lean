import Morpho.Token
import Morpho.Expr

/-! The grammar of the language, as what it means for tokens to be a phrase and for a tree to be the
tree of that phrase. Each rule stands for one alternative of

    program   = { function } ;
    function  = 'fun' NAME '(' params ')' '=' body ;
    params    = [ NAME { ',' NAME } ] ;
    body      = expr | '{' expr ';' { expr ';' } '}' ;
    expr      = 'return' expr | 'var' var { ',' var } | NAME '=' expr | orexpr ;
    var       = NAME [ '=' expr ] ;
    orexpr    = andexpr [ 'or' orexpr ] ;
    andexpr   = notexpr [ 'and' notexpr ] ;
    notexpr   = 'not' notexpr | binop 1 ;
    binop 2   = binop 3 | binop 3 OP2 binop 2 ;
    binop c   = binop (c + 1) | binop c OPc binop (c + 1) ;
    binop 8   = smallexpr ;
    smallexpr = NAME | NAME '(' args ')' | LITERAL | '(' expr ')' | OP smallexpr | ifexpr
              | 'while' expr body ;
    args      = [ expr { ',' expr } ] ;
    ifexpr    = 'if' expr body [ 'else' body ] ;

The grammar says nothing about which slot a name has. -/
namespace Morpho.Grammar

/-- One name or more, and their number. -/
inductive IsNames : List Token → Nat → Prop
  | one {x : Token} (hx : x.kind = .name) : IsNames [x] 1
  | more {x c : Token} {ts : List Token} {n : Nat} (hx : x.kind = .name) (hc : c.kind = .punct ',')
    (h : IsNames ts n) : IsNames (x :: c :: ts) (n + 1)

inductive IsParams : List Token → Nat → Prop
  | none : IsParams [] 0
  | some {ts : List Token} {n : Nat} (h : IsNames ts n) : IsParams ts n

mutual

inductive IsBody : List Token → Body → Prop
  | bare {ts : List Token} {e : Expr} (h : IsExpr ts e) : IsBody ts (.last e)
  | braces {l r : Token} {ts : List Token} {b : Body} (hl : l.kind = .punct '{')
    (h : IsStatements ts b) (hr : r.kind = .punct '}') : IsBody (l :: ts ++ [r]) b

/-- One expression or more, each with its semicolon. -/
inductive IsStatements : List Token → Body → Prop
  | one {ts : List Token} {s : Token} {e : Expr} (h : IsExpr ts e) (hs : s.kind = .punct ';') :
    IsStatements (ts ++ [s]) (.last e)
  | more {ts ts' : List Token} {s : Token} {e : Expr} {b : Body} (h : IsExpr ts e)
    (hs : s.kind = .punct ';') (h' : IsStatements ts' b) : IsStatements (ts ++ s :: ts') (.cons e b)

inductive IsExpr : List Token → Expr → Prop
  | ret {t : Token} {ts : List Token} {e : Expr} (ht : t.kind = .keyword .ret) (h : IsExpr ts e) :
    IsExpr (t :: ts) (.ret e)
  | var {t : Token} {ts : List Token} {b : Body} (ht : t.kind = .keyword .var) (h : IsVars ts b) :
    IsExpr (t :: ts) (.block b)
  | store {x q : Token} {ts : List Token} {e : Expr} (slot : Nat) (hx : x.kind = .name)
    (hq : q.kind = .punct '=') (h : IsExpr ts e) : IsExpr (x :: q :: ts) (.store slot e)
  | disjunction {ts : List Token} {e : Expr} (h : IsDisjunction ts e) : IsExpr ts e

/-- One declaration. A variable without an initial value starts as null. -/
inductive IsVar : List Token → Expr → Prop
  | bare {x : Token} (hx : x.kind = .name) : IsVar [x] (.decl .null)
  | init {x q : Token} {ts : List Token} {e : Expr} (hx : x.kind = .name)
    (hq : q.kind = .punct '=') (h : IsExpr ts e) : IsVar (x :: q :: ts) (.decl e)

inductive IsVars : List Token → Body → Prop
  | one {ts : List Token} {e : Expr} (h : IsVar ts e) : IsVars ts (.last e)
  | more {ts ts' : List Token} {c : Token} {e : Expr} {b : Body} (h : IsVar ts e)
    (hc : c.kind = .punct ',') (h' : IsVars ts' b) : IsVars (ts ++ c :: ts') (.cons e b)

inductive IsDisjunction : List Token → Expr → Prop
  | conjunction {ts : List Token} {e : Expr} (h : IsConjunction ts e) : IsDisjunction ts e
  | or {ts ts' : List Token} {t : Token} {e e' : Expr} (h : IsConjunction ts e)
    (ht : t.kind = .keyword .or) (h' : IsDisjunction ts' e') : IsDisjunction (ts ++ t :: ts') (.or e e')

inductive IsConjunction : List Token → Expr → Prop
  | negation {ts : List Token} {e : Expr} (h : IsNegation ts e) : IsConjunction ts e
  | and {ts ts' : List Token} {t : Token} {e e' : Expr} (h : IsNegation ts e)
    (ht : t.kind = .keyword .and) (h' : IsNegation ts' e') : IsConjunction (ts ++ t :: ts') (.and e e')

inductive IsNegation : List Token → Expr → Prop
  | not {t : Token} {ts : List Token} {e : Expr} (ht : t.kind = .keyword .not) (h : IsNegation ts e) :
    IsNegation (t :: ts) (.not e)
  | binary {ts : List Token} {e : Expr} (h : IsBinary (some .op1) ts e) : IsNegation ts e

/-- Operators of one class and of tighter ones; beyond the tightest class stand small expressions. -/
inductive IsBinary : Option OpClass → List Token → Expr → Prop
  | small {ts : List Token} {e : Expr} (h : IsSmall ts e) : IsBinary none ts e
  | tighter {c : OpClass} {ts : List Token} {e : Expr} (h : IsBinary c.tighter? ts e) :
    IsBinary (some c) ts e
  | left {c : OpClass} {ts ts' : List Token} {t : Token} {e e' : Expr} (hc : c ≠ .op2)
    (h : IsBinary (some c) ts e) (ht : t.kind = .op c) (h' : IsBinary c.tighter? ts' e') :
    IsBinary (some c) (ts ++ t :: ts') (.call t.lexeme [e, e'])
  | right {ts ts' : List Token} {t : Token} {e e' : Expr} (h : IsBinary (some .op3) ts e)
    (ht : t.kind = .op .op2) (h' : IsBinary (some .op2) ts' e') :
    IsBinary (some .op2) (ts ++ t :: ts') (.call t.lexeme [e, e'])

inductive IsSmall : List Token → Expr → Prop
  | fetch {x : Token} (slot : Nat) (hx : x.kind = .name) : IsSmall [x] (.fetch slot)
  | call {f l r : Token} {ts : List Token} {es : List Expr} (hf : f.kind = .name)
    (hl : l.kind = .punct '(') (h : IsArgs ts es) (hr : r.kind = .punct ')') :
    IsSmall (f :: l :: ts ++ [r]) (.call f.lexeme es)
  | literal {t : Token} (ht : t.kind = .literal) : IsSmall [t] (.literal t.lexeme)
  | parens {l r : Token} {ts : List Token} {e : Expr} (hl : l.kind = .punct '(') (h : IsExpr ts e)
    (hr : r.kind = .punct ')') : IsSmall (l :: ts ++ [r]) e
  | unary {t : Token} {c : OpClass} {ts : List Token} {e : Expr} (ht : t.kind = .op c)
    (h : IsSmall ts e) : IsSmall (t :: ts) (.call t.lexeme [e])
  | cond {ts : List Token} {e : Expr} (h : IsIf ts e) : IsSmall ts e
  | loop {t : Token} {ts ts' : List Token} {e : Expr} {b : Body} (ht : t.kind = .keyword .loop)
    (h : IsExpr ts e) (h' : IsBody ts' b) : IsSmall (t :: ts ++ ts') (.loop e b)

inductive IsArgs : List Token → List Expr → Prop
  | none : IsArgs [] []
  | some {ts : List Token} {es : List Expr} (h : IsExprs ts es) : IsArgs ts es

/-- One expression or more, with commas between them. -/
inductive IsExprs : List Token → List Expr → Prop
  | one {ts : List Token} {e : Expr} (h : IsExpr ts e) : IsExprs ts [e]
  | more {ts ts' : List Token} {c : Token} {e : Expr} {es : List Expr} (h : IsExpr ts e)
    (hc : c.kind = .punct ',') (h' : IsExprs ts' es) : IsExprs (ts ++ c :: ts') (e :: es)

inductive IsIf : List Token → Expr → Prop
  | ifThen {t : Token} {ts ts' : List Token} {e : Expr} {b : Body} (ht : t.kind = .keyword .cond)
    (h : IsExpr ts e) (h' : IsBody ts' b) : IsIf (t :: ts ++ ts') (.ifThen e b)
  | ifElse {t u : Token} {ts ts' ts'' : List Token} {e : Expr} {b b' : Body}
    (ht : t.kind = .keyword .cond) (h : IsExpr ts e) (h' : IsBody ts' b)
    (hu : u.kind = .keyword .alt) (h'' : IsBody ts'' b') :
    IsIf (t :: ts ++ ts' ++ u :: ts'') (.ifElse e b b')

end

inductive IsFunction : List Token → Function → Prop
  | mk {t x l r q : Token} {ts ts' : List Token} {n : Nat} {b : Body} (ht : t.kind = .keyword .func)
    (hx : x.kind = .name) (hl : l.kind = .punct '(') (h : IsParams ts n) (hr : r.kind = .punct ')')
    (hq : q.kind = .punct '=') (h' : IsBody ts' b) :
    IsFunction (t :: x :: l :: ts ++ r :: q :: ts') ⟨x.lexeme, n, b⟩

inductive IsProgram : List Token → List Function → Prop
  | nil : IsProgram [] []
  | cons {ts ts' : List Token} {f : Function} {fs : List Function} (h : IsFunction ts f)
    (h' : IsProgram ts' fs) : IsProgram (ts ++ ts') (f :: fs)

end Morpho.Grammar
