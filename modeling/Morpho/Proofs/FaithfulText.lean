import Morpho.Proofs.SExpr
import Morpho.Proofs.Decoding

/-! The written form of a program read back. It is a list of S-expressions, one for each function. Their
atoms are tags, numbers and texts of the source, and the end of each of those can be told, whatever
parentheses and blanks a literal has in it. -/
namespace Morpho

/-- What the lists of a written program start with. -/
inductive Tag
  | literal | fetch | store | call | ret | cond | body | loop | or | and | not | decl | func
  deriving DecidableEq

namespace Tag

def text : Tag → String
  | literal => "literal" | fetch => "fetch" | store => "store" | call => "call" | ret => "return"
  | cond => "if" | body => "body" | loop => "while" | or => "or" | and => "and" | not => "not"
  | decl => "var" | func => "fun"

def all : List Tag :=
  [literal, fetch, store, call, ret, cond, body, loop, or, and, not, decl, func]

def ofText? (s : String) : Option Tag := all.find? (·.text == s)

@[simp] theorem ofText?_text (t : Tag) : ofText? t.text = some t := by cases t <;> decide

end Tag

namespace SExpr

def word (s : String) : SExpr := atom s.toList

def number (n : Nat) : SExpr := atom (Nat.toDigits 10 n)

def tagged (tag : Tag) (parts : List SExpr) : SExpr := list (word tag.text :: parts)

@[simp] theorem text_word (s : String) : (word s).text = s.toList := by rw [word, text]

@[simp] theorem text_number (n : Nat) : (number n).text = Nat.toDigits 10 n := by rw [number, text]

@[simp] theorem text_tagged (tag : Tag) (parts : List SExpr) :
    (tagged tag parts).text = '(' :: (tag.text.toList ++ spaced parts ++ [')']) := by
  rw [tagged, text, text_word]

end SExpr

open SExpr

mutual

def Expr.sexpr : Expr → SExpr
  | .literal t => tagged .literal [word t]
  | .fetch n => tagged .fetch [number n]
  | .store n e => tagged .store [number n, e.sexpr]
  | .call f args => tagged .call (word f :: Expr.sexprs args)
  | .ret e => tagged .ret [e.sexpr]
  | .ifThen c y => tagged .cond [c.sexpr, tagged .body y.sexprs]
  | .ifElse c y n => tagged .cond [c.sexpr, tagged .body y.sexprs, tagged .body n.sexprs]
  | .block b => tagged .body b.sexprs
  | .loop c b => tagged .loop [c.sexpr, tagged .body b.sexprs]
  | .or l r => tagged .or [l.sexpr, r.sexpr]
  | .and l r => tagged .and [l.sexpr, r.sexpr]
  | .not e => tagged .not [e.sexpr]
  | .decl e => tagged .decl [e.sexpr]

def Body.sexprs : Body → List SExpr
  | .last e => [e.sexpr]
  | .cons e rest => e.sexpr :: rest.sexprs

def Expr.sexprs : List Expr → List SExpr
  | [] => []
  | e :: es => e.sexpr :: Expr.sexprs es

end

/-- Name and arity of a function, written as one atom. -/
def Function.header (f : Function) : List Char := f.name.toList ++ '/' :: Nat.toDigits 10 f.arity

def Function.sexpr (f : Function) : SExpr :=
  tagged .func [atom f.header, tagged .body f.body.sexprs]

mutual

theorem Expr.toList_text : ∀ e : Expr, e.text.toList = e.sexpr.text
  | .literal t => by simp [Expr.text, Expr.sexpr, Tag.text, spaced]
  | .fetch n => by simp [Expr.text, Expr.sexpr, Tag.text, spaced]
  | .store n e => by simp [Expr.text, Expr.sexpr, Tag.text, spaced, e.toList_text]
  | .call f args => by simp [Expr.text, Expr.sexpr, Tag.text, spaced, Expr.toList_spaced args]
  | .ret e => by simp [Expr.text, Expr.sexpr, Tag.text, spaced, e.toList_text]
  | .ifThen c y => by
    simp [Expr.text, Expr.sexpr, Tag.text, spaced, c.toList_text, y.toList_spaced]
  | .ifElse c y n => by
    simp [Expr.text, Expr.sexpr, Tag.text, spaced, c.toList_text, y.toList_spaced, n.toList_spaced]
  | .block b => by simp [Expr.text, Expr.sexpr, Tag.text, b.toList_spaced]
  | .loop c b => by
    simp [Expr.text, Expr.sexpr, Tag.text, spaced, c.toList_text, b.toList_spaced]
  | .or l r => by simp [Expr.text, Expr.sexpr, Tag.text, spaced, l.toList_text, r.toList_text]
  | .and l r => by simp [Expr.text, Expr.sexpr, Tag.text, spaced, l.toList_text, r.toList_text]
  | .not e => by simp [Expr.text, Expr.sexpr, Tag.text, spaced, e.toList_text]
  | .decl e => by simp [Expr.text, Expr.sexpr, Tag.text, spaced, e.toList_text]

theorem Body.toList_spaced : ∀ b : Body, b.spaced.toList = spaced b.sexprs
  | .last e => by simp [Body.spaced, Body.sexprs, spaced, e.toList_text]
  | .cons e rest => by
    simp [Body.spaced, Body.sexprs, spaced, e.toList_text, rest.toList_spaced]

theorem Expr.toList_spaced : ∀ es : List Expr, (Expr.spaced es).toList = spaced (Expr.sexprs es)
  | [] => rfl
  | e :: es => by simp [Expr.spaced, Expr.sexprs, spaced, e.toList_text, Expr.toList_spaced es]

end

theorem Function.toList_text (f : Function) : f.text.toList = f.sexpr.text := by
  simp [Function.text, Body.text, Function.sexpr, Function.header, Tag.text, spaced, SExpr.text,
    f.body.toList_spaced]

theorem Program.toList_text (p : Program) :
    p.text.toList = SExpr.lines (p.functions.map Function.sexpr) := by
  simp [Program.text, SExpr.lines, String.toList_join, List.flatMap_map, Function.toList_text]

section Reading

/-- What a part of a list stands for: an expression, or no more than its text. -/
inductive Part
  | word (text : String)
  | expr (e : Expr)

/-- The expressions that parts stand for. -/
def Part.exprs? : List Part → Option (List Expr)
  | [] => some []
  | .expr e :: ps => (exprs? ps).map (e :: ·)
  | .word _ :: _ => none

/-- The expression of the given tag with the given parts. -/
def Expr.ofParts? (tag : Tag) (parts : List Part) : Option Expr :=
  match tag, parts with
  | .literal, [.word t] => some (.literal t)
  | .fetch, [.word n] => some (.fetch (readNat n.toList))
  | .store, [.word n, .expr e] => some (.store (readNat n.toList) e)
  | .call, .word f :: args => (Part.exprs? args).map (.call f)
  | .ret, [.expr e] => some (.ret e)
  | .cond, [.expr c, .expr (.block y)] => some (.ifThen c y)
  | .cond, [.expr c, .expr (.block y), .expr (.block n)] => some (.ifElse c y n)
  | .body, es => ((Part.exprs? es).bind Body.ofList?).map .block
  | .loop, [.expr c, .expr (.block b)] => some (.loop c b)
  | .or, [.expr l, .expr r] => some (.or l r)
  | .and, [.expr l, .expr r] => some (.and l r)
  | .not, [.expr e] => some (.not e)
  | .decl, [.expr e] => some (.decl e)
  | _, _ => none

mutual

def SExpr.part? : SExpr → Option Part
  | .atom w => some (.word (String.ofList w))
  | .list ts =>
    match SExpr.parts? ts with
    | some (.word s :: ps) => (Tag.ofText? s).bind fun tag => (Expr.ofParts? tag ps).map .expr
    | _ => none

def SExpr.parts? : List SExpr → Option (List Part)
  | [] => some []
  | t :: ts => t.part?.bind fun p => (SExpr.parts? ts).map (p :: ·)

end

/-- Name and arity in the header of a function, read from its end. -/
def readHeader (cs : List Char) : String × Nat :=
  let digits := cs.reverse.takeWhile Char.isDigit
  (String.ofList (cs.reverse.drop (digits.length + 1)).reverse, readNat digits.reverse)

def Function.ofSExpr? : SExpr → Option Function
  | .list [.atom tag, .atom header, b] =>
    match Tag.ofText? (String.ofList tag), b.part? with
    | some .func, some (.expr (.block body)) =>
      some ⟨(readHeader header).1, (readHeader header).2, body⟩
    | _, _ => none
  | _ => none

/-- The program that a text stands for. -/
def Program.ofText? (text : String) : Option Program :=
  ((SExpr.ofText? text.toList).bind (·.mapM Function.ofSExpr?)).map Program.mk

@[simp] theorem Part.exprs?_map (es : List Expr) : exprs? (es.map .expr) = some es := by
  induction es with
  | nil => rfl
  | cons e es ih => simp [exprs?, ih]

@[simp] theorem SExpr.part?_word (s : String) : (word s).part? = some (.word s) := by
  simp [word, part?]

@[simp] theorem SExpr.part?_number (n : Nat) :
    (number n).part? = some (.word (String.ofList (Nat.toDigits 10 n))) := by
  simp [number, part?]

@[simp] theorem SExpr.part?_tagged (tag : Tag) (ts : List SExpr) :
    (tagged tag ts).part? = ((parts? ts).bind (Expr.ofParts? tag)).map .expr := by
  cases h : parts? ts <;> simp [tagged, part?, parts?, h]

mutual

/-- Expressions are read back from their S-expressions. -/
theorem Expr.part?_sexpr : ∀ e : Expr, e.sexpr.part? = some (.expr e)
  | .literal t => by simp [Expr.sexpr, parts?, Expr.ofParts?]
  | .fetch n => by simp [Expr.sexpr, parts?, Expr.ofParts?]
  | .store n e => by simp [Expr.sexpr, parts?, Expr.ofParts?, e.part?_sexpr]
  | .call f args => by simp [Expr.sexpr, parts?, Expr.ofParts?, Expr.parts?_sexprs args]
  | .ret e => by simp [Expr.sexpr, parts?, Expr.ofParts?, e.part?_sexpr]
  | .ifThen c y => by
    simp [Expr.sexpr, parts?, Expr.ofParts?, c.part?_sexpr, y.parts?_sexprs, Body.ofList?_toList]
  | .ifElse c y n => by
    simp [Expr.sexpr, parts?, Expr.ofParts?, c.part?_sexpr, y.parts?_sexprs, n.parts?_sexprs,
      Body.ofList?_toList]
  | .block b => by simp [Expr.sexpr, Expr.ofParts?, b.parts?_sexprs, Body.ofList?_toList]
  | .loop c b => by
    simp [Expr.sexpr, parts?, Expr.ofParts?, c.part?_sexpr, b.parts?_sexprs, Body.ofList?_toList]
  | .or l r => by simp [Expr.sexpr, parts?, Expr.ofParts?, l.part?_sexpr, r.part?_sexpr]
  | .and l r => by simp [Expr.sexpr, parts?, Expr.ofParts?, l.part?_sexpr, r.part?_sexpr]
  | .not e => by simp [Expr.sexpr, parts?, Expr.ofParts?, e.part?_sexpr]
  | .decl e => by simp [Expr.sexpr, parts?, Expr.ofParts?, e.part?_sexpr]

theorem Body.parts?_sexprs : ∀ b : Body, parts? b.sexprs = some (b.toList.map .expr)
  | .last e => by simp [Body.sexprs, Body.toList, parts?, e.part?_sexpr]
  | .cons e rest => by
    simp [Body.sexprs, Body.toList, parts?, e.part?_sexpr, rest.parts?_sexprs]

theorem Expr.parts?_sexprs : ∀ es : List Expr, parts? (Expr.sexprs es) = some (es.map .expr)
  | [] => rfl
  | e :: es => by simp [Expr.sexprs, parts?, e.part?_sexpr, Expr.parts?_sexprs es]

end

theorem readHeader_header (f : Function) : readHeader f.header = (f.name, f.arity) := by
  have hback : f.header.reverse =
      (Nat.toDigits 10 f.arity).reverse ++ '/' :: f.name.toList.reverse := by
    simp [Function.header]
  have htake : f.header.reverse.takeWhile Char.isDigit = (Nat.toDigits 10 f.arity).reverse := by
    rw [hback, List.takeWhile_append_of_pos (isDigit_of_mem_reverse f.arity)]
    simp
  simp only [readHeader, htake]
  rw [hback, ← List.drop_drop, List.drop_left]
  simp

/-- Functions are read back from their S-expressions. -/
theorem Function.ofSExpr?_sexpr (f : Function) : ofSExpr? f.sexpr = some f := by
  have hbody : (tagged .body f.body.sexprs).part? = some (.expr (.block f.body)) := by
    simp [f.body.parts?_sexprs, Expr.ofParts?, Body.ofList?_toList]
  rw [Function.sexpr, tagged, word, ofSExpr?, hbody]
  simp [readHeader_header]

end Reading

section Atoms

theorem SExpr.readable_number (n : Nat) : (number n).Readable :=
  .plain Nat.toDigits_ne_nil fun _ hc => isPlain_of_isDigit (isDigit_of_mem_toDigits hc)

theorem SExpr.readable_tagged (tag : Tag) {parts : List SExpr} (h : AllReadable parts) :
    (tagged tag parts).Readable := by
  have htag : IsAtom tag.text.toList := by
    refine .plain ?_ (List.all_eq_true.mp ?_) <;> cases tag <;> decide
  exact ⟨htag, h⟩

mutual

theorem Expr.readable_sexpr : ∀ e : Expr, (∀ x ∈ e.texts, IsAtom x.toList) → e.sexpr.Readable
  | .literal t, h => readable_tagged _ ⟨h t List.mem_cons_self, trivial⟩
  | .fetch n, _ => readable_tagged _ ⟨readable_number n, trivial⟩
  | .store n e, h => readable_tagged _ ⟨readable_number n, e.readable_sexpr h, trivial⟩
  | .call f args, h => by
    obtain ⟨hargs, hf⟩ := List.forall_mem_append.mp h
    exact readable_tagged _ ⟨hf f List.mem_cons_self, Expr.readable_sexprs args hargs⟩
  | .ret e, h => readable_tagged _ ⟨e.readable_sexpr h, trivial⟩
  | .ifThen c y, h => by
    obtain ⟨hc, hy⟩ := List.forall_mem_append.mp h
    exact readable_tagged _
      ⟨c.readable_sexpr hc, readable_tagged _ (y.readable_sexprs hy), trivial⟩
  | .ifElse c y n, h => by
    obtain ⟨hcy, hn⟩ := List.forall_mem_append.mp h
    obtain ⟨hc, hy⟩ := List.forall_mem_append.mp hcy
    exact readable_tagged _ ⟨c.readable_sexpr hc, readable_tagged _ (y.readable_sexprs hy),
      readable_tagged _ (n.readable_sexprs hn), trivial⟩
  | .block b, h => readable_tagged _ (b.readable_sexprs h)
  | .loop c b, h => by
    obtain ⟨hc, hb⟩ := List.forall_mem_append.mp h
    exact readable_tagged _
      ⟨c.readable_sexpr hc, readable_tagged _ (b.readable_sexprs hb), trivial⟩
  | .or l r, h => by
    obtain ⟨hl, hr⟩ := List.forall_mem_append.mp h
    exact readable_tagged _ ⟨l.readable_sexpr hl, r.readable_sexpr hr, trivial⟩
  | .and l r, h => by
    obtain ⟨hl, hr⟩ := List.forall_mem_append.mp h
    exact readable_tagged _ ⟨l.readable_sexpr hl, r.readable_sexpr hr, trivial⟩
  | .not e, h => readable_tagged _ ⟨e.readable_sexpr h, trivial⟩
  | .decl e, h => readable_tagged _ ⟨e.readable_sexpr h, trivial⟩

theorem Body.readable_sexprs : ∀ b : Body, (∀ x ∈ b.texts, IsAtom x.toList) → AllReadable b.sexprs
  | .last e, h => ⟨e.readable_sexpr h, trivial⟩
  | .cons e rest, h => by
    obtain ⟨he, hrest⟩ := List.forall_mem_append.mp h
    exact ⟨e.readable_sexpr he, rest.readable_sexprs hrest⟩

theorem Expr.readable_sexprs : ∀ es : List Expr, (∀ x ∈ Expr.textsAll es, IsAtom x.toList) →
    AllReadable (Expr.sexprs es)
  | [], _ => trivial
  | e :: es, h => by
    obtain ⟨he, hes⟩ := List.forall_mem_append.mp h
    exact ⟨e.readable_sexpr he, Expr.readable_sexprs es hes⟩

end

theorem Function.readable_sexpr {f : Function} (hname : ∀ c ∈ f.name.toList, isPlain c = true)
    (htexts : ∀ x ∈ f.body.texts, IsAtom x.toList) : f.sexpr.Readable := by
  have hdigits : ∀ c ∈ Nat.toDigits 10 f.arity, isPlain c = true := fun c hc =>
    isPlain_of_isDigit (isDigit_of_mem_toDigits hc)
  have hheader : IsAtom f.header := by
    refine .plain (by simp [Function.header]) (List.forall_mem_append.mpr ⟨hname, ?_⟩)
    exact List.forall_mem_cons.mpr ⟨by decide, hdigits⟩
  exact readable_tagged _ ⟨hheader, readable_tagged _ (f.body.readable_sexprs htexts), trivial⟩

/-- Of the lexemes only marks can be no atoms. -/
theorem Lexical.Matches.isAtom {k : Token.Kind} {l : List Char} (h : Matches k l)
    (hk : k.isKept = true) : IsAtom l := by
  obtain ⟨a, c, cs, rfl, hc, hl, rfl⟩ := h.exists_class
  by_cases ha : a = .quoted
  · subst ha
    exact .quoted hc hl
  · have hm : a ≠ .mark := by
      rintro rfl
      cases hk
    exact .plain (by simp) (isPlain_of_mem_language ha hm hl)

theorem Lexical.Matches.isPlain_of_name {l : List Char} (h : Matches .name l) :
    ∀ c ∈ l, isPlain c = true := by
  cases h with
  | name hword _ _ =>
    exact isPlain_of_mem_language (a := .word) (d := 'a') nofun nofun hword

/-- What is written for the functions of a source can be read. -/
theorem Program.readable_of_ofSource {source : String} {p : Program} (h : ofSource source = .ok p) :
    ∀ f ∈ p.functions, f.sexpr.Readable := by
  obtain ⟨ts, hprogram, hfits⟩ := exists_isProgram_of_ofSource h
  intro f hf
  obtain ⟨us, hus, hfunction⟩ := hprogram.exists_isFunction hf
  obtain ⟨x, hx, hkind, hname⟩ := hfunction.exists_name
  -- the null of a variable without an initial value need not be in the source
  have hnull : IsAtom "null".toList := .plain (by decide) (List.all_eq_true.mp (by decide))
  have htexts := hfunction.texts (P := fun x => IsAtom x.toList) hnull
    fun t ht => (hfits t (hus t ht)).isAtom
  refine Function.readable_sexpr ?_ htexts.2
  rw [← hname]
  exact Lexical.Matches.isPlain_of_name (hkind ▸ hfits x (hus x hx))

end Atoms

namespace Program

/-- The program of a source is read back from its text. -/
theorem ofText?_text {source : String} {p : Program} (h : ofSource source = .ok p) :
    ofText? p.text = some p := by
  have hreadable : ∀ t ∈ p.functions.map Function.sexpr, t.Readable := by
    simpa using readable_of_ofSource h
  have hfunctions : (p.functions.map Function.sexpr).mapM Function.ofSExpr? = some p.functions := by
    induction p.functions with
    | nil => rfl
    | cons f fs ih => simp [Function.ofSExpr?_sexpr, ih]
  rw [ofText?, toList_text, SExpr.ofText?_lines hreadable, Option.bind_some, hfunctions]
  rfl

/-- The programs of two sources have the same text just in case they are the same program. The text is
what is written if the tree of a source is asked for, and the program can be read back from it. -/
theorem text_eq_text_iff {a b : String} {p q : Program} (ha : ofSource a = .ok p)
    (hb : ofSource b = .ok q) (moduleName : String) :
    (p.text = q.text ↔ p = q) ∧ (Artifact.ast.compile moduleName a).result = .ok p.text ∧
    ofText? p.text = some p := by
  have hp := ofText?_text ha
  have hq := ofText?_text hb
  refine ⟨⟨fun h => ?_, fun h => by rw [h]⟩, ?_, hp⟩
  · rw [h, hq] at hp
    exact (Option.some.inj hp).symm
  · rw [ofSource] at ha
    simp [Artifact.compile, ha, Artifact.text]

/-- A literal that looks like the end of one argument and the start of the next. -/
theorem text_eq_text_iff_of_quotes :
    let a := "fun f() = g('1\") (literal \"2')"
    let b := "fun f() = g(\"1\", \"2\")"
    let p : Program := ⟨[⟨"f", 0, .last (.call "g" [.literal "'1\") (literal \"2'"])⟩]⟩
    let q : Program := ⟨[⟨"f", 0, .last (.call "g" [.literal "\"1\"", .literal "\"2\""])⟩]⟩
    ofSource a = .ok p ∧ ofSource b = .ok q ∧ p.text ≠ q.text ∧
    (Artifact.ast.compile "m" a).result =
      .ok "(fun f/0 (body (call g (literal '1\") (literal \"2'))))\n" ∧
    ofText? p.text = some p := by
  intro a b p q
  have ha : ofSource a = .ok p := by decide +kernel
  have hb : ofSource b = .ok q := by decide +kernel
  obtain ⟨hiff, hresult, hread⟩ := text_eq_text_iff ha hb "m"
  have htext : p.text = "(fun f/0 (body (call g (literal '1\") (literal \"2'))))\n" := by
    decide +kernel
  exact ⟨ha, hb, fun h => absurd (hiff.mp h) (by decide), htext ▸ hresult, hread⟩

end Program
end Morpho
