import Morpho.Proofs.Texts

/-! Assembly read back. Nothing is escaped in it, but no text in the code of a source breaks a line, so
each instruction keeps to its own, and the lines tell what they are by their first characters. -/
namespace Morpho

/-- The number that some digits stand for. -/
def readNat (cs : List Char) : Nat := Nat.ofDigitChars 10 cs 0

@[simp] theorem readNat_toDigits (n : Nat) : readNat (Nat.toDigits 10 n) = n :=
  Nat.ofDigitChars_ten_toDigits

theorem isDigit_of_mem_toDigits {n : Nat} {c : Char} (h : c ∈ Nat.toDigits 10 n) :
    c.isDigit = true :=
  Nat.isDigit_of_mem_toDigits (by decide) (by decide) h

theorem isDigit_of_mem_reverse (n : Nat) : ∀ c ∈ (Nat.toDigits 10 n).reverse, c.isDigit = true :=
  fun _ hc => isDigit_of_mem_toDigits (List.mem_reverse.mp hc)

theorem newline_not_mem_toDigits (n : Nat) : '\n' ∉ Nat.toDigits 10 n := fun h =>
  absurd (isDigit_of_mem_toDigits h) (by decide)

theorem toList_reference (name : String) (n : Nat) : (reference name n).toList =
    '#' :: '"' :: name.toList ++ '[' :: 'f' :: Nat.toDigits 10 n ++ [']', '"'] := by
  simp [reference]

/-- Name and arity that a reference stands for. It is read from its end, for the name can hold
anything. -/
def readReference (cs : List Char) : String × Nat :=
  let back := cs.reverse.drop 2
  let digits := back.takeWhile Char.isDigit
  (String.ofList ((back.drop (digits.length + 2)).reverse.drop 2), readNat digits.reverse)

theorem readReference_reference (name : String) (n : Nat) :
    readReference (reference name n).toList = (name, n) := by
  have hback : (reference name n).toList.reverse.drop 2 =
      (Nat.toDigits 10 n).reverse ++ 'f' :: '[' :: (name.toList.reverse ++ ['"', '#']) := by
    simp [toList_reference]
  have htake : ((reference name n).toList.reverse.drop 2).takeWhile Char.isDigit =
      (Nat.toDigits 10 n).reverse := by
    rw [hback, List.takeWhile_append_of_pos (isDigit_of_mem_reverse n)]
    simp
  simp only [readReference, htake]
  rw [hback, ← List.drop_drop, List.drop_left]
  simp

namespace Instr

/-- The name and the argument that an instruction is written with. Labels have no name. -/
def form : Instr → String × Option String
  | makeVal t => ("MakeVal", some t)
  | makeValR t => ("MakeValR", some t)
  | makeValP t => ("MakeValP", some t)
  | fetch n => ("Fetch", some (toString n))
  | fetchR n => ("FetchR", some (toString n))
  | store n => ("Store", some (toString n))
  | storeR n => ("StoreR", some (toString n))
  | push => ("Push", none)
  | call f n => ("Call", some (reference f n ++ " " ++ toString n))
  | callR f n => ("CallR", some (reference f n ++ " " ++ toString n))
  | ret => ("Return", none)
  | go l => ("Go", some l.text)
  | goFalse l => ("GoFalse", some l.text)
  | goTrue l => ("GoTrue", some l.text)
  | label _ => ("", none)
  | not => ("Not", none)
  | notR => ("NotR", none)

/-- A blank parts an argument from the name. -/
def afterName : Option String → List Char
  | none => []
  | some arg => ' ' :: arg.toList

theorem toList_text {i : Instr} (h : i.form.1 ≠ "") :
    i.text.toList = '(' :: (i.form.1.toList ++ afterName i.form.2 ++ [')']) := by
  cases i with
  | label l => exact absurd rfl h
  | _ => simp [text, form, afterName]

theorem toList_text_label (l : Label) : (label l).text.toList = '_' :: (Nat.toDigits 10 l ++ [':']) := by
  simp [text, Label.text]

theorem isAlpha_form (i : Instr) : ∀ c ∈ i.form.1.toList, c.isAlpha = true := by
  rw [← List.all_eq_true]
  cases i <;> simp only [form] <;> decide

theorem label_or_named (i : Instr) : (∃ l, i = label l) ∨ i.form.1 ≠ "" := by
  cases i with
  | label l => exact .inl ⟨l, rfl⟩
  | _ => exact .inr (by simp [form])

theorem newline_not_mem_afterName {i : Instr} (h : ∀ x ∈ i.texts, '\n' ∉ x.toList) :
    '\n' ∉ afterName i.form.2 := by
  cases i <;> simp_all [form, afterName, texts, toList_reference, Label.text, newline_not_mem_toDigits]

/-- An instruction takes one line. -/
theorem inline_text {i : Instr} (h : ∀ x ∈ i.texts, '\n' ∉ x.toList) : Text.Inline i.text.toList := by
  rcases i.label_or_named with ⟨l, rfl⟩ | hnamed
  · rw [toList_text_label]
    exact Text.inline_between (newline_not_mem_toDigits l) (by decide) (by decide)
  · have hname : '\n' ∉ i.form.1.toList := fun hmem => absurd (i.isAlpha_form _ hmem) (by decide)
    rw [toList_text hnamed]
    refine Text.inline_between ?_ (by decide) (by decide)
    exact List.not_mem_append hname (newline_not_mem_afterName h)

/-- The callee of a call is written in front of the last blank, behind which the count of the arguments
is repeated. -/
def readCallee (arg : List Char) : String × Nat :=
  readReference ((arg.reverse.dropWhile Char.isDigit).drop 1).reverse

theorem readCallee_reference (f : String) (n : Nat) :
    readCallee ((reference f n).toList ++ ' ' :: Nat.toDigits 10 n) = (f, n) := by
  have hdrop : ((reference f n).toList ++ ' ' :: Nat.toDigits 10 n).reverse.dropWhile Char.isDigit =
      ' ' :: (reference f n).toList.reverse := by
    rw [List.reverse_append, List.reverse_cons, List.append_assoc,
      List.dropWhile_append_of_pos (isDigit_of_mem_reverse n)]
    simp
  rw [readCallee, hdrop]
  simp [readReference_reference]

/-- The instruction of the given name with the given argument. -/
def ofName? (name : String) (arg : List Char) : Option Instr :=
  match name with
  | "MakeVal" => some (.makeVal (String.ofList arg))
  | "MakeValR" => some (.makeValR (String.ofList arg))
  | "MakeValP" => some (.makeValP (String.ofList arg))
  | "Fetch" => some (.fetch (readNat arg))
  | "FetchR" => some (.fetchR (readNat arg))
  | "Store" => some (.store (readNat arg))
  | "StoreR" => some (.storeR (readNat arg))
  | "Push" => some .push
  | "Call" => some (.call (readCallee arg).1 (readCallee arg).2)
  | "CallR" => some (.callR (readCallee arg).1 (readCallee arg).2)
  | "Return" => some .ret
  | "Go" => some (.go (readNat arg.tail))
  | "GoFalse" => some (.goFalse (readNat arg.tail))
  | "GoTrue" => some (.goTrue (readNat arg.tail))
  | "Not" => some .not
  | "NotR" => some .notR
  | _ => none

/-- The instruction that a line stands for. -/
def ofLine? : List Char → Option Instr
  | '_' :: cs => some (.label (readNat cs.dropLast))
  | '(' :: cs =>
    let name := cs.takeWhile Char.isAlpha
    ofName? (String.ofList name) (cs.drop (name.length + 1)).dropLast
  | _ => none

theorem ofName?_form {i : Instr} (h : i.form.1 ≠ "") :
    ofName? i.form.1 (i.form.2.getD "").toList = some i := by
  cases i with
  | label l => exact absurd rfl h
  | _ => simp [form, ofName?, readCallee_reference, Label.text]

/-- Every instruction is read back from its line. -/
theorem ofLine?_text (i : Instr) : ofLine? i.text.toList = some i := by
  rcases i.label_or_named with ⟨l, rfl⟩ | hnamed
  · simp [toList_text_label, ofLine?]
  · have htake : (i.form.1.toList ++ afterName i.form.2 ++ [')']).takeWhile Char.isAlpha =
        i.form.1.toList := by
      rw [List.append_assoc, List.takeWhile_append_of_pos i.isAlpha_form]
      cases i.form.2 <;> simp [afterName]
    have harg : ((i.form.1.toList ++ afterName i.form.2 ++ [')']).drop
        (i.form.1.toList.length + 1)).dropLast = (i.form.2.getD "").toList := by
      rw [List.append_assoc, ← List.drop_drop, List.drop_left]
      cases i.form.2 <;> simp [afterName]
    simp only [toList_text hnamed, ofLine?, htake, harg, String.ofList_toList]
    exact ofName?_form hnamed

end Instr

namespace Routine

/-- The lines that a routine takes. -/
def lines (r : Routine) : List (List Char) :=
  (reference r.name r.arity ++ " =").toList :: ['['] :: r.code.map (·.text.toList) ++ [[']', ';']]

theorem toList_text (r : Routine) : r.text.toList = r.lines.flatMap (· ++ ['\n']) := by
  have hcode : (unlines (r.code.map Instr.text)).toList =
      (r.code.map (·.text.toList)).flatMap (· ++ ['\n']) := by
    rw [unlines, String.toList_join, List.flatMap_map, List.flatMap_map, List.flatMap_map]
    simp
  simp [Routine.text, lines, hcode]

theorem inline_lines {r : Routine} (h : r.Each fun x => '\n' ∉ x.toList) :
    ∀ l ∈ r.lines, Text.Inline l := by
  have hheader : Text.Inline (reference r.name r.arity ++ " =").toList := by
    have htext : (reference r.name r.arity ++ " =").toList =
        '#' :: ('"' :: r.name.toList ++ '[' :: 'f' :: Nat.toDigits 10 r.arity ++ [']', '"', ' '] ++
          ['=']) := by
      simp [toList_reference]
    rw [htext]
    refine Text.inline_between ?_ (by decide) (by decide)
    simp [h.name, newline_not_mem_toDigits]
  intro l hl
  simp only [lines, List.cons_append, List.mem_cons, List.mem_append, List.mem_map,
    List.not_mem_nil, or_false] at hl
  rcases hl with rfl | rfl | ⟨i, hi, rfl⟩ | rfl
  · exact hheader
  · constructor <;> decide
  · exact Instr.inline_text (h.texts i hi)
  · constructor <;> decide

/-- Name and arity of the routine that a line starts. -/
def header? : List Char → Option (String × Nat)
  | '#' :: cs => some (readReference ('#' :: cs.dropLast.dropLast))
  | _ => none

/-- The routines that some lines stand for, and the instructions in front of the first one. Lines that
stand for neither are passed over. -/
def ofLines : List (List Char) → List Instr × List Routine
  | [] => ([], [])
  | l :: ls =>
    let (code, rs) := ofLines ls
    match Instr.ofLine? l, header? l with
    | some i, _ => (i :: code, rs)
    | none, some (name, arity) => ([], ⟨name, arity, code⟩ :: rs)
    | none, none => (code, rs)

theorem ofLines_code (code : List Instr) (ls : List (List Char)) :
    ofLines (code.map (·.text.toList) ++ ls) = (code ++ (ofLines ls).1, (ofLines ls).2) := by
  induction code with
  | nil => rfl
  | cons i code ih => simp [ofLines, Instr.ofLine?_text, ih]

theorem header?_reference (name : String) (n : Nat) :
    header? (reference name n ++ " =").toList = some (name, n) := by
  obtain ⟨cs, hcs⟩ : ∃ cs, (reference name n).toList = '#' :: cs := ⟨_, toList_reference name n⟩
  have htext : (reference name n ++ " =").toList = '#' :: (cs ++ [' '] ++ ['=']) := by simp [hcs]
  rw [htext, header?, List.dropLast_concat, List.dropLast_concat, ← hcs, readReference_reference]

theorem ofLines_lines (r : Routine) {ls : List (List Char)} (h : (ofLines ls).1 = []) :
    ofLines (r.lines ++ ls) = ([], r :: (ofLines ls).2) := by
  have hheader : Instr.ofLine? (reference r.name r.arity ++ " =").toList = none := by
    simp [toList_reference, Instr.ofLine?]
  have hfoot : ofLines ([']', ';'] :: ls) = ([], (ofLines ls).2) := by
    simp [ofLines, Instr.ofLine?, header?, h]
  have hcode : ofLines (['['] :: (r.code.map (·.text.toList) ++ [']', ';'] :: ls)) =
      (r.code, (ofLines ls).2) := by
    rw [ofLines, ofLines_code, hfoot]
    simp [Instr.ofLine?, header?]
  have hlines : r.lines ++ ls = (reference r.name r.arity ++ " =").toList ::
      (['['] :: (r.code.map (·.text.toList) ++ [']', ';'] :: ls)) := by simp [lines]
  rw [hlines, ofLines, hcode, hheader, header?_reference]

end Routine

/-- What stands in front of the routines of a module. -/
def moduleHead (moduleName : String) : String :=
  "\"" ++ moduleName ++ ".mexe\" = main in\n!\n\x7b\x7b\n"

/-- The lines behind the routines of a module. -/
def moduleFoot : List (List Char) := ["\x7d\x7d".toList, ['*'], "BASIS;".toList]

/-- The routines of the module of the given name that a text stands for. -/
def decode (moduleName text : String) : List Routine :=
  (Routine.ofLines (Text.lines (text.toList.drop (moduleHead moduleName).toList.length))).2

section Assembly

variable {rs : List Routine}

theorem drop_assembly (moduleName : String) (rs : List Routine) :
    (assembly moduleName rs).toList.drop (moduleHead moduleName).toList.length =
      (rs.flatMap Routine.lines ++ moduleFoot).flatMap (· ++ ['\n']) := by
  have htext : (assembly moduleName rs).toList = (moduleHead moduleName).toList ++
      (rs.flatMap Routine.lines ++ moduleFoot).flatMap (· ++ ['\n']) := by
    simp [assembly, moduleHead, moduleFoot, List.flatMap_assoc, List.flatMap_map, Routine.toList_text]
  rw [htext, List.drop_left]

/-- Behind the head of a module, every line is one that a routine takes, up to the last three. -/
theorem lines_assembly (h : ∀ r ∈ rs, r.Each fun x => '\n' ∉ x.toList) (moduleName : String) :
    Text.lines ((assembly moduleName rs).toList.drop (moduleHead moduleName).toList.length) =
      rs.flatMap Routine.lines ++ moduleFoot := by
  have hinline : ∀ l ∈ rs.flatMap Routine.lines ++ moduleFoot, Text.Inline l := by
    intro l hl
    rcases List.mem_append.mp hl with hl | hl
    · obtain ⟨r, hr, hl⟩ := List.mem_flatMap.mp hl
      exact Routine.inline_lines (h r hr) l hl
    · simp only [moduleFoot, List.mem_cons, List.not_mem_nil, or_false] at hl
      rcases hl with rfl | rfl | rfl <;> constructor <;> decide
  have hlines := Text.lines_flatMap hinline []
  rwa [List.append_nil, ← drop_assembly, Text.lines, List.append_nil] at hlines

theorem ofLines_module (rs : List Routine) :
    Routine.ofLines (rs.flatMap Routine.lines ++ moduleFoot) = ([], rs) := by
  induction rs with
  | nil => decide +kernel
  | cons r rs ih =>
    rw [List.flatMap_cons, List.append_assoc, r.ofLines_lines (by rw [ih]), ih]

theorem decode_assembly (h : ∀ r ∈ rs, r.Each fun x => '\n' ∉ x.toList) (moduleName : String) :
    decode moduleName (assembly moduleName rs) = rs := by
  rw [decode, lines_assembly h, ofLines_module]

/-- Two sources are compiled to the same text just in case their functions have the same code. Every
instruction takes one line of the text, and the code can be read back from it. -/
theorem compile_eq_iff_routines_eq {a b : String} {p q : Program} (ha : Program.ofSource a = .ok p)
    (hb : Program.ofSource b = .ok q) (moduleName : String) :
    (compile moduleName a = compile moduleName b ↔ p.routines = q.routines) ∧
    ∃ text, compile moduleName a = .ok text ∧
      Text.lines (text.toList.drop (moduleHead moduleName).toList.length) =
        p.routines.flatMap Routine.lines ++ moduleFoot ∧
      decode moduleName text = p.routines := by
  have hp := Program.routines_each_inline ha
  have hq := Program.routines_each_inline hb
  rw [compile_eq_map, compile_eq_map, ha, hb]
  refine ⟨⟨fun h => ?_, fun h => ?_⟩, p.assembly moduleName, rfl, lines_assembly hp moduleName,
    decode_assembly hp moduleName⟩
  · have htext : p.assembly moduleName = q.assembly moduleName := Except.ok.inj h
    calc p.routines = decode moduleName (p.assembly moduleName) := (decode_assembly hp _).symm
      _ = decode moduleName (q.assembly moduleName) := by rw [htext]
      _ = q.routines := decode_assembly hq _
  · simp only [Except.map, Program.assembly, h]

end Assembly

/-- Two programs with the same code. The end of a routine is written in a literal of it. -/
theorem compile_eq_iff_routines_eq_of_return :
    let a := "fun f() = \"];\""
    let b := "fun f() = return \"];\""
    let p : Program := ⟨[⟨"f", 0, .last (.literal "\"];\"")⟩]⟩
    let q : Program := ⟨[⟨"f", 0, .last (.ret (.literal "\"];\""))⟩]⟩
    Program.ofSource a = .ok p ∧ Program.ofSource b = .ok q ∧ p.routines = q.routines ∧
    compile "m" a = compile "m" b ∧
    ∃ text, compile "m" a = .ok text ∧ decode "m" text = [⟨"f", 0, [.makeValR "\"];\""]⟩] := by
  intro a b p q
  have ha : Program.ofSource a = .ok p := by decide +kernel
  have hb : Program.ofSource b = .ok q := by decide +kernel
  obtain ⟨hiff, text, htext, -, hdecode⟩ := compile_eq_iff_routines_eq ha hb "m"
  exact ⟨ha, hb, rfl, hiff.mpr rfl, text, htext, hdecode⟩

end Morpho
