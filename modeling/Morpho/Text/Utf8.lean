/-! Decoding of UTF-8 that may be damaged. Every byte belongs to exactly one scalar value or to one
damaged part, which is as long as it could still have been the start of a scalar value. -/
namespace Morpho.Text.Utf8

def isContinuation (b : UInt8) : Bool := 0x80 ≤ b && b ≤ 0xBF

/-- Whether `b` may follow the first byte `a` of a three or four byte form: overlong forms,
surrogates and values beyond the last plane are ruled out here. -/
def mayFollow (a b : UInt8) : Bool :=
  if a = 0xE0 then 0xA0 ≤ b && b ≤ 0xBF
  else if a = 0xED then 0x80 ≤ b && b ≤ 0x9F
  else if a = 0xF0 then 0x90 ≤ b && b ≤ 0xBF
  else if a = 0xF4 then 0x80 ≤ b && b ≤ 0x8F
  else isContinuation b

/-- The scalar value whose first byte has payload `lead`, followed by the bytes `bs`. -/
def assemble (lead : Nat) (bs : List UInt8) : Char :=
  Char.ofNat (bs.foldl (fun n b => n * 64 + (b.toNat - 0x80)) lead)

/-- What `a` starts, none for a damaged part, and how many of the bytes after it belong to it. -/
def first (a : UInt8) (bs : List UInt8) : Option Char × Nat :=
  if a < 0x80 then (some (Char.ofNat a.toNat), 0)
  else if 0xC2 ≤ a && a ≤ 0xDF then
    match bs with
    | b :: _ => if isContinuation b then (some (assemble (a.toNat - 0xC0) [b]), 1) else (none, 0)
    | [] => (none, 0)
  else if 0xE0 ≤ a && a ≤ 0xEF then
    match bs with
    | b :: c :: _ =>
      if !mayFollow a b then (none, 0)
      else if isContinuation c then (some (assemble (a.toNat - 0xE0) [b, c]), 2)
      else (none, 1)
    | [b] => (none, if mayFollow a b then 1 else 0)
    | [] => (none, 0)
  else if 0xF0 ≤ a && a ≤ 0xF4 then
    match bs with
    | b :: c :: d :: _ =>
      if !mayFollow a b then (none, 0)
      else if !isContinuation c then (none, 1)
      else if isContinuation d then (some (assemble (a.toNat - 0xF0) [b, c, d]), 3)
      else (none, 2)
    | [b, c] => (none, if !mayFollow a b then 0 else if isContinuation c then 2 else 1)
    | [b] => (none, if mayFollow a b then 1 else 0)
    | [] => (none, 0)
  else (none, 0)

/-- The parts of a text whose first `owed` bytes belong to a part already taken. -/
def partsAfter : Nat → List UInt8 → List (Option Char)
  | _, [] => []
  | owed + 1, _ :: bs => partsAfter owed bs
  | 0, b :: bs => (first b bs).1 :: partsAfter (first b bs).2 bs

/-- The text, each damaged part none. -/
def parts (bs : List UInt8) : List (Option Char) := partsAfter 0 bs

/-- The text, each damaged part shown as U+FFFD. -/
def decodeLossy (bs : List UInt8) : String :=
  String.ofList ((parts bs).map fun c => c.getD '\uFFFD')

/-- The text, if no part of it is damaged. -/
def decode? (bs : List UInt8) : Option String := ((parts bs).mapM id).map String.ofList

end Morpho.Text.Utf8
