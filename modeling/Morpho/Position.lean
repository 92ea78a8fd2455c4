/-! Places in source text. Lines and columns count from one, and a column counts characters. -/
namespace Morpho

structure Position where
  line : Nat
  column : Nat
  deriving DecidableEq

namespace Position

def start : Position := ⟨1, 1⟩

/-- The place right after a character `c` that stands at `p`. -/
def next (p : Position) (c : Char) : Position :=
  if c = '\n' then ⟨p.line + 1, 1⟩ else ⟨p.line, p.column + 1⟩

/-- The place right after a text that starts at `p`. -/
def after (p : Position) (cs : List Char) : Position := cs.foldl next p

@[simp] theorem after_nil (p : Position) : p.after [] = p := rfl
@[simp] theorem after_cons (p : Position) (c : Char) (cs : List Char) :
    p.after (c :: cs) = (p.next c).after cs := rfl
theorem after_append (p : Position) (cs ds : List Char) :
    p.after (cs ++ ds) = (p.after cs).after ds := List.foldl_append

end Position
end Morpho
