/-! Lines of a text. -/
namespace Morpho.Text

/-- Splits at newlines. A carriage return right before a newline goes with it; one anywhere else
stays. A final newline starts no further line, and the empty text has no lines. -/
def lines : List Char → List (List Char)
  | [] => []
  | '\n' :: cs => [] :: lines cs
  | '\r' :: '\n' :: cs => [] :: lines cs
  | c :: cs =>
    match lines cs with
    | [] => [[c]]
    | l :: ls => (c :: l) :: ls

end Morpho.Text
