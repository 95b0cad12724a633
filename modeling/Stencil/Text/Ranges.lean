/-!
Character classes written as ranges: a table lists, in increasing order and
alternately, the first code point of a range and the first one after it.
-/

namespace Stencil.Text

/-- The number `n` lies in one of the ranges of `table`. -/
def inRanges : List Nat → Nat → Bool
  | first :: after :: rest, n =>
    if n < first then false else n < after || inRanges rest n
  | _, _ => false

@[simp] theorem inRanges_nil (n : Nat) : inRanges [] n = false := rfl

theorem inRanges_cons (first after : Nat) (rest : List Nat) (n : Nat) :
    inRanges (first :: after :: rest) n =
      (if n < first then false else n < after || inRanges rest n) := rfl

end Stencil.Text
