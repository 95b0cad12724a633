import Stencil.Text.Ranges

/-!
White space and trimming. The class is the Unicode property `White_Space`.
-/

namespace Stencil.Text

/-- The ranges of `White_Space`. -/
def blankRanges : List Nat :=
  [0x9, 0xe, 0x20, 0x21, 0x85, 0x86, 0xa0, 0xa1, 0x1680, 0x1681, 0x2000, 0x200b,
    0x2028, 0x202a, 0x202f, 0x2030, 0x205f, 0x2060, 0x3000, 0x3001]

def isBlank (c : Char) : Bool := inRanges blankRanges c.toNat

/-- Drop the blanks at both ends. -/
def trim (cs : List Char) : List Char :=
  ((cs.dropWhile isBlank).reverse.dropWhile isBlank).reverse

/-- The text of `s` between its leading and trailing blanks. -/
def trimmed (s : String) : String := String.ofList (trim s.toList)

@[simp] theorem trim_nil : trim [] = [] := rfl

@[simp] theorem toList_trimmed (s : String) : (trimmed s).toList = trim s.toList := by
  simp [trimmed]

example : isBlank '\u0085' = true ∧ isBlank '\u200b' = false := by decide

end Stencil.Text
