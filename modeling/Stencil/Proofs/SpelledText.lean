import Mathlib.Data.Bool.AllAny
import Mathlib.Data.List.Forall2
import Mathlib.Data.Nat.Digits.Defs

/-!
Texts that are spelled character by character, and numbers in hexadecimal digits.

Both formats that are read, the configuration and the descriptor, let a character be written in
several ways, one of which is its code in such digits.
-/

namespace Stencil

/-- A text put together from the parts that its characters are spelled as. -/
inductive Spelled (spelling : Char → List Char → Prop) : List Char → List Char → Prop
  | nil : Spelled spelling [] []
  | cons {c : Char} {cs part text : List Char} :
      spelling c part → Spelled spelling cs text → Spelled spelling (c :: cs) (part ++ text)

/-- A digit of the value `v`, which is below sixteen, in a small letter or a capital. -/
def HexDigit (v : Nat) (c : Char) : Prop :=
  "0123456789abcdef".toList[v]? = some c ∨ "0123456789ABCDEF".toList[v]? = some c

/-- The number `n` in hexadecimal digits. -/
def HexNumeral (n : Nat) (digits : List Char) : Prop :=
  ∃ values, List.Forall₂ HexDigit values digits ∧ Nat.ofDigits 16 values.reverse = n

/-- What holds of all twenty-two digits and their values holds of each of them. -/
theorem HexDigit.of_forall {p : Nat → Char → Prop} {v : Nat} {c : Char} (h : HexDigit v c)
    (hp : ∀ q ∈ "0123456789abcdef".toList.zipIdx ++ "0123456789ABCDEF".toList.zipIdx,
      p q.2 q.1) : p v c := by
  obtain h | h := h
  · exact hp (c, v) (List.mem_append_left _ (List.mk_mem_zipIdx_iff_getElem?.2 h))
  · exact hp (c, v) (List.mem_append_right _ (List.mk_mem_zipIdx_iff_getElem?.2 h))

/-- From the left to the right, each digit comes behind sixteen times the number before it. -/
theorem ofDigits_reverse (values : List Nat) :
    Nat.ofDigits 16 values.reverse = values.foldl (fun n d => n * 16 + d) 0 := by
  rw [Nat.ofDigits_eq_foldr, List.foldr_reverse]
  refine congrArg (fun f => values.foldl f 0) ?_
  funext n d
  rw [Nat.mul_comm n, Nat.add_comm]
  rfl

end Stencil
