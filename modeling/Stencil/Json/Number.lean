import Stencil.Json.Lexeme

/-!
Numbers where something else is asked for. Such a number is read to its end, and whether it is
malformed, too large for a double or merely out of place decides which fault is reported.
-/

namespace Stencil.Json

/-- Round to the nearest number of 53 significant bits, a tie to the even one. -/
def roundToDouble (n : Nat) : Nat :=
  let shift := n.log2 - 52
  let quotient := n >>> shift
  let rest := 2 * (n % Nat.pow 2 shift)
  let up := rest > Nat.pow 2 shift || (rest == Nat.pow 2 shift && quotient % 2 == 1)
  (if up then quotient + 1 else quotient) <<< shift

/-- From here on a number rounds to infinity. -/
def doubleLimit : Nat := Nat.pow 2 1024 - Nat.pow 2 970

/-- The number `significand * 10 ^ exponent` is too large for a double, each factor being rounded
first. -/
def overflowsDouble (significand : Nat) (exponent : Int) : Bool :=
  significand != 0 && 0 ≤ exponent &&
    (308 < exponent ||
      doubleLimit ≤ roundToDouble significand * roundToDouble (Nat.pow 10 exponent.toNat))

/-- Take up digits as long as the number stays below `2 ^ 64`; return it and how many digits are
left. -/
def takeDigits (n : Nat) : Bytes → Nat × Nat
  | [] => (n, 0)
  | d :: ds =>
    let m := n * 10 + digitValue d
    if m < Nat.pow 2 64 then takeDigits m ds else (n, ds.length + 1)

/-- The largest exponent that is computed with. -/
def maxExponent : Nat := Nat.pow 2 31 - 1

/-- The fault of a number whose digits give `significand * 10 ^ shift`, if it is too large. -/
def sizeFault (significand : Nat) (shift : Int) : Fault :=
  if overflowsDouble significand shift then .malformed else .mismatched

/-- The fault of a number, from behind the letter of its exponent on. -/
def exponentFault (significand : Nat) (shift : Int) (bs : Bytes) : Fault :=
  let (negative, digits) := match bs with
    | 0x2d :: bs => (true, bs)
    | 0x2b :: bs => (false, bs)
    | bs => (false, bs)
  match digits with
  | [] => .truncated
  | b :: _ =>
    if !isDigit b then .malformed
    else
      let value := (digits.takeWhile isDigit).foldl (fun n d => n * 10 + digitValue d) 0
      if value > maxExponent then
        if significand ≠ 0 && !negative then .malformed else .mismatched
      else sizeFault significand (if negative then shift - value else shift + value)

/-- The fault of a number, from behind its point on. -/
def fractionFault (significand : Nat) (shift : Int) (bs : Bytes) : Fault :=
  match bs with
  | [] => .truncated
  | b :: _ =>
    if !isDigit b then .malformed
    else
      let digits := bs.takeWhile isDigit
      let (significand, left) := takeDigits significand digits
      let shift := shift - (digits.length - left : Nat)
      match bs.dropWhile isDigit with
      | 0x65 :: bs | 0x45 :: bs => exponentFault significand shift bs
      | _ => sizeFault significand shift

/-- The fault of a number that stands, without its sign, where it does not belong. -/
def numberFault (bs : Bytes) : Fault :=
  match bs with
  | [] => .truncated
  | b :: rest =>
    if !isDigit b || (b = 0x30 && rest.head?.any isDigit) then .malformed
    else
      let (significand, left) := takeDigits 0 (bs.takeWhile isDigit)
      match bs.dropWhile isDigit with
      | 0x2e :: bs => fractionFault significand left bs
      | 0x65 :: bs | 0x45 :: bs => exponentFault significand left bs
      | _ => sizeFault significand left

example : numberFault [0x31, 0x65, 0x39, 0x39, 0x39] = .malformed := by decide +kernel
example : numberFault [0x31, 0x65, 0x33, 0x30, 0x38] = .mismatched := by decide +kernel

end Stencil.Json
