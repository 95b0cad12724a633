import Stencil.Toml.Value

/-!
Values that are written without delimiters: numbers, truth values, dates and times. Such a value
is a word, and a word is recognised as a whole. Of a float and of a moment only the kind is kept.
-/

namespace Stencil.Toml

/-- Take the separators out of a group of digits. One may stand between two digits. -/
def grouped (digit : Char → Bool) : List Char → Option (List Char)
  | [] => none
  | [c] => if digit c then some [c] else none
  | c :: '_' :: cs => if digit c then (grouped digit cs).map (c :: ·) else none
  | c :: cs => if digit c then (grouped digit cs).map (c :: ·) else none

def digitValue (c : Char) : Nat :=
  if c.isDigit then c.toNat - '0'.toNat
  else if c.isLower then c.toNat - 'a'.toNat + 10
  else c.toNat - 'A'.toNat + 10

def isHexDigit (c : Char) : Bool :=
  c.isDigit || ('a' ≤ c && c ≤ 'f') || ('A' ≤ c && c ≤ 'F')

/-- The number that digits write. -/
def numberOf (base : Nat) (digits : List Char) : Nat :=
  digits.foldl (fun n c => n * base + digitValue c) 0

/-- The sign of a word, and the rest of it. -/
def splitSign : List Char → Bool × List Char
  | '-' :: cs => (true, cs)
  | '+' :: cs => (false, cs)
  | cs => (false, cs)

/-- The digits of a decimal number, which has no zero in front. -/
def decimalDigits (cs : List Char) : Option (List Char) := do
  let digits ← grouped Char.isDigit cs
  if digits.length > 1 && digits.head? = some '0' then none else some digits

/-- A number that fits into 64 bits with a sign. -/
def integer? (negative : Bool) (n : Nat) : Option Value :=
  if negative then if n ≤ Nat.pow 2 63 then some (.integer (-n)) else none
  else if n < Nat.pow 2 63 then some (.integer n) else none

def integerWord (word : List Char) : Option Value :=
  match word with
  | '0' :: 'x' :: cs => do integer? false (numberOf 16 (← grouped isHexDigit cs))
  | '0' :: 'o' :: cs => do
    integer? false (numberOf 8 (← grouped (fun c => '0' ≤ c && c ≤ '7') cs))
  | '0' :: 'b' :: cs => do
    integer? false (numberOf 2 (← grouped (fun c => c = '0' || c = '1') cs))
  | cs => do
    let (negative, cs) := splitSign cs
    integer? negative (numberOf 10 (← decimalDigits cs))

/-- The number `n * 10 ^ shift` is too large for a double. -/
def overflows (n : Nat) (shift : Int) : Bool :=
  let limit := Nat.pow 2 1024 - Nat.pow 2 970
  if n = 0 then false
  else if 0 ≤ shift then 400 < shift || limit ≤ n * Nat.pow 10 shift.toNat
  else
    let places := (-shift).toNat
    places ≤ n.log2 && limit * Nat.pow 10 places ≤ n

/-- Cut in front of the first character that satisfies `p`. -/
def cutAt (p : Char → Bool) (cs : List Char) : List Char × List Char :=
  (cs.takeWhile (!p ·), cs.dropWhile (!p ·))

/-- A float has a fraction or an exponent or both. A positive one must not be too large. -/
def floatWord (word : List Char) : Option Value := do
  let (negative, cs) := splitSign word
  let (mantissa, exponent) := cutAt (fun c => c = 'e' || c = 'E') cs
  let (whole, fraction) := cutAt (· = '.') mantissa
  if fraction.isEmpty && exponent.isEmpty then none
  let whole ← decimalDigits whole
  let places ← if fraction.isEmpty then some [] else grouped Char.isDigit fraction.tail
  let (below, power) := splitSign exponent.tail
  let power ← if exponent.isEmpty then some [] else grouped Char.isDigit power
  let power : Int := numberOf 10 power
  let shift := (if below then -power else power) - places.length
  if !negative && overflows (numberOf 10 (whole ++ places)) shift then none
  return .float

def isSpecialFloat (word : List Char) : Bool :=
  let cs := (splitSign word).2
  cs = ['i', 'n', 'f'] || cs = ['n', 'a', 'n']

/-- The number that two digits write, if it lies between the bounds. -/
def twoDigits (low high : Nat) (a b : Char) : Option Nat :=
  let n := numberOf 10 [a, b]
  if a.isDigit && b.isDigit && low ≤ n && n ≤ high then some n else none

def isLeapYear (year : Nat) : Bool := year % 4 = 0 && (year % 100 ≠ 0 || year % 400 = 0)

def daysIn (year month : Nat) : Nat :=
  match month with
  | 2 => if isLeapYear year then 29 else 28
  | 4 | 6 | 9 | 11 => 30
  | _ => 31

/-- What follows a date. -/
def afterDate : List Char → Option (List Char)
  | y₁ :: y₂ :: y₃ :: y₄ :: '-' :: m₁ :: m₂ :: '-' :: d₁ :: d₂ :: cs => do
    if [y₁, y₂, y₃, y₄].any (!·.isDigit) then none
    let month ← twoDigits 1 12 m₁ m₂
    let _ ← twoDigits 1 (daysIn (numberOf 10 [y₁, y₂, y₃, y₄]) month) d₁ d₂
    return cs
  | _ => none

/-- What follows a time of day. -/
def afterTime : List Char → Option (List Char)
  | h₁ :: h₂ :: ':' :: m₁ :: m₂ :: ':' :: s₁ :: s₂ :: cs => do
    let _ ← twoDigits 0 23 h₁ h₂
    let _ ← twoDigits 0 59 m₁ m₂
    let _ ← twoDigits 0 60 s₁ s₂
    match cs with
    | '.' :: c :: rest => if c.isDigit then some (rest.dropWhile Char.isDigit) else none
    | cs => some cs
  | _ => none

/-- The whole of `cs` is the offset of a time zone, or nothing. -/
def isOffset : List Char → Bool
  | [] => true
  | ['Z'] | ['z'] => true
  | [sign, h₁, h₂, ':', m₁, m₂] =>
    (sign = '+' || sign = '-') && (twoDigits 0 23 h₁ h₂).isSome && (twoDigits 0 59 m₁ m₂).isSome
  | _ => false

/-- The whole of `cs` is a time of day with or without an offset. -/
def isZonedTime (cs : List Char) : Bool := (afterTime cs).any isOffset

/-- A date, a time, or both. -/
def isMoment (word : List Char) : Bool :=
  match afterDate word with
  | some [] => true
  | some ('T' :: cs) | some ('t' :: cs) => isZonedTime cs
  | some _ => false
  | none => afterTime word = some []

/-- The value of a word. -/
def wordValue (word : List Char) : Option Value :=
  if word = "true".toList then some (.boolean true)
  else if word = "false".toList then some (.boolean false)
  else if isSpecialFloat word then some .float
  else if isMoment word then some .moment
  else (integerWord word).or (floatWord word)

/-- A word ends where blanks, a line end, a comment or another delimiter follow. -/
def endsWord (c : Char) : Bool := " \t\r\n#,]\x7d".toList.contains c

/-- Read a value without delimiters. A blank may stand between a date and a time. -/
def readWord (cs : List Char) : Option (Value × List Char) :=
  let (word, rest) := cutAt endsWord cs
  match afterDate word, rest with
  | some [], ' ' :: rest' =>
    let (time, rest'') := cutAt endsWord rest'
    if isZonedTime time then some (.moment, rest'') else some (.moment, rest)
  | _, _ => (wordValue word).map (·, rest)

end Stencil.Toml
