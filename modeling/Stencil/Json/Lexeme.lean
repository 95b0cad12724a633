/-!
The smallest parts of a JSON text, read from its bytes: blanks, words, strings and numbers.

A reader returns what it read and the bytes behind it. The first fault from left to right decides
what is reported.
-/

namespace Stencil.Json

/-- Why bytes are not the JSON that was asked for. -/
inductive Fault
  /-- They are not JSON. -/
  | malformed
  /-- They are JSON of another shape. -/
  | mismatched
  /-- They end too early. -/
  | truncated
  deriving DecidableEq, Repr

abbrev Bytes := List UInt8

def isBlank (b : UInt8) : Bool := b == 0x20 || b == 0x0a || b == 0x0d || b == 0x09

def skipBlanks (bs : Bytes) : Bytes := bs.dropWhile isBlank

def isDigit (b : UInt8) : Bool := 0x30 ≤ b && b ≤ 0x39

def digitValue (b : UInt8) : Nat := b.toNat - 0x30

def hexValue? (b : UInt8) : Option Nat :=
  if isDigit b then some (digitValue b)
  else if 0x41 ≤ b && b ≤ 0x46 then some (b.toNat - 0x37)
  else if 0x61 ≤ b && b ≤ 0x66 then some (b.toNat - 0x57)
  else none

/-- The number that four hexadecimal digits write. -/
def hexUnit? (a b c d : UInt8) : Option Nat := do
  return (← hexValue? a) * 4096 + (← hexValue? b) * 256 + (← hexValue? c) * 16 + (← hexValue? d)

/-- What the letter after a backslash stands for. -/
def escaped? (b : UInt8) : Option UInt8 :=
  match b with
  | 0x22 => some 0x22
  | 0x5c => some 0x5c
  | 0x2f => some 0x2f
  | 0x62 => some 0x08
  | 0x66 => some 0x0c
  | 0x6e => some 0x0a
  | 0x72 => some 0x0d
  | 0x74 => some 0x09
  | _ => none

def isHighSurrogate (n : Nat) : Bool := 0xd800 ≤ n && n < 0xdc00

def isLowSurrogate (n : Nat) : Bool := 0xdc00 ≤ n && n < 0xe000

/-- The code point of a pair of surrogates. -/
def pairValue (high low : Nat) : Nat := (high - 0xd800) * 1024 + (low - 0xdc00) + 0x10000

/-- The bytes of the code point `n`, before those already read, which are in reverse. -/
def pushCodePoint (n : Nat) (read : Bytes) : Bytes :=
  (String.utf8EncodeChar (Char.ofNat n)).reverse ++ read

/-- Read on to the closing quote. `read` holds, in reverse, the bytes that came before; after the
first half of a surrogate pair, `high` holds that half. -/
def stringBytes (read : Bytes) (high : Option Nat) : Bytes → Except Fault (Bytes × Bytes)
  | [] => .error .truncated
  | [0x5c] => .error .truncated
  | 0x5c :: 0x75 :: a :: b :: c :: d :: bs =>
    match hexUnit? a b c d, high with
    | none, _ => .error .malformed
    | some n, none =>
      if isLowSurrogate n then .error .malformed
      else if isHighSurrogate n then stringBytes read (some n) bs
      else stringBytes (pushCodePoint n read) none bs
    | some n, some h =>
      if isLowSurrogate n then stringBytes (pushCodePoint (pairValue h n) read) none bs
      else .error .malformed
  | 0x5c :: 0x75 :: _ => .error .truncated
  | b :: bs =>
    if high.isSome then .error .malformed
    else if b = 0x22 then .ok (read.reverse, bs)
    else if b < 0x20 then .error .malformed
    else if b = 0x5c then
      match bs with
      | [] => .error .truncated
      | e :: bs =>
        match escaped? e with
        | some b => stringBytes (b :: read) none bs
        | none => .error .malformed
    else stringBytes (b :: read) none bs

/-- The text of a string whose opening quote has been read. -/
def stringText (bs : Bytes) : Except Fault (String × Bytes) := do
  let (read, rest) ← stringBytes [] none bs
  match String.fromUTF8? ⟨⟨read⟩⟩ with
  | some s => return (s, rest)
  | none => throw .malformed

/-- Skip to behind the closing quote. Neither UTF-8 nor surrogates are looked at. -/
def skipString : Bytes → Except Fault Bytes
  | [] => .error .truncated
  | [0x5c] => .error .truncated
  | 0x5c :: 0x75 :: a :: b :: c :: d :: bs =>
    if (hexUnit? a b c d).isSome then skipString bs else .error .malformed
  | 0x5c :: 0x75 :: _ => .error .truncated
  | 0x5c :: e :: bs => if (escaped? e).isSome then skipString bs else .error .malformed
  | b :: bs =>
    if b = 0x22 then .ok bs
    else if b < 0x20 then .error .malformed
    else skipString bs

/-- Skip the bytes of `word`. -/
def skipWord : Bytes → Bytes → Except Fault Bytes
  | [], bs => .ok bs
  | _ :: _, [] => .error .truncated
  | w :: ws, b :: bs => if b = w then skipWord ws bs else .error .malformed

/-- Skip an exponent whose letter has been read. -/
def skipExponent (bs : Bytes) : Except Fault Bytes :=
  let digits := match bs with
    | 0x2b :: bs | 0x2d :: bs => bs
    | bs => bs
  match digits with
  | b :: bs => if isDigit b then .ok (bs.dropWhile isDigit) else .error .malformed
  | [] => .error .malformed

/-- Skip a fraction whose point has been read, and what follows it. -/
def skipFraction (bs : Bytes) : Except Fault Bytes :=
  match bs with
  | b :: _ =>
    if isDigit b then
      match bs.dropWhile isDigit with
      | 0x65 :: bs | 0x45 :: bs => skipExponent bs
      | bs => .ok bs
    else .error .malformed
  | [] => .error .malformed

/-- Skip what follows the digits before the point. -/
def skipNumberTail : Bytes → Except Fault Bytes
  | 0x2e :: bs => skipFraction bs
  | 0x65 :: bs | 0x45 :: bs => skipExponent bs
  | bs => .ok bs

/-- Skip a number without its sign. -/
def skipNumber : Bytes → Except Fault Bytes
  | [] => .error .malformed
  | 0x30 :: bs =>
    if bs.head?.any isDigit then .error .malformed else skipNumberTail bs
  | b :: bs =>
    if isDigit b then skipNumberTail (bs.dropWhile isDigit) else .error .malformed

end Stencil.Json
