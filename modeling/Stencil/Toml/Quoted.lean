/-!
Strings: between single or double quotes, or between three of them over several lines. Between
double quotes a backslash begins an escape.
-/

namespace Stencil.Toml

/-- A character that may stand in a comment and in a string without a line end. -/
def isPlain (c : Char) : Bool := c = '\t' || (0x20 ≤ c.toNat && c.toNat ≠ 0x7f)

def hexValue? (c : Char) : Option Nat :=
  if c.isDigit then some (c.toNat - '0'.toNat)
  else if 'a' ≤ c && c ≤ 'f' then some (c.toNat - 'a'.toNat + 10)
  else if 'A' ≤ c && c ≤ 'F' then some (c.toNat - 'A'.toNat + 10)
  else none

/-- The character whose code the digits write. -/
def hexChar? (digits : List Char) : Option Char := do
  let values ← digits.mapM hexValue?
  let n := values.foldl (fun n d => n * 16 + d) 0
  if h : n.isValidChar then some (Char.ofNatAux n h) else none

/-- What the letter after a backslash stands for. -/
def escaped? (c : Char) : Option Char :=
  match c with
  | 'b' => some '\x08'
  | 't' => some '\t'
  | 'n' => some '\n'
  | 'f' => some '\x0c'
  | 'r' => some '\r'
  | '"' => some '"'
  | '\\' => some '\\'
  | _ => none

/-- Read on to the closing quote; `read` holds, in reverse, what came before. -/
def basicChars (read : List Char) : List Char → Option (List Char × List Char)
  | [] => none
  | '"' :: cs => some (read.reverse, cs)
  | '\\' :: 'u' :: a :: b :: c :: d :: cs => do
    basicChars ((← hexChar? [a, b, c, d]) :: read) cs
  | '\\' :: 'U' :: a :: b :: c :: d :: e :: f :: g :: h :: cs => do
    basicChars ((← hexChar? [a, b, c, d, e, f, g, h]) :: read) cs
  | '\\' :: e :: cs => do basicChars ((← escaped? e) :: read) cs
  | c :: cs => if isPlain c then basicChars (c :: read) cs else none

/-- Read on to the closing single quote. -/
def literalChars (read : List Char) : List Char → Option (List Char × List Char)
  | [] => none
  | '\'' :: cs => some (read.reverse, cs)
  | c :: cs => if isPlain c then literalChars (c :: read) cs else none

/-- Where reading stands in a string of several lines. -/
inductive LineState
  | within
  /-- Behind a backslash that ends the line. -/
  | ending
  /-- At the beginning of a line after such a backslash: white space is skipped. -/
  | skipping
  deriving DecidableEq

/-- The rest begins with a line end, of which the carriage return has been read. -/
def startsWithNewline (cs : List Char) : Bool := cs.head? = some '\n'

/-- Read on to the three closing quotes. Up to two quotes may stand before them. -/
def multilineChars (read : List Char) (state : LineState) :
    List Char → Option (List Char × List Char)
  | [] => none
  | c :: cs =>
    if c = '\r' then
      if startsWithNewline cs then multilineChars read state cs else none
    else if state = .ending then
      if c = '\n' then multilineChars read .skipping cs
      else if c = ' ' || c = '\t' then multilineChars read .ending cs
      else none
    else if state = .skipping && (c = ' ' || c = '\t' || c = '\n') then
      multilineChars read .skipping cs
    else match c, cs with
      | '"', '"' :: '"' :: '"' :: '"' :: cs => some (('"' :: '"' :: read).reverse, cs)
      | '"', '"' :: '"' :: '"' :: cs => some (('"' :: read).reverse, cs)
      | '"', '"' :: '"' :: cs => some (read.reverse, cs)
      | '\\', 'u' :: a :: b :: c :: d :: cs => do
        multilineChars ((← hexChar? [a, b, c, d]) :: read) .within cs
      | '\\', 'U' :: a :: b :: c :: d :: e :: f :: g :: h :: cs => do
        multilineChars ((← hexChar? [a, b, c, d, e, f, g, h]) :: read) .within cs
      | '\\', e :: cs =>
        if e = ' ' || e = '\t' then multilineChars read .ending cs
        else if e = '\n' then multilineChars read .skipping cs
        else if e = '\r' then
          if startsWithNewline cs then multilineChars read .ending cs else none
        else do multilineChars ((← escaped? e) :: read) .within cs
      | c, cs =>
        if c = '\n' || isPlain c then multilineChars (c :: read) .within cs else none

/-- Read on to the three closing single quotes. Up to two of them may stand before. -/
def multilineLiteralChars (read : List Char) : List Char → Option (List Char × List Char)
  | [] => none
  | '\'' :: '\'' :: '\'' :: '\'' :: '\'' :: cs => some (('\'' :: '\'' :: read).reverse, cs)
  | '\'' :: '\'' :: '\'' :: '\'' :: cs => some (('\'' :: read).reverse, cs)
  | '\'' :: '\'' :: '\'' :: cs => some (read.reverse, cs)
  | c :: cs =>
    if c = '\r' then
      if startsWithNewline cs then multilineLiteralChars read cs else none
    else if c = '\n' || isPlain c then multilineLiteralChars (c :: read) cs
    else none

/-- Drop a line end right behind the opening quotes. -/
def dropFirstNewline : List Char → List Char
  | '\n' :: cs => cs
  | '\r' :: '\n' :: cs => cs
  | cs => cs

/-- Read a string on one line, from its opening quote on. -/
def readSimpleString : List Char → Option (String × List Char)
  | '"' :: cs => (basicChars [] cs).map fun (s, rest) => (String.ofList s, rest)
  | '\'' :: cs => (literalChars [] cs).map fun (s, rest) => (String.ofList s, rest)
  | _ => none

/-- Read a string, from its opening quotes on. -/
def readString : List Char → Option (String × List Char)
  | '"' :: '"' :: '"' :: cs =>
    (multilineChars [] .within (dropFirstNewline cs)).map fun (s, rest) =>
      (String.ofList s, rest)
  | '\'' :: '\'' :: '\'' :: cs =>
    (multilineLiteralChars [] (dropFirstNewline cs)).map fun (s, rest) =>
      (String.ofList s, rest)
  | cs => readSimpleString cs

end Stencil.Toml
