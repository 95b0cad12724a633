import Stencil.Text.Blank

/-!
Placeholders in text. A placeholder is written `{{ name }}`: the name is what stands between
the delimiters, without the blanks around it.

Reading goes from left to right and is either outside a placeholder, looking for `{{`, or inside
one, looking for `}}`. An opening that meets another `{{` before its `}}`, or that is never
closed, is plain text. Placeholders do not nest.

The main facts here: the pieces of a text put together give the text back (`text_pieces`), and
so do its segments (`source_segments`).
-/

namespace Stencil

/-- A part of a text: plain characters, or the characters between two delimiters. -/
inductive Piece
  | literal (text : List Char)
  | token (interior : List Char)
  deriving DecidableEq, Repr

namespace Piece

/-- The characters of a piece, delimiters included. -/
def text : Piece → List Char
  | literal cs => cs
  | token cs => '{' :: '{' :: (cs ++ ['}', '}'])

/-- The literal whose characters are `cs` in reverse; no piece if there are none. -/
def flush (cs : List Char) : List Piece :=
  if cs.isEmpty then [] else [literal cs.reverse]

/-- Read on. `pending` holds, in reverse, the plain characters since the last placeholder, and
the second argument what has come since the opening that follows them, if one has. -/
def read (pending : List Char) : Option (List Char) → List Char → List Piece
  | none, '{' :: '{' :: cs => read pending (some []) cs
  | none, c :: cs => read (c :: pending) none cs
  | none, [] => flush pending
  | some interior, '}' :: '}' :: cs =>
    flush pending ++ token interior.reverse :: read [] none cs
  | some interior, '{' :: '{' :: cs => read (interior ++ '{' :: '{' :: pending) (some []) cs
  | some interior, c :: cs => read pending (some (c :: interior)) cs
  | some interior, [] => flush (interior ++ '{' :: '{' :: pending)

end Piece

/-- The pieces of a text, from left to right. -/
def pieces (cs : List Char) : List Piece := Piece.read [] none cs

/-- A placeholder and where it stands: its first byte and the first byte after it. -/
structure Token where
  name : String
  start : Nat
  stop : Nat
  raw : String
  deriving DecidableEq, Repr

inductive Segment
  | literal (text : String)
  | placeholder (token : Token)
  deriving DecidableEq, Repr

namespace Segment

/-- The text of a segment, as it was read. -/
def source : Segment → String
  | literal s => s
  | placeholder t => t.raw

def token? : Segment → Option Token
  | literal _ => none
  | placeholder t => some t

/-- The segment of a piece that begins at byte `start`. -/
def ofPiece (start : Nat) (p : Piece) : Segment :=
  let raw := String.ofList p.text
  match p with
  | .literal _ => literal raw
  | .token cs =>
    placeholder ⟨String.ofList (Text.trim cs), start, start + raw.utf8ByteSize, raw⟩

/-- Lay out pieces, the first of which begins at byte `start`. -/
def ofPieces (start : Nat) : List Piece → List Segment
  | [] => []
  | p :: ps => ofPiece start p :: ofPieces (start + (String.ofList p.text).utf8ByteSize) ps

end Segment

/-- The plain parts and the placeholders of a text, from left to right. -/
def segments (text : String) : List Segment := Segment.ofPieces 0 (pieces text.toList)

/-- The placeholders of a text, from left to right. -/
def placeholders (text : String) : List Token := (segments text).filterMap Segment.token?

namespace Piece

@[simp] theorem flatMap_text_flush (cs : List Char) : (flush cs).flatMap text = cs.reverse := by
  cases cs <;> simp [flush, text]

/-- The characters already read, in order. -/
def consumed (pending : List Char) : Option (List Char) → List Char
  | none => pending.reverse
  | some interior => pending.reverse ++ '{' :: '{' :: interior.reverse

theorem flatMap_text_read (pending : List Char) (interior : Option (List Char))
    (cs : List Char) :
    (read pending interior cs).flatMap text = consumed pending interior ++ cs := by
  fun_induction read pending interior cs <;> simp_all [consumed, text]

end Piece

theorem text_pieces (cs : List Char) : (pieces cs).flatMap Piece.text = cs := by
  simp [pieces, Piece.flatMap_text_read, Piece.consumed]

theorem Segment.source_ofPieces (start : Nat) (ps : List Piece) :
    (ofPieces start ps).flatMap (·.source.toList) = ps.flatMap Piece.text := by
  induction ps generalizing start with
  | nil => rfl
  | cons p ps ih =>
    rw [ofPieces, List.flatMap_cons, List.flatMap_cons, ih]
    cases p <;> simp [ofPiece, source]

theorem source_segments (text : String) :
    (segments text).flatMap (·.source.toList) = text.toList := by
  simp [segments, Segment.source_ofPieces, text_pieces]

end Stencil
