import Stencil.Proofs.Seams

/-!
Texts that are written part by part.

A part is plain text or a name between delimiters. Where plain text opens nothing, and lends no brace
to a placeholder behind it, each part is read as one piece (`pieces_printed`). Main statement: what is
written in this way is read as the same parts, each where it was written (`segments_printed`).
-/

namespace Stencil

open Json (utf8_append)

/-- A part of a text that is to be written. -/
inductive Part
  | literal (text : String)
  /-- A name, with the blanks on both sides of it. -/
  | placeholder (before name after : String)
  deriving DecidableEq, Repr

namespace Part

/-- The text of a part. -/
def printed : Part → String
  | literal s => s
  | placeholder before name after => "\x7b\x7b" ++ (before ++ (name ++ after)) ++ "\x7d\x7d"

/-- The segment that a part is to be read as, where it begins at byte `start`. -/
def segment (start : Nat) (p : Part) : Segment :=
  match p with
  | literal s => .literal s
  | placeholder _ name _ =>
    .placeholder ⟨name, start, start + p.printed.utf8ByteSize, p.printed⟩

/-- Plain text is not empty and opens nothing. A name holds no brace and has no blank at its ends, and
only blanks stand beside it. -/
def Legible : Part → Prop
  | literal s => s ≠ "" ∧ ¬ ['{', '{'] <:+: s.toList
  | placeholder before name after =>
    (∀ c ∈ before.toList, Text.isBlank c) ∧ (∀ c ∈ after.toList, Text.isBlank c) ∧
      ('{' ∉ name.toList ∧ '}' ∉ name.toList) ∧
      (∀ c ∈ name.toList.head?, ¬ Text.isBlank c) ∧ ∀ c ∈ name.toList.getLast?, ¬ Text.isBlank c

-- Only the characters of the text are tried: instances for all characters there are also apply.
instance : DecidablePred Legible
  | literal _ => inferInstanceAs (Decidable (_ ∧ _))
  | placeholder _ _ _ =>
    have : ∀ cs : List Char, Decidable (∀ c ∈ cs, Text.isBlank c) := List.decidableBAll _
    have : ∀ c? : Option Char, Decidable (∀ c ∈ c?, ¬ Text.isBlank c) := Option.decidableForallMem
    inferInstanceAs (Decidable (_ ∧ _))

/-- What may stand behind a part. -/
def Meets : Part → Part → Prop
  | literal _, literal _ => False
  | literal s, placeholder _ _ _ => s.toList.getLast? ≠ some '{'
  | placeholder _ _ _, _ => True

instance : DecidableRel Meets
  | literal _, literal _ => inferInstanceAs (Decidable False)
  | literal _, placeholder _ _ _ => inferInstanceAs (Decidable (_ ≠ _))
  | placeholder _ _ _, _ => inferInstanceAs (Decidable True)

/-- The piece that a part is to be read as. -/
def piece : Part → Piece
  | literal s => .literal s.toList
  | placeholder before name after => .token (before.toList ++ (name.toList ++ after.toList))

theorem toList_printed (p : Part) : p.printed.toList = p.piece.text := by
  cases p with
  | literal s => rfl
  | placeholder before name after => simp [printed, piece, Piece.text]

end Part

/-- The text of parts that follow one another. -/
def printed (parts : List Part) : String := String.join (parts.map Part.printed)

/-- The byte at which the part with this index begins. -/
def offset (parts : List Part) (i : Nat) : Nat := (printed (parts.take i)).utf8ByteSize

/-- Each part can be told from its neighbours. -/
structure Printable (parts : List Part) : Prop where
  legible : ∀ p ∈ parts, p.Legible
  meets : parts.IsChain Part.Meets

theorem toList_printed (parts : List Part) :
    (printed parts).toList = (parts.map Part.piece).flatMap Piece.text := by
  rw [printed, String.toList_join, List.flatMap_map, List.flatMap_map]
  exact List.flatMap_congr fun p _ => p.toList_printed

/-! ## Names -/

theorem trim_padded {before name after : List Char} (hbefore : ∀ c ∈ before, Text.isBlank c)
    (hafter : ∀ c ∈ after, Text.isBlank c) (hhead : ∀ c ∈ name.head?, ¬ Text.isBlank c)
    (hlast : ∀ c ∈ name.getLast?, ¬ Text.isBlank c) :
    Text.trim (before ++ (name ++ after)) = name := by
  have hends : ∀ cs : List Char, (∀ c ∈ cs.head?, ¬ Text.isBlank c) →
      cs.dropWhile Text.isBlank = cs := by
    intro cs hcs
    cases cs with
    | nil => rfl
    | cons c cs => exact List.dropWhile_cons_of_neg (hcs c rfl)
  rw [Text.trim, List.dropWhile_append_of_pos hbefore]
  cases name with
  | nil =>
    rw [List.nil_append, ← List.append_nil after, List.dropWhile_append_of_pos hafter]
    rfl
  | cons c name =>
    have hfront : (c :: name ++ after).dropWhile Text.isBlank = c :: name ++ after :=
      hends _ hhead
    have hback : ∀ d ∈ after.reverse, Text.isBlank d := fun d hd => hafter d (List.mem_reverse.1 hd)
    rw [hfront, List.reverse_append, List.dropWhile_append_of_pos hback, hends, List.reverse_reverse]
    rwa [List.head?_reverse]

variable {before name after : String} {parts : List Part}

theorem trim_of_legible (h : (Part.placeholder before name after).Legible) :
    String.ofList (Text.trim (before.toList ++ (name.toList ++ after.toList))) = name := by
  obtain ⟨hbefore, hafter, -, hhead, hlast⟩ := h
  rw [trim_padded hbefore hafter hhead hlast, String.ofList_toList]

theorem ofPiece_piece {p : Part} (h : p.Legible) (start : Nat) :
    Segment.ofPiece start p.piece = p.segment start := by
  cases p with
  | literal s => simp [Part.piece, Part.segment, Segment.ofPiece, Piece.text]
  | placeholder before name after =>
    have hraw : String.ofList (Part.placeholder before name after).piece.text =
        (Part.placeholder before name after).printed := by
      rw [← Part.toList_printed, String.ofList_toList]
    have hname := trim_of_legible h
    simp only [Part.piece] at hraw
    simp only [Part.piece, Part.segment, Segment.ofPiece, hraw, hname]

/-! ## Reading -/

theorem leadsIn_of_legible (h : (Part.placeholder before name after).Legible) {plain : List Char}
    (hplain : ¬ ['{', '{'] <:+: plain) (hlast : plain.getLast? ≠ some '{') :
    Piece.LeadsIn plain (before.toList ++ (name.toList ++ after.toList)) := by
  obtain ⟨hbefore, hafter, ⟨hopen, hclose⟩, -, -⟩ := h
  have hnot : ∀ d, d = '{' ∨ d = '}' → d ∉ before.toList ++ (name.toList ++ after.toList) := by
    intro d hd hmem
    have hblank : Text.isBlank d = false := by
      rcases hd with rfl | rfl <;> decide
    simp only [List.mem_append] at hmem
    rcases hmem with hmem | hmem | hmem
    · simp [hbefore d hmem] at hblank
    · rcases hd with rfl | rfl
      · exact hopen hmem
      · exact hclose hmem
    · simp [hafter d hmem] at hblank
  refine ⟨Piece.read_of_no_opening hplain, Piece.endsInPairs_of_getLast hlast, fun h => ?_, ?_⟩
  · exact hnot '{' (.inl rfl) (h.subset List.mem_cons_self)
  · refine Piece.not_infix_concat (fun h => ?_) fun hend => ?_
    · exact hnot '}' (.inr rfl) (h.subset List.mem_cons_self)
    · exact absurd (List.mem_of_getLast? hend) (hnot '}' (.inr rfl))

/-- Each part is read as its piece. -/
theorem pieces_printed (h : Printable parts) :
    pieces (printed parts).toList = parts.map Part.piece := by
  obtain ⟨hlegible, hmeets⟩ := h
  rw [toList_printed]
  induction parts with
  | nil => rfl
  | cons p parts ih =>
    obtain ⟨hp, hparts⟩ := List.forall_mem_cons.1 hlegible
    obtain ⟨hnext, hrest⟩ := List.isChain_cons.1 hmeets
    have hpieces := ih hparts hrest
    rw [List.map_cons, List.flatMap_cons]
    cases p with
    | placeholder before name after =>
      have hleads : Piece.LeadsIn [] _ := leadsIn_of_legible hp (by simp) (by simp)
      have hread := hleads.pieces_eq ((parts.map Part.piece).flatMap Piece.text)
      rw [hpieces] at hread
      exact hread
    | literal s =>
      -- only the placeholder behind it ends plain text, so the next part decides
      have hne : s.toList ≠ [] := fun h => hp.1 (String.toList_eq_nil_iff.1 h)
      have hflush : Piece.flush s.toList.reverse = [(Part.literal s).piece] := by
        simp [Piece.flush, Part.piece, hne]
      cases parts with
      | nil =>
        have hnone : Piece.Tokenless s.toList := Piece.read_of_no_opening hp.2
        have hread := Piece.pieces_of_tokenless hnone
        rw [hflush] at hread
        simpa [Part.piece, Piece.text] using hread
      | cons q parts =>
        cases q with
        | literal t => exact (hnext _ rfl).elim
        | placeholder before name after =>
          have hq := hparts _ List.mem_cons_self
          have hread := (leadsIn_of_legible hq hp.2 (hnext _ rfl)).pieces_apart
            ((parts.map Part.piece).flatMap Piece.text)
          rw [hflush] at hread
          exact hread.trans (congrArg (_ :: ·) hpieces)

theorem ofPieces_pieces (h : ∀ p ∈ parts, p.Legible) (start : Nat) :
    Segment.ofPieces start (parts.map Part.piece) =
      parts.mapIdx fun i p => p.segment (start + offset parts i) := by
  induction parts generalizing start with
  | nil => rfl
  | cons p parts ih =>
    obtain ⟨hp, hparts⟩ := List.forall_mem_cons.1 h
    have hoffset : ∀ i, offset (p :: parts) (i + 1) = p.printed.utf8ByteSize + offset parts i := by
      intro i
      simp [offset, printed]
    have hsize : (String.ofList p.piece.text).utf8ByteSize = p.printed.utf8ByteSize := by
      rw [← Part.toList_printed, String.ofList_toList]
    rw [List.map_cons, Segment.ofPieces, ofPiece_piece hp, ih hparts, List.mapIdx_cons, hsize]
    simp only [hoffset, Nat.add_assoc]
    rfl

/-- What is written part by part is read as these parts. Each stands behind the texts of those
before it. -/
theorem segments_printed (h : Printable parts) :
    segments (printed parts) = parts.mapIdx fun i p => p.segment (offset parts i) := by
  rw [segments, pieces_printed h, ofPieces_pieces h.legible]
  simp only [Nat.zero_add]

/-- Closings and single braces in plain text, blanks beyond ASCII, a blank inside a name, a name that
is empty, and a brace at the end. -/
def braceParts : List Part :=
  [.literal "é\x7d\x7d \x7bx", .placeholder " \t" "na me" "\u2003", .placeholder "" "" "",
    .literal "\x7d", .placeholder "" "b" " ", .literal "\x7b"]

theorem segments_printed_braces :
    Printable braceParts ∧
      segments (printed braceParts) =
        [.literal "é\x7d\x7d \x7bx",
          .placeholder ⟨"na me", 7, 21, "\x7b\x7b \tna me\u2003\x7d\x7d"⟩,
          .placeholder ⟨"", 21, 25, "\x7b\x7b\x7d\x7d"⟩, .literal "\x7d",
          .placeholder ⟨"b", 26, 32, "\x7b\x7bb \x7d\x7d"⟩, .literal "\x7b"] := by
  have hprintable : Printable braceParts := ⟨by decide +kernel, by decide +kernel⟩
  exact ⟨hprintable, (segments_printed hprintable).trans (by decide +kernel)⟩

end Stencil
