import Mathlib.Data.List.Chain
import Stencil.Proofs.ByteScanner

/-!
The segments of a text tile it.

Every segment is a piece of the text and stands where it says (`exists_of_mem_segments`), and what
a piece can be is settled by induction over the placeholders (`wellRead_pieces`). Main statement:
cut out of the bytes by positions, the segments cover the text without overlap, and none could be
read in another way (`scan?_tiling`).
-/

namespace Stencil

open Json (utf8 utf8_append)

/-- The segments are the text in parts: plain text that holds no placeholder, and placeholders that
hold no delimiter. -/
structure Tiling (text : String) (ss : List Segment) : Prop where
  joined : String.join (ss.map Segment.source) = text
  /-- A placeholder is the text between its two positions. -/
  cut : ∀ t, .placeholder t ∈ ss →
    t.start < t.stop ∧ t.stop ≤ (bytes text).length ∧ slice? text t.start t.stop = some t.raw
  ordered : (ss.filterMap Segment.token?).Pairwise fun t u => t.stop ≤ u.start
  delimited : ∀ t, .placeholder t ∈ ss → ∃ interior,
    t.raw.toList = '{' :: '{' :: (interior ++ ['}', '}']) ∧
      ¬ ['{', '{'] <:+: interior ∧ ¬ ['}', '}'] <:+: interior
  nonempty : .literal "" ∉ ss
  /-- Of two neighbours one is a placeholder. -/
  apart : ss.IsChain fun a b => a.token?.isSome ∨ b.token?.isSome
  plain : ∀ s, .literal s ∈ ss → placeholders s = []

/-! ## What pieces can be -/

namespace Piece

variable {p : Piece} {cs : List Char}

/-- The characters between the delimiters of a placeholder. -/
def interior? : Piece → Option (List Char)
  | literal _ => none
  | token interior => some interior

def WellRead : Piece → Prop
  | literal cs => cs ≠ [] ∧ Tokenless cs
  | token interior => ¬ ['{', '{'] <:+: interior ∧ ¬ ['}', '}'] <:+: interior

theorem eq_literal_of_mem_flush (h : p ∈ flush cs) : p = literal cs.reverse ∧ cs ≠ [] := by
  cases cs with
  | nil => simp [flush] at h
  | cons c cs => exact ⟨by simpa [flush] using h, by simp⟩

theorem wellRead_flush (h : Tokenless cs) (hp : p ∈ flush cs.reverse) : p.WellRead := by
  obtain ⟨rfl, hne⟩ := eq_literal_of_mem_flush hp
  rw [List.reverse_reverse]
  exact ⟨by simpa using hne, h⟩

theorem wellRead_pieces (cs : List Char) : ∀ p ∈ pieces cs, p.WellRead := by
  induction cs using pieces_induction with
  | plain cs h =>
    rw [pieces_of_tokenless h]
    exact fun p => wellRead_flush h
  | next plain interior rest hleads hpieces ih =>
    rw [hpieces]
    intro p hp
    rcases List.mem_append.1 hp with hp | hp
    · exact wellRead_flush hleads.tokenless hp
    · rcases List.mem_cons.1 hp with rfl | hp
      · exact ⟨hleads.opening, fun h => hleads.closing (h.trans (List.prefix_append _ _).isInfix)⟩
      · exact ih p hp

theorem isChain_flush (cs : List Char) :
    (flush cs).IsChain fun p q => p.interior?.isSome ∨ q.interior?.isSome := by
  cases cs <;> simp [flush]

theorem isChain_pieces (cs : List Char) :
    (pieces cs).IsChain fun p q => p.interior?.isSome ∨ q.interior?.isSome := by
  induction cs using pieces_induction with
  | plain cs h =>
    rw [pieces_of_tokenless h]
    exact isChain_flush _
  | next plain interior rest hleads hpieces ih =>
    rw [hpieces, List.isChain_append, List.isChain_cons]
    refine ⟨isChain_flush _, ⟨fun q _ => .inl rfl, ih⟩, fun p _ q hq => .inr ?_⟩
    obtain rfl : token interior = q := by simpa using hq
    rfl

end Piece

/-! ## Where segments stand -/

namespace Segment

theorem exists_of_mem_ofPieces {start : Nat} {ps : List Piece} {s : Segment}
    (h : s ∈ ofPieces start ps) :
    ∃ front p back, ps = front ++ p :: back ∧
      s = ofPiece (start + (utf8 (front.flatMap Piece.text)).length) p := by
  induction ps generalizing start with
  | nil => simp [ofPieces] at h
  | cons p ps ih =>
    rcases List.mem_cons.1 h with rfl | h
    · exact ⟨[], p, ps, rfl, rfl⟩
    · obtain ⟨front, q, back, rfl, rfl⟩ := ih h
      refine ⟨p :: front, q, back, rfl, ?_⟩
      rw [List.flatMap_cons, utf8_append, List.length_append, utf8ByteSize_ofList, Nat.add_assoc]

theorem start_le_of_mem {start : Nat} {ps : List Piece} {t : Token}
    (h : .placeholder t ∈ ofPieces start ps) : start ≤ t.start := by
  obtain ⟨front, p, -, -, hp⟩ := exists_of_mem_ofPieces h
  cases p with
  | literal cs => simp [ofPiece] at hp
  | token interior =>
    rw [ofPiece_token] at hp
    obtain rfl := placeholder.inj hp
    exact Nat.le_add_right _ _

theorem pairwise_ofPieces (start : Nat) (ps : List Piece) :
    ((ofPieces start ps).filterMap token?).Pairwise fun t u => t.stop ≤ u.start := by
  induction ps generalizing start with
  | nil => simp [ofPieces]
  | cons p ps ih =>
    cases p with
    | literal cs => exact ih _
    | token interior =>
      rw [tokens_token, List.pairwise_cons]
      refine ⟨fun u hu => ?_, ih _⟩
      obtain ⟨s, hs, hsu⟩ := List.mem_filterMap.1 hu
      cases s with
      | literal cs => simp [token?] at hsu
      | placeholder v =>
        obtain rfl : v = u := by simpa [token?] using hsu
        exact start_le_of_mem hs

theorem map_isSome_ofPieces (start : Nat) (ps : List Piece) :
    (ofPieces start ps).map (·.token?.isSome) = ps.map fun p => p.interior?.isSome := by
  induction ps generalizing start with
  | nil => rfl
  | cons p ps ih =>
    rw [ofPieces, List.map_cons, List.map_cons, ih]
    cases p <;> rfl

theorem isChain_ofPieces (start : Nat) {ps : List Piece}
    (h : ps.IsChain fun p q => p.interior?.isSome ∨ q.interior?.isSome) :
    (ofPieces start ps).IsChain fun a b => a.token?.isSome ∨ b.token?.isSome := by
  have hchain : (ps.map (·.interior?.isSome)).IsChain fun a b => a = true ∨ b = true :=
    (List.isChain_map fun p : Piece => p.interior?.isSome).2 h
  rw [← map_isSome_ofPieces start] at hchain
  exact (List.isChain_map fun s : Segment => s.token?.isSome).1 hchain

end Segment

variable {text : String}

theorem exists_of_mem_segments {s : Segment} (h : s ∈ segments text) :
    ∃ before p after, text.toList = before ++ (p.text ++ after) ∧ p ∈ pieces text.toList ∧
      s = .ofPiece (utf8 before).length p := by
  obtain ⟨front, p, back, hps, rfl⟩ := Segment.exists_of_mem_ofPieces h
  refine ⟨front.flatMap Piece.text, p, back.flatMap Piece.text, ?_, ?_, by simp⟩
  · have htext := text_pieces text.toList
    rw [hps] at htext
    simpa using htext.symm
  · simp [hps]

theorem exists_of_placeholder {t : Token} (h : .placeholder t ∈ segments text) :
    ∃ before interior after, text.toList = before ++ ((Piece.token interior).text ++ after) ∧
      .token interior ∈ pieces text.toList ∧ t = .of (utf8 before).length interior := by
  obtain ⟨before, p, after, htext, hp, hs⟩ := exists_of_mem_segments h
  cases p with
  | literal cs => simp [Segment.ofPiece] at hs
  | token interior =>
    rw [Segment.ofPiece_token] at hs
    exact ⟨before, interior, after, htext, hp, Segment.placeholder.inj hs⟩

theorem exists_of_literal {s : String} (h : .literal s ∈ segments text) :
    ∃ cs, s = String.ofList cs ∧ .literal cs ∈ pieces text.toList := by
  obtain ⟨before, p, after, -, hp, hs⟩ := exists_of_mem_segments h
  cases p with
  | literal cs => exact ⟨cs, Segment.literal.inj hs, hp⟩
  | token interior => simp [Segment.ofPiece] at hs

theorem placeholders_of_tokenless {cs : List Char} (h : Piece.Tokenless cs) :
    placeholders (String.ofList cs) = [] := by
  rw [placeholders, segments, String.toList_ofList, Piece.pieces_of_tokenless h]
  cases cs.reverse <;> rfl

theorem join_source_segments (text : String) :
    String.join ((segments text).map Segment.source) = text := by
  apply String.toList_inj.1
  rw [String.toList_join, List.flatMap_map]
  exact source_segments text

theorem slice?_of_placeholder {t : Token} (h : .placeholder t ∈ segments text) :
    t.start < t.stop ∧ t.stop ≤ (bytes text).length ∧ slice? text t.start t.stop = some t.raw := by
  obtain ⟨before, interior, after, htext, -, rfl⟩ := exists_of_placeholder h
  have hstop : (Token.of (utf8 before).length interior).stop =
      (utf8 (before ++ (Piece.token interior).text)).length := by
    rw [utf8_append, List.length_append]
    rfl
  have hlt : (utf8 before).length < (Token.of (utf8 before).length interior).stop := by
    rw [Token.stop_of]
    omega
  refine ⟨hlt, ?_, slice?_eq htext rfl hstop⟩
  rw [hstop, bytes_eq, htext, ← List.append_assoc, utf8_append (before ++ _), List.length_append]
  exact Nat.le_add_right _ _

theorem tiling_segments (text : String) : Tiling text (segments text) where
  joined := join_source_segments text
  cut _ := slice?_of_placeholder
  ordered := Segment.pairwise_ofPieces 0 _
  delimited t h := by
    obtain ⟨before, interior, after, -, hp, rfl⟩ := exists_of_placeholder h
    exact ⟨interior, String.toList_ofList, Piece.wellRead_pieces _ _ hp⟩
  nonempty h := by
    obtain ⟨cs, hcs, hp⟩ := exists_of_literal h
    obtain ⟨hne, -⟩ := Piece.wellRead_pieces _ _ hp
    exact hne (by simpa using (congrArg String.toList hcs).symm)
  apart := Segment.isChain_ofPieces 0 (Piece.isChain_pieces _)
  plain s h := by
    obtain ⟨cs, rfl, hp⟩ := exists_of_literal h
    exact placeholders_of_tokenless (Piece.wellRead_pieces _ _ hp).2

/-- What the scanner cuts out of a text tiles it. -/
theorem scan?_tiling (text : String) :
    ∃ ss, scan? text = some ss ∧ ss = segments text ∧ Tiling text ss :=
  ⟨_, scan?_eq text, rfl, tiling_segments text⟩

end Stencil
