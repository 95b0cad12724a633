import Stencil.Proofs.TokenGrammar

/-!
Reading a text by the positions of its bytes.

`scan?` goes over the bytes of a text. It keeps two positions behind: where the plain text since
the last placeholder begins, and where the last `{{` stands. Segments are cut out of the text
between such positions, and a cut that is out of range or goes through a character gives nothing.
Main statement: this never happens, and `scan?` finds the segments of the text (`scan?_eq`).
-/

namespace Stencil

open Json (utf8 utf8_nil utf8_cons utf8_append toUTF8_eq_utf8 fromUTF8?_utf8)

/-- No character is cut at position `i`: it is an end of the text, or the byte there begins a
character. -/
def isBoundary (bs : List UInt8) (i : Nat) : Bool :=
  i == 0 || match bs[i]? with
    | some b => b < 0x80 || 0xc0 ≤ b
    | none => i == bs.length

/-- The text between two positions. -/
def slice? (text : String) (start stop : Nat) : Option String :=
  if start ≤ stop ∧ isBoundary (bytes text) start ∧ isBoundary (bytes text) stop then
    String.fromUTF8? ⟨⟨(bytes text).extract start stop⟩⟩
  else none

namespace Scanner

inductive State
  | outside
  /-- The last opening stands at this position. -/
  | inside (opening : Nat)

/-- The opening that is closed at position `i`. -/
def State.closedAt? (bs : List UInt8) (i : Nat) : State → Option Nat
  | outside => none
  | inside opening => if PairAt bs closeBrace i then some opening else none

/-- The plain text between two positions, if there is any. -/
def literal? (text : String) (start stop : Nat) : Option (List Segment) :=
  if start < stop then (slice? text start stop).map fun s => [.literal s] else some []

/-- The placeholder between an opening and a closing. -/
def token? (text : String) (opening closing : Nat) : Option Token := do
  let interior ← slice? text (opening + 2) closing
  let raw ← slice? text opening (closing + 2)
  return ⟨Text.trimmed interior, opening, closing + 2, raw⟩

/-- The segments from `literalStart` on, when the bytes up to `i` have been looked at. -/
def scanFrom (text : String) (state : State) (literalStart i : Nat) : Option (List Segment) :=
  if _h : i + 1 < (bytes text).length then
    match state.closedAt? (bytes text) i with
    | some opening => do
      let front ← literal? text literalStart opening
      let token ← token? text opening i
      let rest ← scanFrom text .outside (i + 2) (i + 2)
      return front ++ .placeholder token :: rest
    | none =>
      if PairAt (bytes text) openBrace i then scanFrom text (.inside i) literalStart (i + 2)
      else scanFrom text state literalStart (i + 1)
  else literal? text literalStart (bytes text).length
termination_by (bytes text).length - i

end Scanner

/-- The segments of a text, cut out by their positions. -/
def scan? (text : String) : Option (List Segment) := Scanner.scanFrom text .outside 0 0

/-! ## Cuts -/

section Cuts

variable {text : String} {before middle rest : List Char} {start stop : Nat}

theorem bytes_eq (text : String) : bytes text = utf8 text.toList := toUTF8_eq_utf8 text

/-- A character does not begin with a byte that can only come later in one. -/
theorem exists_first_byte (c : Char) :
    ∃ b bs, String.utf8EncodeChar c = b :: bs ∧ (b < 0x80 ∨ 0xc0 ≤ b) := by
  have hlow : ∀ n : Nat, n < 0x80 → UInt8.ofNat n < 0x80 := by
    intro n hn
    rw [UInt8.lt_iff_toNat_lt, UInt8.toNat_ofNat']
    change n % 256 < 128
    omega
  have hhigh : ∀ n : Nat, 0xc0 ≤ n → n < 0x100 → 0xc0 ≤ UInt8.ofNat n := by
    intro n hn hlt
    rw [UInt8.le_iff_toNat_le, UInt8.toNat_ofNat']
    change 192 ≤ n % 256
    omega
  rw [String.utf8EncodeChar]
  split
  · exact ⟨_, _, rfl, .inl (hlow _ (by omega))⟩
  · split
    · exact ⟨_, _, rfl, .inr (hhigh _ (by omega) (by omega))⟩
    · split
      · exact ⟨_, _, rfl, .inr (hhigh _ (by omega) (by omega))⟩
      · exact ⟨_, _, rfl, .inr (hhigh _ (by omega) (by omega))⟩

theorem isBoundary_utf8 (before rest : List Char) :
    isBoundary (utf8 (before ++ rest)) (utf8 before).length := by
  rw [utf8_append, isBoundary, List.getElem?_append_right (Nat.le_refl _), Nat.sub_self]
  cases rest with
  | nil => simp
  | cons c rest =>
    obtain ⟨b, bs, hc, hb⟩ := exists_first_byte c
    rw [utf8_cons, hc]
    simpa using .inr hb

theorem slice?_eq (htext : text.toList = before ++ (middle ++ rest))
    (hstart : start = (utf8 before).length) (hstop : stop = (utf8 (before ++ middle)).length) :
    slice? text start stop = some (String.ofList middle) := by
  have hle : (utf8 before).length ≤ (utf8 (before ++ middle)).length := by simp
  have hfirst := isBoundary_utf8 before (middle ++ rest)
  have hlast := isBoundary_utf8 (before ++ middle) rest
  rw [List.append_assoc] at hlast
  rw [slice?, bytes_eq, htext, hstart, hstop, if_pos ⟨hle, hfirst, hlast⟩, utf8_append _ middle,
    List.length_append, extract_middle, fromUTF8?_utf8]

end Cuts

namespace Scanner

variable {text : String} {state : State} {before cs : List Char} {c : Char} {literalStart i : Nat}

theorem literal?_eq {plain rest : List Char} (htext : text.toList = before ++ (plain ++ rest)) :
    literal? text (utf8 before).length (utf8 (before ++ plain)).length =
      some (Segment.ofPieces (utf8 before).length (Piece.flush plain.reverse)) := by
  rw [literal?, slice?_eq htext rfl rfl]
  cases plain with
  | nil => simp [Piece.flush, Segment.ofPieces]
  | cons c plain =>
    have hpos : 0 < (utf8 (c :: plain)).length := by
      obtain ⟨b, bs, hc, -⟩ := exists_first_byte c
      simp [utf8_cons, hc]
    have hflush : Piece.flush (c :: plain).reverse = [.literal (c :: plain)] := by
      simp [Piece.flush]
    rw [utf8_append, List.length_append, if_pos (by omega), hflush]
    rfl

theorem append_text_token (before interior : List Char) :
    before ++ (Piece.token interior).text = before ++ '{' :: '{' :: interior ++ ['}', '}'] := by
  simp [Piece.text]

theorem closing_add_two (before interior : List Char) :
    (utf8 (before ++ '{' :: '{' :: interior)).length + 2 =
      (utf8 (before ++ (Piece.token interior).text)).length := by
  rw [append_text_token, length_utf8_concat_pair (by decide)]

theorem token?_eq {interior rest : List Char}
    (htext : text.toList = before ++ ((Piece.token interior).text ++ rest)) :
    token? text (utf8 before).length (utf8 (before ++ '{' :: '{' :: interior)).length =
      some (.of (utf8 before).length interior) := by
  have hinterior : slice? text ((utf8 before).length + 2)
      (utf8 (before ++ '{' :: '{' :: interior)).length = some (String.ofList interior) := by
    have hsplit : text.toList = before ++ ['{', '{'] ++ (interior ++ '}' :: '}' :: rest) := by
      simp [htext, Piece.text]
    exact slice?_eq hsplit (length_utf8_concat_pair (by decide) before).symm (by simp)
  have hraw : slice? text (utf8 before).length
      ((utf8 (before ++ '{' :: '{' :: interior)).length + 2) =
        some (String.ofList (Piece.token interior).text) :=
    slice?_eq htext rfl (closing_add_two before interior)
  have hstop : (utf8 (before ++ '{' :: '{' :: interior)).length + 2 =
      (Token.of (utf8 before).length interior).stop := by
    rw [Token.stop_of, utf8_append, List.length_append, length_utf8_pair]
    omega
  have hname : Text.trimmed (String.ofList interior) = String.ofList (Text.trim interior) := by
    rw [Text.trimmed, String.toList_ofList]
  rw [token?, hinterior, hraw, hstop]
  change some (Token.mk (Text.trimmed (String.ofList interior)) _ _ _) = _
  rw [hname]
  rfl

/-! ## Steps -/

theorem scanFrom_end (h : ¬ i + 1 < (bytes text).length) :
    scanFrom text state literalStart i = literal? text literalStart (bytes text).length := by
  rw [scanFrom, dif_neg h]

theorem scanFrom_skip (hclose : state.closedAt? (bytes text) i = none)
    (hopen : ¬ PairAt (bytes text) openBrace i) :
    scanFrom text state literalStart i = scanFrom text state literalStart (i + 1) := by
  by_cases h : i + 1 < (bytes text).length
  · rw [scanFrom, dif_pos h, hclose]
    simp [hopen]
  · rw [scanFrom_end h, scanFrom_end (by omega)]

theorem scanFrom_open (hclose : state.closedAt? (bytes text) i = none)
    (hopen : PairAt (bytes text) openBrace i) :
    scanFrom text state literalStart i = scanFrom text (.inside i) literalStart (i + 2) := by
  rw [scanFrom, dif_pos hopen.lt, hclose]
  simp [hopen]

theorem scanFrom_close {opening : Nat} (h : PairAt (bytes text) closeBrace i) :
    scanFrom text (.inside opening) literalStart i = do
      let front ← literal? text literalStart opening
      let token ← token? text opening i
      let rest ← scanFrom text .outside (i + 2) (i + 2)
      return front ++ .placeholder token :: rest := by
  rw [scanFrom, dif_pos h.lt, State.closedAt?, if_pos h]

/-- No delimiter begins at a byte of a character that does not begin one. -/
theorem scanFrom_char (htext : text.toList = before ++ c :: cs)
    (hopen : c ≠ '{' ∨ cs.head? ≠ some '{')
    (hclose : state = .outside ∨ c ≠ '}' ∨ cs.head? ≠ some '}') :
    scanFrom text state literalStart (utf8 before).length =
      scanFrom text state literalStart (utf8 (before ++ [c])).length := by
  have hnone : ∀ {d : Char} {j : Nat}, d.toNat < 0x80 → (c ≠ d ∨ cs.head? ≠ some d) →
      j < (String.utf8EncodeChar c).length →
      ¬ PairAt (bytes text) (UInt8.ofNat d.toNat) ((utf8 before).length + j) := by
    intro d j hd hpair hj h
    rw [bytes_eq, htext, utf8_append, pairAt_append_right] at h
    obtain ⟨hc, hhead⟩ := pair_of_pairAt hd h hj
    exact hpair.elim (· hc) (· hhead)
  have hstep : ∀ j ≤ (String.utf8EncodeChar c).length,
      scanFrom text state literalStart (utf8 before).length =
        scanFrom text state literalStart ((utf8 before).length + j) := by
    intro j hj
    induction j with
    | zero => rfl
    | succ j ih =>
      have hout : state.closedAt? (bytes text) ((utf8 before).length + j) = none := by
        cases state with
        | outside => rfl
        | inside opening =>
          rw [State.closedAt?, if_neg]
          exact hnone (d := '}') (by decide) (by simpa using hclose) (by omega)
      rw [ih (by omega), scanFrom_skip hout (hnone (d := '{') (by decide) hopen (by omega)),
        Nat.add_assoc]
  rw [hstep _ (Nat.le_refl _), utf8_append, List.length_append, utf8_cons, utf8_nil,
    List.append_nil]

theorem scanFrom_opening (htext : text.toList = before ++ '{' :: '{' :: cs) :
    scanFrom text state literalStart (utf8 before).length =
      scanFrom text (.inside (utf8 before).length) literalStart
        (utf8 (before ++ ['{', '{'])).length := by
  have hopen : PairAt (bytes text) openBrace (utf8 before).length := by
    rw [bytes_eq, htext]
    exact pairAt_utf8 (d := '{') (by decide) before cs
  have hclose : state.closedAt? (bytes text) (utf8 before).length = none := by
    cases state with
    | outside => rfl
    | inside opening =>
      rw [State.closedAt?, if_neg]
      intro hclose
      exact absurd (hopen.1.symm.trans hclose.1) (by decide)
  rw [scanFrom_open hclose hopen, length_utf8_concat_pair (by decide)]

theorem scanFrom_closing {front plain interior rest : List Char}
    (htext : text.toList = front ++ plain ++ ((Piece.token interior).text ++ rest)) :
    scanFrom text (.inside (utf8 (front ++ plain)).length) (utf8 front).length
        (utf8 (front ++ plain ++ '{' :: '{' :: interior)).length =
      (scanFrom text .outside (utf8 (front ++ plain ++ (Piece.token interior).text)).length
        (utf8 (front ++ plain ++ (Piece.token interior).text)).length).map
          (Segment.ofPieces (utf8 front).length
            (Piece.flush plain.reverse ++ [.token interior]) ++ ·) := by
  have hclose : PairAt (bytes text) closeBrace
      (utf8 (front ++ plain ++ '{' :: '{' :: interior)).length := by
    have hbytes : text.toList = front ++ plain ++ '{' :: '{' :: interior ++ '}' :: '}' :: rest := by
      rw [htext, ← List.append_assoc, append_text_token]
      simp
    rw [bytes_eq, hbytes]
    exact pairAt_utf8 (d := '}') (by decide) _ rest
  have hfront : literal? text (utf8 front).length (utf8 (front ++ plain)).length =
      some (Segment.ofPieces (utf8 front).length (Piece.flush plain.reverse)) := by
    rw [List.append_assoc] at htext
    exact literal?_eq htext
  have hstart : (utf8 front).length +
      (utf8 ((Piece.flush plain.reverse).flatMap Piece.text)).length =
        (utf8 (front ++ plain)).length := by
    simp
  rw [scanFrom_close hclose, closing_add_two, hfront, token?_eq htext, Segment.ofPieces_append, hstart,
    Segment.ofPieces_token]
  cases scanFrom text .outside _ _ with
  | none => rfl
  | some rest => simp [Segment.ofPieces]

theorem scanFrom_done {front plain : List Char} (htext : text.toList = front ++ plain) :
    scanFrom text state (utf8 front).length (utf8 (front ++ plain)).length =
      some (Segment.ofPieces (utf8 front).length (Piece.flush plain.reverse)) := by
  have hlength : (bytes text).length = (utf8 (front ++ plain)).length := by
    rw [bytes_eq, htext]
  rw [← List.append_nil plain] at htext
  rw [scanFrom_end (by omega), hlength]
  exact literal?_eq htext

/-- The state of the scanner behind `front`, which goes with a state of reading. -/
def stateOf (front pending : List Char) : Option (List Char) → State
  | none => .outside
  | some _ => .inside (utf8 (front ++ pending.reverse)).length

/-- The scanner goes through a text as reading does. The plain text behind the last placeholder
begins behind `front`. -/
theorem scanFrom_read (reading : Option (List Char)) (cs front pending : List Char)
    (htext : text.toList = front ++ (Piece.consumed pending reading ++ cs)) :
    scanFrom text (stateOf front pending reading) (utf8 front).length
        (utf8 (front ++ Piece.consumed pending reading)).length =
      some (Segment.ofPieces (utf8 front).length (Piece.read pending reading cs)) := by
  induction reading, cs using Piece.reading_induction generalizing front pending with
  | done =>
    rw [List.append_nil] at htext
    rw [scanFrom_done htext]
    simp [Piece.consumed, Piece.read]
  | opens cs ih =>
    rw [← List.append_assoc] at htext
    rw [stateOf, scanFrom_opening htext]
    have hrest := ih front pending (by simpa [Piece.consumed] using htext)
    simpa [Piece.consumed, stateOf, Piece.read] using hrest
  | outside c cs hc ih =>
    rw [← List.append_assoc] at htext
    rw [stateOf, scanFrom_char htext hc (.inl rfl)]
    have hrest := ih front (c :: pending) (by simpa [Piece.consumed] using htext)
    simpa [Piece.consumed, stateOf, Piece.read_outside hc] using hrest
  | unclosed interior =>
    rw [List.append_nil] at htext
    rw [scanFrom_done htext]
    simp [Piece.consumed, Piece.read]
  | closes interior cs ih =>
    have hsplit : text.toList = front ++ pending.reverse ++
        ((Piece.token interior.reverse).text ++ cs) := by
      simpa [Piece.consumed, Piece.text] using htext
    have hrest := ih (front ++ pending.reverse ++ (Piece.token interior.reverse).text) []
      (by rw [hsplit]; simp [Piece.consumed])
    simp only [stateOf, Piece.consumed, List.reverse_nil, List.append_nil] at hrest
    have hclosed := scanFrom_closing hsplit
    rw [hrest, List.reverse_reverse] at hclosed
    rw [stateOf, Piece.consumed, ← List.append_assoc, hclosed, Piece.read,
      List.append_cons _ _ (Piece.read [] none cs),
      Segment.ofPieces_append _ _ (Piece.read [] none cs)]
    simp [Piece.text]
  | reopens interior cs ih =>
    rw [← List.append_assoc] at htext
    rw [scanFrom_opening htext]
    have hrest := ih front (interior ++ '{' :: '{' :: pending)
      (by simpa [Piece.consumed] using htext)
    simpa [Piece.consumed, stateOf, Piece.read] using hrest
  | inside interior c cs hopen hclose ih =>
    rw [← List.append_assoc] at htext
    rw [scanFrom_char htext hopen (.inr hclose)]
    have hrest := ih front pending (by simpa [Piece.consumed] using htext)
    simpa [Piece.consumed, stateOf, Piece.read_inside hopen hclose] using hrest

end Scanner

/-- The scanner never cuts out of range or through a character, and what it cuts out are the
segments of the text. -/
theorem scan?_eq (text : String) : scan? text = some (segments text) :=
  Scanner.scanFrom_read none text.toList [] [] rfl

end Stencil
