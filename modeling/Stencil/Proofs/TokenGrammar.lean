import Stencil.Proofs.QuotedText
import Stencil.Proofs.Reading

/-!
Where the placeholders of a text stand, said of its bytes.

`TokensFrom` finds them by positions alone: an opening is the leftmost `{{`, its closing the
leftmost `}}` behind it, and the placeholder begins at the last full pair of the last run of
braces in between. Main statement: these are the placeholders that reading finds, and no others
(`tokensFrom_iff`).
-/

namespace Stencil

open Json (utf8 utf8_nil utf8_cons utf8_append toUTF8_ofList toUTF8_eq_utf8 mem_utf8EncodeChar
  utf8EncodeChar_of_ascii)

/-- The bytes of a text in UTF-8. -/
def bytes (text : String) : List UInt8 := text.toUTF8.data.toList

def openBrace : UInt8 := 0x7b

def closeBrace : UInt8 := 0x7d

/-- At position `i` the byte `b` stands twice in a row. -/
def PairAt (bs : List UInt8) (b : UInt8) (i : Nat) : Prop :=
  bs[i]? = some b ∧ bs[i + 1]? = some b

/-- Of the positions from `p` on at which `b` stands twice in a row, `i` is the leftmost. -/
structure Leftmost (bs : List UInt8) (b : UInt8) (p i : Nat) : Prop where
  le : p ≤ i
  here : PairAt bs b i
  least : ∀ j, p ≤ j → PairAt bs b j → i ≤ j

/-- Among the bytes from `o` up to `c`, those `n` that begin at `r` are a run of opening braces that
cannot be made longer, and there are at least two of them. -/
structure BraceRun (bs : List UInt8) (o c r n : Nat) : Prop where
  two_le : 2 ≤ n
  lower : o ≤ r
  upper : r + n ≤ c
  braces : ∀ i, r ≤ i → i < r + n → bs[i]? = some openBrace
  left : r = o ∨ bs[r - 1]? ≠ some openBrace
  right : r + n = c ∨ bs[r + n]? ≠ some openBrace

/-- The token that the closing at `c` ends, when the search for it began with the opening at `o`. -/
structure TokenBetween (bs : List UInt8) (o c : Nat) (t : Token) : Prop where
  start : ∃ r n, BraceRun bs o c r n ∧ (∀ r' n', BraceRun bs o c r' n' → r' ≤ r) ∧
    t.start = r + 2 * (n / 2) - 2
  stop : t.stop = c + 2
  raw : bytes t.raw = bs.extract t.start t.stop
  name : ∃ interior, bytes interior = bs.extract (t.start + 2) c ∧ t.name = Text.trimmed interior

/-- The tokens from position `p` on. -/
inductive TokensFrom (bs : List UInt8) : Nat → List Token → Prop
  | none {p} : (∀ o c, Leftmost bs openBrace p o → ¬ Leftmost bs closeBrace (o + 2) c) →
      TokensFrom bs p []
  | next {p o c t ts} : Leftmost bs openBrace p o → Leftmost bs closeBrace (o + 2) c →
      TokenBetween bs o c t → TokensFrom bs (c + 2) ts → TokensFrom bs p (t :: ts)

/-! ## Positions determine the tokens -/

variable {bs : List UInt8} {b : UInt8} {o c p : Nat}

instance (bs : List UInt8) (b : UInt8) (i : Nat) : Decidable (PairAt bs b i) :=
  inferInstanceAs (Decidable (_ ∧ _))

theorem PairAt.lt {i : Nat} (h : PairAt bs b i) : i + 1 < bs.length :=
  (List.getElem?_eq_some_iff.1 h.2).1

theorem bytes_inj {s t : String} (h : bytes s = bytes t) : s = t := by
  refine String.toByteArray_inj.1 (ByteArray.ext (Array.toList_inj.1 ?_))
  exact h

theorem Leftmost.unique {i j : Nat} (h : Leftmost bs b p i) (h' : Leftmost bs b p j) : i = j :=
  Nat.le_antisymm (h.least j h'.le h'.here) (h'.least i h.le h.here)

/-- Two runs that begin at one place end at one place. -/
theorem BraceRun.length_le {r n n' : Nat} (h : BraceRun bs o c r n) (h' : BraceRun bs o c r n') :
    n' ≤ n := by
  by_contra hlt
  have hupper := h'.upper
  have hbrace := h'.braces (r + n) (by omega) (by omega)
  rcases h.right with hend | hend
  · omega
  · exact hend hbrace

theorem TokenBetween.unique {t t' : Token} (h : TokenBetween bs o c t)
    (h' : TokenBetween bs o c t') : t = t' := by
  obtain ⟨name, start, stop, raw⟩ := t
  obtain ⟨name', start', stop', raw'⟩ := t'
  obtain ⟨⟨r, n, hrun, hlast, hstart⟩, hstop, hraw, interior, hinterior, hname⟩ := h
  obtain ⟨⟨r', n', hrun', hlast', hstart'⟩, hstop', hraw', interior', hinterior', hname'⟩ := h'
  simp only at hstart hstop hraw hinterior hname hstart' hstop' hraw' hinterior' hname'
  obtain rfl : r = r' := Nat.le_antisymm (hlast' _ _ hrun) (hlast _ _ hrun')
  obtain rfl : n = n' := Nat.le_antisymm (hrun'.length_le hrun) (hrun.length_le hrun')
  obtain rfl : start = start' := hstart.trans hstart'.symm
  obtain rfl : stop = stop' := hstop.trans hstop'.symm
  obtain rfl : raw = raw' := bytes_inj (hraw.trans hraw'.symm)
  obtain rfl : interior = interior' := bytes_inj (hinterior.trans hinterior'.symm)
  rw [hname, hname']

theorem TokensFrom.unique {ts ts' : List Token} (h : TokensFrom bs p ts)
    (h' : TokensFrom bs p ts') : ts = ts' := by
  induction h generalizing ts' with
  | none hnone =>
    cases h' with
    | none => rfl
    | next hopen hclose => exact absurd hclose (hnone _ _ hopen)
  | next hopen hclose htoken _ ih =>
    cases h' with
    | none hnone => exact absurd hclose (hnone _ _ hopen)
    | next hopen' hclose' htoken' hrest' =>
      obtain rfl := hopen.unique hopen'
      obtain rfl := hclose.unique hclose'
      rw [htoken.unique htoken', ih hrest']

/-! ## Pairs of bytes and pairs of characters -/

theorem pairAt_append_right {front : List UInt8} {i : Nat} :
    PairAt (front ++ bs) b (front.length + i) ↔ PairAt bs b i := by
  rw [PairAt, PairAt, Nat.add_assoc, List.getElem?_append_right (Nat.le_add_right _ _),
    List.getElem?_append_right (Nat.le_add_right _ _), Nat.add_sub_cancel_left,
    Nat.add_sub_cancel_left]

theorem PairAt.of_append {i : Nat} {rest : List UInt8} (h : PairAt (bs ++ rest) b i)
    (hi : i + 1 < bs.length) : PairAt bs b i := by
  obtain ⟨h₁, h₂⟩ := h
  rw [List.getElem?_append_left (by omega)] at h₁
  rw [List.getElem?_append_left hi] at h₂
  exact ⟨h₁, h₂⟩

section Ascii

variable {d : Char} (hd : d.toNat < 0x80)

include hd

/-- An ASCII byte in a character is that character. -/
theorem eq_of_mem_utf8EncodeChar {e : Char} (h : UInt8.ofNat d.toNat ∈ String.utf8EncodeChar e) :
    e = d := by
  have hbyte : (UInt8.ofNat d.toNat).toNat = d.toNat := by
    rw [UInt8.toNat_ofNat']
    omega
  rcases mem_utf8EncodeChar h with ⟨-, heq⟩ | ⟨-, hle⟩
  · exact Char.toNat_inj.1 (heq.symm.trans hbyte)
  · omega

theorem head?_of_utf8 {cs : List Char} (h : (utf8 cs)[0]? = some (UInt8.ofNat d.toNat)) :
    cs.head? = some d := by
  cases cs with
  | nil => simp at h
  | cons e cs =>
    have hpos := String.length_utf8EncodeChar e ▸ e.utf8Size_pos
    rw [utf8_cons, List.getElem?_append_left hpos] at h
    rw [List.head?_cons, eq_of_mem_utf8EncodeChar hd (List.mem_of_getElem? h)]

theorem getLast?_of_utf8 {cs : List Char} (h : (utf8 cs).getLast? = some (UInt8.ofNat d.toNat)) :
    cs.getLast? = some d := by
  cases hcs : cs.getLast? with
  | none => simp [List.getLast?_eq_none_iff.1 hcs] at h
  | some e =>
    obtain ⟨front, rfl⟩ := List.getLast?_eq_some_iff.1 hcs
    have hbytes : utf8 [e] = String.utf8EncodeChar e := List.append_nil _
    have hne : String.utf8EncodeChar e ≠ [] := by
      intro hempty
      have hpos := e.utf8Size_pos
      rw [← String.length_utf8EncodeChar, hempty] at hpos
      exact absurd hpos (Nat.lt_irrefl 0)
    rw [utf8_append, hbytes, List.getLast?_append_of_ne_nil _ hne] at h
    rw [eq_of_mem_utf8EncodeChar hd (List.mem_of_getLast? h)]

/-- A pair of bytes that begins in a character begins with it. -/
theorem pair_of_pairAt {e : Char} {cs : List Char} {i : Nat}
    (h : PairAt (utf8 (e :: cs)) (UInt8.ofNat d.toNat) i)
    (hi : i < (String.utf8EncodeChar e).length) : e = d ∧ cs.head? = some d := by
  rw [utf8_cons] at h
  have hfirst := h.1
  rw [List.getElem?_append_left hi] at hfirst
  obtain rfl := eq_of_mem_utf8EncodeChar hd (List.mem_of_getElem? hfirst)
  rw [utf8EncodeChar_of_ascii hd] at h hi
  obtain rfl : i = 0 := by simpa using hi
  exact ⟨rfl, head?_of_utf8 hd h.2⟩

/-- Where no pair of characters stands, no pair of their bytes does. -/
theorem infix_of_pairAt {cs : List Char} {i : Nat}
    (h : PairAt (utf8 cs) (UInt8.ofNat d.toNat) i) : [d, d] <:+: cs := by
  induction cs generalizing i with
  | nil => simp [PairAt] at h
  | cons e cs ih =>
    by_cases hbehind : (String.utf8EncodeChar e).length ≤ i
    · obtain ⟨j, rfl⟩ := Nat.exists_eq_add_of_le hbehind
      rw [utf8_cons] at h
      exact (ih (pairAt_append_right.1 h)).trans (List.suffix_cons e cs).isInfix
    · obtain ⟨rfl, hhead⟩ := pair_of_pairAt hd h (by omega)
      obtain ⟨rest, rfl⟩ := List.head?_eq_some_iff.1 hhead
      exact ⟨[], rest, rfl⟩

theorem pairAt_utf8 (before rest : List Char) :
    PairAt (utf8 (before ++ d :: d :: rest)) (UInt8.ofNat d.toNat) (utf8 before).length := by
  have h : PairAt (utf8 (d :: d :: rest)) (UInt8.ofNat d.toNat) 0 := by
    rw [utf8_cons, utf8_cons, utf8EncodeChar_of_ascii hd]
    exact ⟨rfl, rfl⟩
  rw [utf8_append]
  exact pairAt_append_right.2 h

/-- The first pair of characters is the leftmost pair of bytes. -/
theorem leftmost_utf8 {before : List Char} (h : ¬ [d, d] <:+: before ++ [d])
    (front rest : List Char) :
    Leftmost (utf8 (front ++ (before ++ d :: d :: rest))) (UInt8.ofNat d.toNat)
      (utf8 front).length ((utf8 front).length + (utf8 before).length) := by
  have hhere := pairAt_utf8 hd before rest
  refine ⟨Nat.le_add_right _ _, ?_, fun j hj hpair => ?_⟩
  · rw [utf8_append]
    exact pairAt_append_right.2 hhere
  · obtain ⟨i, rfl⟩ := Nat.exists_eq_add_of_le hj
    rw [utf8_append, pairAt_append_right] at hpair
    by_contra hlt
    refine h (infix_of_pairAt hd (i := i) ?_)
    rw [utf8_append] at hpair ⊢
    have hsplit : utf8 (d :: d :: rest) = utf8 [d] ++ utf8 (d :: rest) := by
      rw [← utf8_append, List.singleton_append]
    have hlength : (utf8 [d]).length = 1 := by
      rw [utf8_cons, utf8EncodeChar_of_ascii hd]
      rfl
    rw [hsplit, ← List.append_assoc] at hpair
    exact hpair.of_append (by rw [List.length_append]; omega)

end Ascii

/-! ## Runs -/

/-- Without a pair behind it, a run of braces is the last one. -/
theorem BraceRun.le_of_plain {r n r' n' : Nat} (h : BraceRun bs o c r n)
    (hplain : ∀ i, r + n ≤ i → i + 1 < c → ¬ PairAt bs openBrace i) (h' : BraceRun bs o c r' n') :
    r' ≤ r := by
  by_contra hlt
  have hlower := h.lower
  have hupper := h'.upper
  have htwo := h'.two_le
  by_cases hinside : r' < r + n
  · rcases h'.left with heq | hne
    · omega
    · exact hne (h.braces (r' - 1) (by omega) (by omega))
  · refine hplain r' (by omega) (by omega) ⟨?_, ?_⟩
    · exact h'.braces r' (Nat.le_refl _) (by omega)
    · exact h'.braces (r' + 1) (Nat.le_succ _) (by omega)

/-- A run of braces with none beside it, and without a pair behind it, is the last one. -/
theorem lastRun_of_append {front outer inner rest : List UInt8} {n : Nat} (hn : 2 ≤ n)
    (houter : outer.getLast? ≠ some openBrace) (hinner : inner[0]? ≠ some openBrace)
    (hplain : ∀ i, ¬ PairAt inner openBrace i)
    (hbs : bs = front ++ (outer ++ (List.replicate n openBrace ++ inner) ++ rest))
    (ho : o = front.length) (hc : c = front.length + (outer.length + (n + inner.length))) :
    BraceRun bs o c (front.length + outer.length) n ∧
      ∀ r n', BraceRun bs o c r n' → r ≤ front.length + outer.length := by
  have hbyte : ∀ i < outer.length + (n + inner.length), bs[front.length + i]? =
      (outer ++ (List.replicate n openBrace ++ inner))[i]? := by
    intro i hi
    rw [hbs, List.getElem?_append_right (Nat.le_add_right _ _), Nat.add_sub_cancel_left,
      List.getElem?_append_left (by simpa using hi)]
  have hrun : ∀ i < n, bs[front.length + outer.length + i]? = some openBrace := by
    intro i hi
    rw [Nat.add_assoc, hbyte _ (by omega), List.getElem?_append_right (Nat.le_add_right _ _),
      Nat.add_sub_cancel_left, List.getElem?_append_left (by simpa using hi),
      List.getElem?_replicate, if_pos hi]
  have hbehind : ∀ i < inner.length, bs[front.length + outer.length + n + i]? = inner[i]? := by
    intro i hi
    rw [Nat.add_assoc, Nat.add_assoc, hbyte _ (by omega),
      List.getElem?_append_right (Nat.le_add_right _ _), Nat.add_sub_cancel_left,
      List.getElem?_append_right (by simp), List.length_replicate, Nat.add_sub_cancel_left]
  have hbraces : BraceRun bs o c (front.length + outer.length) n := by
    refine ⟨hn, by omega, by omega, fun i hr hi => ?_, ?_, ?_⟩
    · obtain ⟨j, rfl⟩ := Nat.exists_eq_add_of_le hr
      exact hrun j (by omega)
    · rcases List.eq_nil_or_concat outer with rfl | ⟨start, e, rfl⟩
      · exact .inl (by simp [ho])
      · right
        rw [List.concat_eq_append] at *
        have hlast : front.length + (start ++ [e]).length - 1 = front.length + start.length := by
          simp
        rw [hlast, hbyte _ (by simp; omega), List.getElem?_append_left (by simp)]
        simpa using houter
    · rcases Nat.eq_zero_or_pos inner.length with hempty | hpos
      · exact .inl (by omega)
      · exact .inr (hbehind 0 hpos ▸ hinner)
  refine ⟨hbraces, fun r n' h => hbraces.le_of_plain ?_ h⟩
  rintro i hi hic ⟨hfirst, hsecond⟩
  obtain ⟨j, rfl⟩ := Nat.exists_eq_add_of_le hi
  rw [hbehind j (by omega)] at hfirst
  rw [Nat.add_assoc, hbehind (j + 1) (by omega)] at hsecond
  exact hplain j ⟨hfirst, hsecond⟩

/-! ## The tokens that reading finds -/

theorem utf8ByteSize_ofList (cs : List Char) :
    (String.ofList cs).utf8ByteSize = (utf8 cs).length := by
  rw [← toUTF8_ofList, Array.length_toList]
  rfl

theorem utf8_braces (n : Nat) : utf8 (List.replicate n '{') = List.replicate n openBrace := by
  induction n with
  | zero => rfl
  | succ n ih =>
    rw [List.replicate_succ, utf8_cons, ih]
    rfl

theorem length_utf8_pair (cs : List Char) :
    (utf8 ('{' :: '{' :: cs)).length = 2 + (utf8 cs).length := by
  rw [utf8_cons, utf8_cons, List.length_append, List.length_append, ← Nat.add_assoc]
  rfl

theorem length_utf8_concat_pair {d : Char} (hd : d.toNat < 0x80) (cs : List Char) :
    (utf8 (cs ++ [d, d])).length = (utf8 cs).length + 2 := by
  rw [utf8_append, List.length_append, utf8_cons, utf8_cons, utf8EncodeChar_of_ascii hd]
  rfl

/-- What stands in the middle is cut out by its ends. -/
theorem extract_middle (front middle rest : List Char) :
    (utf8 (front ++ (middle ++ rest))).extract (utf8 front).length
      ((utf8 front).length + (utf8 middle).length) = utf8 middle := by
  rw [List.extract_eq_take_drop, Nat.add_sub_cancel_left, utf8_append, utf8_append, List.drop_left,
    List.take_left]

/-- The token that begins at byte `start` and has these characters between its delimiters. -/
def Token.of (start : Nat) (interior : List Char) : Token where
  name := String.ofList (Text.trim interior)
  start := start
  stop := start + (utf8 (Piece.token interior).text).length
  raw := String.ofList (Piece.token interior).text

theorem Token.stop_of (start : Nat) (interior : List Char) :
    (Token.of start interior).stop = start + 2 + (utf8 interior).length + 2 := by
  rw [Token.of, Piece.text, length_utf8_pair, utf8_append, List.length_append, Nat.add_assoc,
    Nat.add_assoc]
  rfl

theorem Segment.ofPieces_append (start : Nat) (ps qs : List Piece) :
    ofPieces start (ps ++ qs) =
      ofPieces start ps ++ ofPieces (start + (utf8 (ps.flatMap Piece.text)).length) qs := by
  induction ps generalizing start with
  | nil => rfl
  | cons p ps ih =>
    rw [List.cons_append, ofPieces, ofPieces, ih, List.flatMap_cons, utf8_append,
      List.length_append, utf8ByteSize_ofList, Nat.add_assoc, List.cons_append]

theorem Segment.ofPiece_token (start : Nat) (interior : List Char) :
    ofPiece start (.token interior) = .placeholder (.of start interior) := by
  rw [Token.of, ← utf8ByteSize_ofList]
  rfl

theorem Segment.ofPieces_token (start : Nat) (interior : List Char) (ps : List Piece) :
    ofPieces start (.token interior :: ps) =
      .placeholder (.of start interior) :: ofPieces (Token.of start interior).stop ps := by
  rw [ofPieces, ofPiece_token, utf8ByteSize_ofList]
  rfl

theorem tokens_flush (start : Nat) (cs : List Char) (ps : List Piece) :
    (Segment.ofPieces start (Piece.flush cs ++ ps)).filterMap Segment.token? =
      (Segment.ofPieces (start + (utf8 cs.reverse).length) ps).filterMap Segment.token? := by
  rw [Segment.ofPieces_append, Piece.flatMap_text_flush, List.filterMap_append]
  cases cs <;> rfl

theorem tokens_token (start : Nat) (interior : List Char) (ps : List Piece) :
    (Segment.ofPieces start (.token interior :: ps)).filterMap Segment.token? =
      .of start interior ::
        (Segment.ofPieces (Token.of start interior).stop ps).filterMap Segment.token? := by
  rw [Segment.ofPieces_token]
  rfl

/-- The last run of braces in front of the closing gives the place of the token read behind
`front`. -/
theorem lastRun_of_read {before front interior rest : List Char}
    (hfront : Piece.EndsInPairs front) (hplain : ¬ ['{', '{'] <:+: interior) :
    ∃ r n, BraceRun (utf8 (before ++ (front ++ ((Piece.token interior).text ++ rest))))
        (utf8 before).length
        ((utf8 before).length + (utf8 (front ++ '{' :: '{' :: interior)).length) r n ∧
      (∀ r' n', BraceRun (utf8 (before ++ (front ++ ((Piece.token interior).text ++ rest))))
        (utf8 before).length
        ((utf8 before).length + (utf8 (front ++ '{' :: '{' :: interior)).length) r' n' → r' ≤ r) ∧
      (utf8 (before ++ front)).length = r + 2 * (n / 2) - 2 := by
  obtain ⟨outer, n, inner, hsplit, hpairs, hn, houter, hinner, hpair⟩ :=
    Piece.exists_run hfront hplain
  have hrun := utf8_append outer _ ▸ congrArg utf8 hsplit
  rw [utf8_append (List.replicate n '{'), utf8_braces] at hrun
  have hlength : (utf8 (front ++ '{' :: '{' :: interior)).length =
      (utf8 outer).length + (n + (utf8 inner).length) := by
    rw [hrun]
    simp
  have hbytes : utf8 (before ++ (front ++ ((Piece.token interior).text ++ rest))) =
      utf8 before ++ (utf8 outer ++ (List.replicate n openBrace ++ utf8 inner) ++
        utf8 ('}' :: '}' :: rest)) := by
    rw [← hrun, ← utf8_append, ← utf8_append]
    simp [Piece.text]
  obtain ⟨hbrace, hlast⟩ := lastRun_of_append hn
    (fun h => houter (getLast?_of_utf8 (d := '{') (by decide) h))
    (fun h => hinner (head?_of_utf8 (d := '{') (by decide) h))
    (fun i h => hpair (infix_of_pairAt (d := '{') (by decide) h))
    hbytes rfl (by rw [← hlength])
  refine ⟨_, n, hbrace, hlast, ?_⟩
  have hpast := congrArg (fun cs => (utf8 cs).length) hpairs
  simp only [utf8_append, utf8_braces, List.length_append, length_utf8_pair, utf8_nil,
    List.length_nil, List.length_replicate] at hpast
  rw [utf8_append, List.length_append]
  omega

theorem extract_interior (before front interior rest : List Char) :
    (utf8 (before ++ (front ++ ((Piece.token interior).text ++ rest)))).extract
      ((utf8 (before ++ front)).length + 2)
      ((utf8 before).length + (utf8 (front ++ '{' :: '{' :: interior)).length) =
        utf8 interior := by
  have hopened : (utf8 (before ++ front)).length + 2 =
      (utf8 (before ++ (front ++ ['{', '{']))).length := by
    rw [← List.append_assoc, length_utf8_concat_pair (by decide)]
  have hclosed : (utf8 before).length + (utf8 (front ++ '{' :: '{' :: interior)).length =
      (utf8 (before ++ (front ++ ['{', '{']))).length + (utf8 interior).length := by
    rw [← List.length_append, ← List.length_append, ← utf8_append, ← utf8_append]
    simp
  have hsplit : before ++ (front ++ ((Piece.token interior).text ++ rest)) =
      before ++ (front ++ ['{', '{']) ++ (interior ++ '}' :: '}' :: rest) := by
    simp [Piece.text]
  rw [hopened, hclosed, hsplit, extract_middle]

/-- The token read behind `front` stands where the positions say. -/
theorem tokenBetween_of_read {before front interior rest : List Char}
    (hfront : Piece.EndsInPairs front) (hplain : ¬ ['{', '{'] <:+: interior) :
    TokenBetween (utf8 (before ++ (front ++ ((Piece.token interior).text ++ rest))))
      (utf8 before).length
      ((utf8 before).length + (utf8 (front ++ '{' :: '{' :: interior)).length)
      (.of (utf8 (before ++ front)).length interior) := by
  refine ⟨lastRun_of_read hfront hplain, ?_, ?_, String.ofList interior, ?_, ?_⟩
  · rw [Token.stop_of, utf8_append, utf8_append, List.length_append, List.length_append,
      length_utf8_pair]
    omega
  · rw [bytes, Token.of, toUTF8_ofList, ← List.append_assoc]
    exact (extract_middle _ _ _).symm
  · rw [bytes, toUTF8_ofList]
    exact (extract_interior before front interior rest).symm
  · rw [Text.trimmed, String.toList_ofList]
    rfl

theorem tokensFrom_of_no_opening {front cs : List Char} (h : ¬ ['{', '{'] <:+: cs) :
    TokensFrom (utf8 (front ++ cs)) (utf8 front).length [] := by
  refine .none fun o c hopen _ => ?_
  obtain ⟨i, rfl⟩ := Nat.exists_eq_add_of_le hopen.le
  have hpair := hopen.here
  rw [utf8_append, pairAt_append_right] at hpair
  exact h (infix_of_pairAt (d := '{') (by decide) hpair)

theorem tokensFrom_of_unclosed {front before rest : List Char}
    (hopening : ¬ ['{', '{'] <:+: before ++ ['{']) (h : ¬ ['}', '}'] <:+: rest) :
    TokensFrom (utf8 (front ++ (before ++ '{' :: '{' :: rest))) (utf8 front).length [] := by
  refine .none fun o c hopen hclose => ?_
  obtain rfl := hopen.unique (leftmost_utf8 (d := '{') (by decide) hopening front rest)
  obtain ⟨i, rfl⟩ := Nat.exists_eq_add_of_le hclose.le
  have hpair := hclose.here
  have hbytes : utf8 (front ++ (before ++ '{' :: '{' :: rest)) =
      utf8 (front ++ before ++ ['{', '{']) ++ utf8 rest := by
    rw [← utf8_append]
    simp
  have hlength : (utf8 front).length + (utf8 before).length + 2 =
      (utf8 (front ++ before ++ ['{', '{'])).length := by
    rw [length_utf8_concat_pair (by decide), utf8_append, List.length_append]
  rw [hbytes, hlength, pairAt_append_right] at hpair
  exact h (infix_of_pairAt (d := '}') (by decide) hpair)

theorem stop_of_split {inside plain interior : List Char}
    (hsplit : '{' :: '{' :: inside = plain ++ '{' :: '{' :: interior) (front : List Char) :
    (Token.of (utf8 (front ++ plain)).length interior).stop =
      (utf8 (front ++ '{' :: '{' :: inside ++ ['}', '}'])).length := by
  rw [Token.stop_of, hsplit, length_utf8_concat_pair (by decide), utf8_append, utf8_append,
    utf8_append, List.length_append, List.length_append, List.length_append, length_utf8_pair]
  omega

/-- The next opening and its closing end in the token that is read there. -/
theorem tokensFrom_next {front before inside rest plain interior : List Char} {ts : List Token}
    (hbefore : ¬ ['{', '{'] <:+: before ++ ['{']) (hinside : ¬ ['}', '}'] <:+: inside ++ ['}'])
    (hsplit : '{' :: '{' :: inside = plain ++ '{' :: '{' :: interior)
    (hpairs : Piece.EndsInPairs plain) (hinterior : ¬ ['{', '{'] <:+: interior)
    (hrest : TokensFrom (utf8 (front ++ (before ++ '{' :: '{' :: (inside ++ '}' :: '}' :: rest))))
      (Token.of (utf8 (front ++ before ++ plain)).length interior).stop ts) :
    TokensFrom (utf8 (front ++ (before ++ '{' :: '{' :: (inside ++ '}' :: '}' :: rest))))
      (utf8 front).length (.of (utf8 (front ++ before ++ plain)).length interior :: ts) := by
  have hopen : Leftmost _ openBrace _ _ :=
    leftmost_utf8 (d := '{') (by decide) hbefore front (inside ++ '}' :: '}' :: rest)
  have hclose : Leftmost _ closeBrace _ _ :=
    leftmost_utf8 (d := '}') (by decide) hinside (front ++ before ++ ['{', '{']) rest
  have htoken : TokenBetween
      (utf8 (front ++ before ++ (plain ++ ((Piece.token interior).text ++ rest)))) _ _ _ :=
    tokenBetween_of_read hpairs hinterior
  have hbytes : front ++ before ++ (plain ++ ((Piece.token interior).text ++ rest)) =
      front ++ (before ++ '{' :: '{' :: (inside ++ '}' :: '}' :: rest)) := by
    have h := congrArg (· ++ '}' :: '}' :: rest) hsplit
    simp only [List.cons_append, List.append_assoc] at h
    simp [Piece.text, h]
  have hopened : front ++ before ++ ['{', '{'] ++ (inside ++ '}' :: '}' :: rest) =
      front ++ (before ++ '{' :: '{' :: (inside ++ '}' :: '}' :: rest)) := by
    simp
  have hfrom : (utf8 (front ++ before ++ ['{', '{'])).length =
      (utf8 front).length + (utf8 before).length + 2 := by
    rw [length_utf8_concat_pair (by decide), utf8_append, List.length_append]
  have hat : (utf8 (front ++ before)).length + (utf8 (plain ++ '{' :: '{' :: interior)).length =
      (utf8 front).length + (utf8 before).length + 2 + (utf8 inside).length := by
    rw [← hsplit, length_utf8_pair, utf8_append, List.length_append]
    omega
  rw [hbytes, hat, utf8_append front before, List.length_append] at htoken
  rw [hopened, hfrom] at hclose
  exact .next hopen hclose htoken (htoken.stop ▸ hrest)

/-- Reading from outside a placeholder finds the tokens that the positions give. -/
theorem tokensFrom_read (front cs : List Char) :
    TokensFrom (utf8 (front ++ cs)) (utf8 front).length
      ((Segment.ofPieces (utf8 front).length (Piece.read [] none cs)).filterMap
        Segment.token?) := by
  induction hn : cs.length using Nat.strong_induction_on generalizing front cs with
  | _ n ih =>
    subst hn
    by_cases hopens : ['{', '{'] <:+: cs
    · obtain ⟨before, rest, rfl, hbefore⟩ := Piece.exists_first hopens
      rw [Piece.read_opening hbefore]
      by_cases hcloses : ['}', '}'] <:+: rest
      · obtain ⟨inside, rest, rfl, hinside⟩ := Piece.exists_first hcloses
        have hopened : Piece.Opened [] [] inside :=
          ⟨Piece.endsInPairs_of_getLast (by simp), by simp, by simp⟩
        obtain ⟨plain, interior, hsplit, hpairs, hinterior, hread⟩ :=
          Piece.exists_token hopened hinside
        have hread := hread before.reverse rest
        simp only [List.reverse_nil, List.nil_append] at hread hsplit
        have hstart : (utf8 front).length + (utf8 (plain.reverse ++ before.reverse).reverse).length
            = (utf8 (front ++ before ++ plain)).length := by simp
        rw [List.append_nil, hread, tokens_flush, tokens_token, hstart]
        refine tokensFrom_next hbefore hinside hsplit hpairs hinterior ?_
        have hrest := ih rest.length (by simp; omega)
          (front ++ before ++ '{' :: '{' :: inside ++ ['}', '}']) rest rfl
        rw [stop_of_split hsplit]
        simpa using hrest
      · rw [Piece.read_unclosed hcloses, ← List.append_nil (Piece.flush _), tokens_flush]
        exact tokensFrom_of_unclosed hbefore hcloses
    · rw [Piece.read_of_no_opening hopens, ← List.append_nil (Piece.flush _), tokens_flush]
      exact tokensFrom_of_no_opening hopens

/-- The placeholders of a text are the tokens that stand in its bytes, in their order, and so are
the placeholders among its segments. -/
theorem tokensFrom_iff (text : String) (ts : List Token) :
    TokensFrom (bytes text) 0 ts ↔
      ts = (segments text).filterMap Segment.token? ∧ ts = placeholders text := by
  have h : TokensFrom (bytes text) 0 (placeholders text) := by
    rw [bytes, toUTF8_eq_utf8]
    exact tokensFrom_read [] text.toList
  constructor
  · intro hts
    exact ⟨hts.unique h, hts.unique h⟩
  · rintro ⟨-, rfl⟩
    exact h

-- Of four braces the last two open: `{{a {{{{b }} c}}` has one placeholder.
example : placeholders "\x7b\x7ba \x7b\x7b\x7b\x7bb \x7d\x7d c\x7d\x7d" =
    [⟨"b", 6, 12, "\x7b\x7bb \x7d\x7d"⟩] := by decide +kernel

end Stencil
