import Stencil.Proofs.SettledText
import Stencil.Proofs.Tiling

/-!
Two texts put together.

A placeholder that has been read stays what it is, whatever comes behind the text
(`LeadsIn.read_eq`), so that a text can be cut behind its last placeholder (`exists_cut`). What
stands there may open a placeholder that only the other text closes, or lend that text a brace. Main
statement: the placeholders of the first text come first, and where its end does neither of the two,
both texts are read and filled in as if each stood alone (`append_reads_apart`).
-/

namespace Stencil

open Json (utf8 utf8_append)

namespace Piece

variable {plain interior cs : List Char} {c : Char}

/-! ## Where an opening is read -/

theorem EndsInPairs.of_cons (h : EndsInPairs (c :: cs)) (hc : c ≠ '{' ∨ cs.head? ≠ some '{') :
    EndsInPairs cs := by
  obtain ⟨front, n, heq, hfront⟩ := h
  cases front with
  | nil =>
    cases n with
    | zero => simp at heq
    | succ n =>
      rw [Nat.mul_succ, List.replicate_succ, List.replicate_succ] at heq
      obtain ⟨rfl, rfl⟩ := List.cons.inj heq
      simp at hc
  | cons d front =>
    obtain ⟨rfl, rfl⟩ := List.cons.inj heq
    refine ⟨front, n, rfl, ?_⟩
    cases front with
    | nil => simp
    | cons e front => simpa using hfront

theorem EndsInPairs.of_pair (h : EndsInPairs ('{' :: '{' :: cs)) : EndsInPairs cs := by
  obtain ⟨front, n, heq, hfront⟩ := h
  match front, heq with
  | [], heq =>
    cases n with
    | zero => simp at heq
    | succ n => exact ⟨[], n, by simpa [Nat.mul_succ, List.replicate_succ] using heq, by simp⟩
  | [d], heq =>
    obtain ⟨rfl, -⟩ := List.cons.inj heq
    simp at hfront
  | d :: e :: front, heq =>
    obtain ⟨-, -, rfl⟩ : '{' = d ∧ '{' = e ∧ cs = front ++ List.replicate (2 * n) '{' := by
      simpa using heq
    refine ⟨front, n, rfl, ?_⟩
    cases front with
    | nil => simp
    | cons c front => simpa using hfront

/-- In front of an opening a brace is not left over. -/
theorem EndsInPairs.before_opening (h : EndsInPairs (c :: cs))
    (hc : c ≠ '{' ∨ cs.head? ≠ some '{') (rest : List Char) :
    c ≠ '{' ∨ (cs ++ '{' :: '{' :: rest).head? ≠ some '{' := by
  cases cs with
  | cons d cs => exact hc
  | nil =>
    refine .inl ?_
    rintro rfl
    obtain ⟨front, n, heq, hfront⟩ := h
    have hlength := congrArg List.length heq
    rw [List.length_append, List.length_replicate, List.length_singleton] at hlength
    obtain rfl : n = 0 := by omega
    rw [List.replicate_zero, List.append_nil] at heq
    exact hfront (by simp [← heq])

/-- Behind characters that hold no placeholder an opening is read as one, if no brace in front of it
is left over. -/
theorem read_last_opening {state : Option (List Char)} {pending : List Char}
    (hnone : ∀ interior, token interior ∉ read pending state plain)
    (hpairs : EndsInPairs plain) (rest : List Char) :
    read pending state (plain ++ '{' :: '{' :: rest) =
      read (consumed pending state ++ plain).reverse (some []) rest := by
  induction state, plain using reading_induction generalizing pending with
  | done => simp [read, consumed]
  | opens cs ih =>
    have hcs := ih hnone hpairs.of_pair
    simpa [consumed, read] using hcs
  | outside c cs hc ih =>
    rw [read_outside hc] at hnone
    have hcs := ih hnone (hpairs.of_cons hc)
    rw [List.cons_append, read_outside (hpairs.before_opening hc rest), hcs]
    simp [consumed]
  | unclosed interior => simp [read, consumed]
  | closes interior cs ih =>
    -- what closes would be a placeholder, and there is none in front of the opening
    exact absurd (List.mem_append_right _ List.mem_cons_self) (hnone interior.reverse)
  | reopens interior cs ih =>
    have hcs := ih hnone hpairs.of_pair
    simpa [consumed, read] using hcs
  | inside interior c cs hopen hclose ih =>
    rw [read_inside hopen hclose] at hnone
    have hcs := ih hnone (hpairs.of_cons hopen)
    have hclose' : c ≠ '}' ∨ (cs ++ '{' :: '{' :: rest).head? ≠ some '}' := by
      refine hclose.imp_right fun hhead => ?_
      cases cs with
      | nil => simp
      | cons d cs => exact hhead
    rw [List.cons_append, read_inside (hpairs.before_opening hopen rest) hclose', hcs]
    simp [consumed]

/-- From plain characters that lead in to a placeholder, reading goes on to it, whatever comes
behind. -/
theorem LeadsIn.read_eq (h : LeadsIn plain interior) (pending rest : List Char) :
    read pending none (plain ++ ((token interior).text ++ rest)) =
      flush (plain.reverse ++ pending) ++ token interior :: read [] none rest := by
  have hnone : ∀ i, token i ∉ read pending none plain := by
    intro i
    rw [h.tokenless]
    exact token_not_mem_flush
  have hclear : Clear interior ('}' :: '}' :: rest) := by
    rintro d (rfl | rfl)
    · exact not_infix_concat h.opening fun _ => by decide
    · exact h.closing
  have hinside := (passes_of_clear hclear).inside (consumed pending none ++ plain).reverse []
  rw [text, List.cons_append, List.cons_append, List.append_assoc,
    read_last_opening hnone h.pairs]
  refine hinside.trans ?_
  rw [List.append_nil, read, List.reverse_reverse]
  simp [consumed]

theorem LeadsIn.pieces_eq (h : LeadsIn plain interior) (rest : List Char) :
    pieces (plain ++ ((token interior).text ++ rest)) =
      flush plain.reverse ++ token interior :: pieces rest := by
  rw [pieces, h.read_eq, List.append_nil]
  rfl

theorem LeadsIn.alone (h : LeadsIn plain interior) : LeadsIn [] interior :=
  ⟨read_of_no_opening (by simp), endsInPairs_of_getLast (by simp), h.opening, h.closing⟩

/-- What leads in to a placeholder is read for itself. -/
theorem LeadsIn.pieces_apart (h : LeadsIn plain interior) (rest : List Char) :
    pieces (plain ++ ((token interior).text ++ rest)) =
      flush plain.reverse ++ pieces ((token interior).text ++ rest) :=
  (h.pieces_eq rest).trans (congrArg (flush plain.reverse ++ ·) (h.alone.pieces_eq rest).symm)

/-! ## What stands behind the last placeholder -/

/-- A text is cut behind its last placeholder. What is read up to there does not depend on what
comes behind the text. -/
theorem exists_last (cs : List Char) :
    ∃ ps tail, cs = ps.flatMap text ++ tail ∧ (ps = [] ∨ ∃ qs interior, ps = qs ++ [token interior]) ∧
      Tokenless tail ∧ ∀ rest, pieces (cs ++ rest) = ps ++ pieces (tail ++ rest) := by
  -- along the placeholders: what stands behind the last one of the rest stands behind the last of all
  induction cs using pieces_induction with
  | plain cs h => exact ⟨[], cs, rfl, .inl rfl, h, fun rest => rfl⟩
  | next plain interior rest hleads hpieces ih =>
    obtain ⟨ps, tail, hsplit, hends, htail, hread⟩ := ih
    refine ⟨flush plain.reverse ++ token interior :: ps, tail, ?_, .inr ?_, htail, fun others => ?_⟩
    · conv_lhs => rw [hsplit]
      simp
    · obtain rfl | ⟨qs, i, rfl⟩ := hends
      · exact ⟨flush plain.reverse, interior, rfl⟩
      · exact ⟨flush plain.reverse ++ token interior :: qs, i, by simp⟩
    · rw [List.append_assoc, List.append_assoc, hleads.pieces_eq, hread]
      simp

/-! ## Placeholders and where they stand -/

/-- The placeholders among pieces, the first of which begins at byte `start`. -/
def tokens (start : Nat) (ps : List Piece) : List Token :=
  (Segment.ofPieces start ps).filterMap Segment.token?

theorem tokens_append (start : Nat) (ps qs : List Piece) :
    tokens start (ps ++ qs) =
      tokens start ps ++ tokens (start + (utf8 (ps.flatMap text)).length) qs := by
  rw [tokens, Segment.ofPieces_append, List.filterMap_append]
  rfl

/-- What is pending is no placeholder, but the next one stands behind it. -/
theorem tokens_read (start : Nat) (pending : List Char) (state : Option (List Char))
    (cs : List Char) :
    tokens start (read pending state cs) =
      tokens (start + (utf8 pending.reverse).length) (read [] state cs) := by
  obtain ⟨plain, ps, h⟩ := exists_plain state cs
  rw [h, h, tokens, tokens_flush, tokens, tokens_flush, List.append_nil, List.reverse_append,
    utf8_append, List.length_append, Nat.add_assoc]

theorem tokens_cons (start : Nat) (interior : List Char) (ps : List Piece) :
    tokens start (token interior :: ps) =
      .of start interior :: tokens (Token.of start interior).stop ps :=
  tokens_token start interior ps

theorem tokens_of_tokenless (h : Tokenless cs) (start : Nat) : tokens start (pieces cs) = [] := by
  rw [pieces_of_tokenless h, ← List.append_nil (flush _), tokens, tokens_flush]
  rfl

end Piece

/-- The token that stands so many bytes further on. -/
def Token.shift (n : Nat) (t : Token) : Token :=
  { t with start := n + t.start, stop := n + t.stop }

theorem Token.shift_of (n start : Nat) (interior : List Char) :
    (Token.of start interior).shift n = .of (n + start) interior := by
  simp [Token.shift, Token.of, Nat.add_assoc]

theorem Piece.tokens_shift (n start : Nat) (ps : List Piece) :
    tokens (n + start) ps = (tokens start ps).map (Token.shift n) := by
  induction ps generalizing start with
  | nil => rfl
  | cons p ps ih =>
    cases p with
    | literal cs =>
      have hrest := ih (start + (String.ofList (literal cs).text).utf8ByteSize)
      rw [← Nat.add_assoc] at hrest
      exact hrest
    | token interior =>
      rw [tokens_cons, tokens_cons, List.map_cons, ← ih, Token.shift_of, ← Token.shift_of]
      rfl

/-! ## Texts -/

/-- The bytes behind the last placeholder of a text. -/
def behindPlaceholders (text : String) : List UInt8 :=
  (bytes text).drop (((placeholders text).getLast?.map Token.stop).getD 0)

/-- Behind the last placeholder nothing opens another one, and no brace waits for a second one. -/
structure ClosedAtEnd (text : String) : Prop where
  plain : ¬ [openBrace, openBrace] <:+: behindPlaceholders text
  last : text.toList.getLast? ≠ some '{'

/-- A text in two parts: up to behind its last placeholder it is read for itself. -/
structure Cut (s : String) (ps : List Piece) (tail : List Char) : Prop where
  split : s.toList = ps.flatMap Piece.text ++ tail
  found : placeholders s = Piece.tokens 0 ps
  behind : behindPlaceholders s = utf8 tail
  tokenless : Piece.Tokenless tail
  reads : ∀ t : String, pieces (s ++ t).toList = ps ++ pieces (tail ++ t.toList)

theorem exists_cut (s : String) : ∃ ps tail, Cut s ps tail := by
  obtain ⟨ps, tail, hsplit, hends, htail, hread⟩ := Piece.exists_last s.toList
  have hself := hread []
  rw [List.append_nil, List.append_nil] at hself
  have hfound : placeholders s = Piece.tokens 0 ps := by
    change Piece.tokens 0 (pieces s.toList) = _
    rw [hself, Piece.tokens_append, Piece.tokens_of_tokenless htail, List.append_nil]
  have hstop : ((Piece.tokens 0 ps).getLast?.map Token.stop).getD 0 =
      (utf8 (ps.flatMap Piece.text)).length := by
    obtain rfl | ⟨qs, interior, rfl⟩ := hends
    · rfl
    · rw [Piece.tokens_append, Piece.tokens_cons]
      simp [Piece.tokens, Segment.ofPieces, Token.of]
  refine ⟨ps, tail, hsplit, hfound, ?_, htail, fun t => ?_⟩
  · rw [behindPlaceholders, hfound, hstop, bytes_eq, hsplit, utf8_append, List.drop_left]
  · rw [String.toList_append, hread]

namespace Cut

variable {s : String} {ps : List Piece} {tail : List Char}

theorem placeholders_eq (h : Cut s ps tail) (t : String) :
    placeholders (s ++ t) = placeholders s ++
      Piece.tokens (utf8 (ps.flatMap Piece.text)).length (pieces (tail ++ t.toList)) := by
  change Piece.tokens 0 (pieces (s ++ t).toList) = _
  rw [h.reads, Piece.tokens_append, h.found, Nat.zero_add]

theorem pieces_eq (h : Cut s ps tail) : pieces s.toList = ps ++ Piece.flush tail.reverse := by
  have hself := h.reads ""
  rwa [String.append_empty, String.toList_empty, List.append_nil,
    Piece.pieces_of_tokenless h.tokenless] at hself

theorem size_eq (h : Cut s ps tail) :
    s.utf8ByteSize = (utf8 (ps.flatMap Piece.text)).length + (utf8 tail).length := by
  rw [← String.ofList_toList (s := s), utf8ByteSize_ofList, h.split, utf8_append,
    List.length_append]

/-- No opening stands behind the last placeholder, also not with another brace behind it. -/
theorem not_opening (h : Cut s ps tail) (hclosed : ClosedAtEnd s) :
    ¬ ['{', '{'] <:+: tail ++ ['{'] := by
  refine Piece.not_infix_concat ?_ fun hlast _ => hclosed.last ?_
  · rintro ⟨before, rest, rfl⟩
    refine hclosed.plain ⟨utf8 before, utf8 rest, ?_⟩
    rw [h.behind, utf8_append, utf8_append]
    rfl
  · obtain ⟨front, rfl⟩ := List.getLast?_eq_some_iff.1 hlast
    rw [h.split, ← List.append_assoc, List.getLast?_concat]

theorem pieces_append (h : Cut s ps tail) (hclosed : ClosedAtEnd s) (t : String) :
    pieces (s ++ t).toList = ps ++ Piece.read tail.reverse none t.toList := by
  rw [h.reads, pieces, Piece.read_plain (h.not_opening hclosed), List.append_nil]

end Cut

variable {s : String}

theorem placeholders_prefix_append (s t : String) : placeholders s <+: placeholders (s ++ t) := by
  obtain ⟨ps, tail, hcut⟩ := exists_cut s
  rw [hcut.placeholders_eq]
  exact List.prefix_append _ _

theorem placeholders_append (h : ClosedAtEnd s) (t : String) :
    placeholders (s ++ t) =
      placeholders s ++ (placeholders t).map (Token.shift s.utf8ByteSize) := by
  obtain ⟨ps, tail, hcut⟩ := exists_cut s
  change Piece.tokens 0 (pieces (s ++ t).toList) = _
  rw [hcut.pieces_append h, Piece.tokens_append, hcut.found, Piece.tokens_read,
    List.reverse_reverse, Nat.zero_add, ← hcut.size_eq]
  exact congrArg _ (Piece.tokens_shift s.utf8ByteSize 0 _)

theorem filledText_append (h : ClosedAtEnd s) (t : String) (bindings : Bindings)
    (policy : Policy) :
    filledText bindings policy (s ++ t) =
      filledText bindings policy s ++ filledText bindings policy t := by
  obtain ⟨ps, tail, hcut⟩ := exists_cut s
  rw [filledText, hcut.pieces_append h, filledText, hcut.pieces_eq, filledText,
    ← String.ofList_append, List.flatMap_append, List.flatMap_append, Piece.flatMap_filled_pending,
    Piece.flatMap_filled_flush, List.append_assoc]
  rfl

theorem refused?_append (h : ClosedAtEnd s) (t : String) (bindings : Bindings)
    (policy : Policy) :
    refused? bindings policy (s ++ t) =
      (refused? bindings policy s).or (refused? bindings policy t) := by
  unfold refused?
  split
  · rw [firstUnbound?, placeholders_append h, List.map_append, List.find?_append, List.map_map]
    rfl
  · rfl

/-- The first text is filled in before the second one, and each for itself. -/
theorem substitute_append (h : ClosedAtEnd s) (t : String) (bindings : Bindings)
    (policy : Policy) :
    substitute (s ++ t) bindings policy = do
      let front ← substitute s bindings policy
      let back ← substitute t bindings policy
      return front ++ back := by
  rw [substitute_eq, refused?_append h, filledText_append h, substitute_eq s, substitute_eq t]
  cases refused? bindings policy s with
  | some name => rfl
  | none => cases refused? bindings policy t <;> rfl

/-- The placeholders of a text are the first ones when another text is put behind it. If it is
closed at its end, those of the other text follow, each shifted by its length, and both texts are
filled in as if they stood alone. -/
theorem append_reads_apart (s t : String) :
    placeholders s <+: placeholders (s ++ t) ∧
      (ClosedAtEnd s →
        placeholders (s ++ t) =
            placeholders s ++ (placeholders t).map (Token.shift s.utf8ByteSize) ∧
          ∀ bindings policy, substitute (s ++ t) bindings policy = do
            let front ← substitute s bindings policy
            let back ← substitute t bindings policy
            return front ++ back) :=
  ⟨placeholders_prefix_append s t, fun h =>
    ⟨placeholders_append h t, fun bindings policy => substitute_append h t bindings policy⟩⟩

/-- Behind `{{a}} é {x` the placeholder of `}}{{ b }}` is read, and its name is refused. -/
theorem append_reads_apart_beside :
    ClosedAtEnd "\x7b\x7ba\x7d\x7d é \x7bx" ∧
      placeholders ("\x7b\x7ba\x7d\x7d é \x7bx" ++ "\x7d\x7d\x7b\x7b b \x7d\x7d") =
        [⟨"a", 0, 5, "\x7b\x7ba\x7d\x7d"⟩, ⟨"b", 13, 20, "\x7b\x7b b \x7d\x7d"⟩] ∧
      substitute ("\x7b\x7ba\x7d\x7d é \x7bx" ++ "\x7d\x7d\x7b\x7b b \x7d\x7d")
        ⟨[("a", "1")], by decide⟩ .fail = .error "b" := by
  have hclosed : ClosedAtEnd "\x7b\x7ba\x7d\x7d é \x7bx" := ⟨by decide +kernel, by decide +kernel⟩
  obtain ⟨-, hapart⟩ :=
    append_reads_apart "\x7b\x7ba\x7d\x7d é \x7bx" "\x7d\x7d\x7b\x7b b \x7d\x7d"
  obtain ⟨hplaceholders, hsubstitute⟩ := hapart hclosed
  refine ⟨hclosed, hplaceholders.trans (by decide +kernel), (hsubstitute _ _).trans ?_⟩
  decide +kernel

end Stencil
