import Stencil.Proofs.Seams

/-!
The placeholders of a text that has been filled in.

What has been filled in is read again piece by piece. Where no value and no plain text in front of
a placeholder can open one, no placeholder arises across a seam (`interiors_filled`). Main
statement: those that were kept are the ones without a value, and filling in a second time changes
nothing (`substitute_survivors`).
-/

namespace Stencil

/-- No value holds an opening brace. -/
def Bindings.BraceFree (bindings : Bindings) : Prop :=
  ∀ name value, bindings.get? name = some value → '{' ∉ value.toList

namespace Piece

variable {bindings : Bindings} {policy : Policy} {cs plain interior rest : List Char}

/-! ## The interiors of placeholders -/

/-- The characters between the delimiters of each placeholder, in order. -/
def interiors (cs : List Char) : List (List Char) := (pieces cs).filterMap interior?

theorem mem_interiors : interior ∈ interiors cs ↔ token interior ∈ pieces cs := by
  rw [interiors, List.mem_filterMap]
  constructor
  · rintro ⟨p, hp, h⟩
    cases p with
    | literal cs => simp [interior?] at h
    | token i =>
      obtain rfl : i = interior := by simpa [interior?] using h
      exact hp
  · intro h
    exact ⟨_, h, rfl⟩

theorem filterMap_flush (cs : List Char) : (flush cs).filterMap interior? = [] := by
  cases cs <;> rfl

/-- What is pending belongs to no placeholder. -/
theorem filterMap_read (pending : List Char) (state : Option (List Char)) (cs : List Char) :
    (read pending state cs).filterMap interior? = (read [] state cs).filterMap interior? := by
  obtain ⟨plain, ps, h⟩ := exists_plain state cs
  simp [h, filterMap_flush]

theorem interiors_of_tokenless (h : Tokenless cs) : interiors cs = [] := by
  rw [interiors, pieces_of_tokenless h, filterMap_flush]

theorem interiors_plain (h : ¬ ['{', '{'] <:+: plain ++ ['{']) :
    interiors (plain ++ rest) = interiors rest := by
  rw [interiors, pieces, read_plain h, filterMap_read, interiors, pieces]

/-- The text of a placeholder is read as this placeholder, whatever comes behind. -/
theorem pieces_token (hopening : ¬ ['{', '{'] <:+: interior)
    (hclosing : ¬ ['}', '}'] <:+: interior ++ ['}']) :
    pieces ((token interior).text ++ rest) = token interior :: pieces rest := by
  have hleads : LeadsIn [] interior :=
    ⟨read_of_no_opening (by simp), endsInPairs_of_getLast (by simp), hopening, hclosing⟩
  exact hleads.pieces_eq rest

theorem interiors_token (hopening : ¬ ['{', '{'] <:+: interior)
    (hclosing : ¬ ['}', '}'] <:+: interior ++ ['}']) :
    interiors ((token interior).text ++ rest) = interior :: interiors rest := by
  rw [interiors, pieces_token hopening hclosing]
  rfl

/-! ## Filling in -/

/-- No opening stands in the plain text in front of a placeholder. -/
def Quiet (cs : List Char) : Prop :=
  ∀ plain interior, [literal plain, token interior] <:+: pieces cs → ¬ ['{', '{'] <:+: plain

/-- A placeholder with this interior stays as it is. -/
def survives (bindings : Bindings) (policy : Policy) (interior : List Char) : Bool :=
  (bindings.get? (String.ofList (Text.trim interior))).isNone && policy ≠ .remove

theorem Quiet.next (h : Quiet (plain ++ ((token interior).text ++ rest)))
    (hpieces : pieces (plain ++ ((token interior).text ++ rest)) =
      flush plain.reverse ++ token interior :: pieces rest) :
    ¬ ['{', '{'] <:+: plain ∧ Quiet rest := by
  rw [Quiet, hpieces] at h
  constructor
  · cases plain with
    | nil => simp
    | cons c plain => exact h _ interior ⟨[], pieces rest, by simp [flush]⟩
  · intro p i hin
    exact h p i (hin.trans ((List.suffix_cons _ _).isInfix.trans (List.suffix_append _ _).isInfix))

/-- The placeholders of what has been filled in are those that stay as they are. -/
theorem interiors_filled (hvalues : bindings.BraceFree) (policy : Policy) (hquiet : Quiet cs) :
    interiors ((pieces cs).flatMap (filled bindings policy)) =
      (interiors cs).filter (survives bindings policy) := by
  induction cs using pieces_induction with
  | plain cs h =>
    rw [pieces_of_tokenless h, flatMap_filled_flush, List.reverse_reverse,
      interiors_of_tokenless h]
    rfl
  | next plain interior rest hleads hpieces ih =>
    obtain ⟨hplain, hrest⟩ := hquiet.next hpieces
    have hfirst : interiors (plain ++ ((token interior).text ++ rest)) =
        interior :: interiors rest := by
      rw [interiors, hpieces, List.filterMap_append, filterMap_flush]
      rfl
    rw [hfirst, hpieces, List.flatMap_append, flatMap_filled_flush, List.reverse_reverse,
      List.flatMap_cons, interiors_plain (hleads.pairs.not_infix hplain), List.filter_cons,
      ← ih hrest]
    cases hget : bindings.get? (String.ofList (Text.trim interior)) with
    | some value =>
      have hfree : '{' ∉ value.toList := hvalues _ _ hget
      have hvalue : ¬ ['{', '{'] <:+: value.toList ++ ['{'] := by
        apply not_infix_concat
        · exact fun h => hfree (h.subset List.mem_cons_self)
        · exact fun hlast => absurd (List.mem_of_getLast? hlast) hfree
      simp only [filled, survives, hget]
      rw [interiors_plain hvalue]
      rfl
    | none =>
      cases policy with
      | remove =>
        simp only [filled, survives, hget]
        rfl
      | _ =>
        simp only [filled, survives, hget]
        rw [interiors_token hleads.opening hleads.closing]
        rfl

end Piece

variable {text : String} {bindings : Bindings} {policy : Policy}

/-! ## Texts -/

/-- Name and source of a placeholder come from what stands between its delimiters. -/
theorem map_placeholders (text : String) :
    (placeholders text).map (fun t => (t.name, t.raw)) =
      (Piece.interiors text.toList).map fun interior =>
        (String.ofList (Text.trim interior), String.ofList (Piece.token interior).text) := by
  rw [placeholders, segments, Piece.interiors]
  generalize pieces text.toList = ps, 0 = start
  induction ps generalizing start with
  | nil => rfl
  | cons p ps ih =>
    cases p with
    | literal cs => exact ih _
    | token interior =>
      rw [tokens_token, List.map_cons, ih]
      rfl

theorem interiors_eq_nil_iff : Piece.interiors text.toList = [] ↔ placeholders text = [] := by
  have h := congrArg List.length (map_placeholders text)
  rw [List.length_map, List.length_map] at h
  rw [← List.length_eq_zero_iff, ← h, List.length_eq_zero_iff]

/-- A text without placeholders stays as it is. -/
theorem substitute_of_no_placeholders (h : placeholders text = []) (bindings : Bindings)
    (policy : Policy) : substitute text bindings policy = .ok text := by
  cases hsub : substitute text bindings policy with
  | error name =>
    obtain ⟨-, hfirst⟩ := substitute_eq_error_iff.1 hsub
    simp [firstUnbound?, h] at hfirst
  | ok result =>
    have hfilled : ∀ p ∈ pieces text.toList, p.filled bindings policy = p.text := by
      intro p hp
      cases p with
      | literal cs => rfl
      | token interior =>
        have hmem := Piece.mem_interiors.2 hp
        rw [interiors_eq_nil_iff.2 h] at hmem
        simp at hmem
    have hsame := toList_of_substitute hsub
    rw [List.flatMap_congr hfilled, text_pieces] at hsame
    rw [String.toList_inj.1 hsame]

theorem Segment.infix_ofPieces {ps qs : List Piece} (h : ps <:+: qs) (start : Nat) :
    ∃ later, ofPieces later ps <:+: ofPieces start qs := by
  obtain ⟨front, back, rfl⟩ := h
  rw [List.append_assoc, ofPieces_append, ofPieces_append _ ps]
  exact ⟨_, _, _, List.append_assoc _ _ _⟩

theorem quiet_of_segments (h : ∀ s t, [.literal s, .placeholder t] <:+: segments text →
    ¬ ['{', '{'] <:+: s.toList) : Piece.Quiet text.toList := by
  intro plain interior hin
  obtain ⟨start, hsegments⟩ := Segment.infix_ofPieces hin 0
  have hplain := h (String.ofList plain) _ hsegments
  rwa [String.toList_ofList] at hplain

/-- What has been filled in holds the placeholders that stay as they are. -/
theorem map_placeholders_filled (hvalues : bindings.BraceFree) (hquiet : Piece.Quiet text.toList)
    {result : String} (h : substitute text bindings policy = .ok result) :
    (placeholders result).map (fun t => (t.name, t.raw)) =
      ((placeholders text).filter fun t => (bindings.get? t.name).isNone && policy ≠ .remove).map
        fun t => (t.name, t.raw) := by
  have hfilter : ((placeholders text).filter fun t =>
        (bindings.get? t.name).isNone && policy ≠ .remove).map (fun t => (t.name, t.raw)) =
      ((placeholders text).map fun t => (t.name, t.raw)).filter fun x =>
        (bindings.get? x.1).isNone && policy ≠ .remove := by
    rw [List.filter_map]
    rfl
  rw [hfilter, map_placeholders, map_placeholders, toList_of_substitute h,
    Piece.interiors_filled hvalues policy hquiet, List.filter_map]
  rfl

/-- Where no value and no plain text in front of a placeholder can open one, the placeholders that
are left are those without a value, or none if these are left out, and a second time nothing
changes. -/
theorem substitute_survivors (hvalues : bindings.BraceFree)
    (hplain : ∀ s t, [.literal s, .placeholder t] <:+: segments text →
      ¬ ['{', '{'] <:+: s.toList) :
    (∃ kept, substitute text bindings .keep = .ok kept ∧
      (placeholders kept).map (fun t => (t.name, t.raw)) =
        ((placeholders text).filter fun t => (bindings.get? t.name).isNone).map
          (fun t => (t.name, t.raw)) ∧
      substitute kept bindings .keep = .ok kept) ∧
    ∃ removed, substitute text bindings .remove = .ok removed ∧ placeholders removed = [] ∧
      ∀ others policy, substitute removed others policy = .ok removed := by
  have hquiet := quiet_of_segments hplain
  constructor
  · obtain ⟨kept, hkept⟩ := exists_substitute_keep text bindings
    refine ⟨kept, hkept, ?_, substitute_of_stays fun interior hmem => ?_⟩
    · simpa using map_placeholders_filled hvalues hquiet hkept
    · have hsurvives := Piece.interiors_filled hvalues .keep hquiet
      rw [← toList_of_substitute hkept] at hsurvives
      have hin := Piece.mem_interiors.2 hmem
      rw [hsurvives] at hin
      simpa [Piece.survives, Piece.Unbound] using (List.mem_filter.1 hin).2
  · have hpolicy : Policy.remove ≠ .fail := by decide
    obtain ⟨removed, hremoved⟩ := exists_substitute text bindings hpolicy
    have hnone : placeholders removed = [] := by
      simpa using map_placeholders_filled hvalues hquiet hremoved
    exact ⟨removed, hremoved, hnone, substitute_of_no_placeholders hnone⟩

/-- `{ {{a}}{{ b }}-{{c}} {{`. -/
def seamText : String :=
  "\x7b \x7b\x7ba\x7d\x7d\x7b\x7b b \x7d\x7d-\x7b\x7bc\x7d\x7d \x7b\x7b"

/-- A value that could close a placeholder, and one that is empty. -/
def seamBindings : Bindings := ⟨[("a", "\x7d\x7d"), ("c", "")], by decide⟩

theorem substitute_survivors_seams :
    seamBindings.BraceFree ∧
      (∀ s t, [.literal s, .placeholder t] <:+: segments seamText → ¬ ['{', '{'] <:+: s.toList) ∧
      ∃ kept, substitute seamText seamBindings .keep = .ok kept ∧
        (placeholders kept).map (fun t => (t.name, t.raw)) = [("b", "\x7b\x7b b \x7d\x7d")] ∧
        substitute kept seamBindings .keep = .ok kept := by
  have hvalues : seamBindings.BraceFree := by
    intro name value hget
    have hmem : (name, value) ∈ [("a", "\x7d\x7d"), ("c", "")] := Bindings.mem_of_get? hget
    simp only [List.mem_cons, Prod.mk.injEq, List.not_mem_nil, or_false] at hmem
    obtain ⟨-, rfl⟩ | ⟨-, rfl⟩ := hmem <;> decide
  have hplain : ∀ s t, [.literal s, .placeholder t] <:+: segments seamText →
      ¬ ['{', '{'] <:+: s.toList := by
    have hsegments : segments seamText =
        [.literal "\x7b ", .placeholder ⟨"a", 2, 7, "\x7b\x7ba\x7d\x7d"⟩,
          .placeholder ⟨"b", 7, 14, "\x7b\x7b b \x7d\x7d"⟩, .literal "-",
          .placeholder ⟨"c", 15, 20, "\x7b\x7bc\x7d\x7d"⟩, .literal " \x7b\x7b"] := by
      decide +kernel
    intro s t hin
    have hs : s = "\x7b " ∨ s = "-" := by
      simp [hsegments, List.infix_cons_iff, List.cons_prefix_cons] at hin
      exact hin.imp And.left And.left
    obtain rfl | rfl := hs <;> decide
  obtain ⟨⟨kept, hkept, hleft, hagain⟩, -⟩ := substitute_survivors hvalues hplain
  have hunbound : ((placeholders seamText).filter fun t =>
      (seamBindings.get? t.name).isNone).map (fun t => (t.name, t.raw)) =
        [("b", "\x7b\x7b b \x7d\x7d")] := by
    decide +kernel
  exact ⟨hvalues, hplain, kept, hkept, hleft.trans hunbound, hagain⟩

end Stencil
