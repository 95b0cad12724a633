import Mathlib.Data.List.Infix
import Stencil.Proofs.Reading
import Stencil.Proofs.Substituting

/-!
Filling in a text that has been filled in.

A value is not read again when it is inserted, but it can complete a placeholder in the text that
comes out. `Bindings.Settled` says that no value of a set of bindings can. Main statement: then a
text that has been filled in stays as it is (`substitute_settled`).

The proof has two readers, one of a text and one of what comes of it. Where the first is outside a
placeholder, the second is outside too, or inside one that holds a whole value (`Sound`).
-/

namespace Stencil

/-- No delimiter stands in a value or can be made with a brace at one of its ends, and no bound
name holds a value, the blanks around it aside. -/
def Bindings.Settled (bindings : Bindings) : Prop :=
  ∀ b ∈ bindings.toList, Piece.inert b.2.toList ∧ b.2.toList.head? ≠ some '}' ∧
    ∀ c ∈ bindings.toList, ¬ Text.trim b.2.toList <:+: c.1.toList

instance (bindings : Bindings) : Decidable bindings.Settled :=
  inferInstanceAs (Decidable (∀ b ∈ bindings.toList, _))

theorem Bindings.mem_of_get? {bindings : Bindings} {name value : String}
    (h : bindings.get? name = some value) : (name, value) ∈ bindings.toList := by
  obtain ⟨before, behind, hlist, -⟩ := List.lookup_eq_some_iff.1 h
  rw [hlist]
  exact List.mem_append_right _ List.mem_cons_self

theorem infix_dropWhile {p : Char → Bool} {cs ds : List Char} (h : cs <:+: ds) :
    cs.dropWhile p <:+: ds.dropWhile p := by
  induction ds generalizing cs with
  | nil => simp [List.infix_nil.1 h]
  | cons d ds ih =>
    by_cases hd : p d
    · rw [List.dropWhile_cons_of_pos hd]
      rcases List.infix_cons_iff.1 h with hpre | hin
      · cases cs with
        | nil => exact List.nil_infix
        | cons c cs =>
          obtain ⟨rfl, hcs⟩ := List.cons_prefix_cons.1 hpre
          rw [List.dropWhile_cons_of_pos hd]
          exact ih hcs.isInfix
      · exact ih hin
    · rw [List.dropWhile_cons_of_neg hd]
      exact (List.dropWhile_suffix p).isInfix.trans h

theorem infix_trim {cs ds : List Char} (h : cs <:+: ds) : Text.trim cs <:+: Text.trim ds :=
  List.reverse_infix.2 (infix_dropWhile (List.reverse_infix.2 (infix_dropWhile h)))

namespace Piece

variable {bindings : Bindings} {state second : Option (List Char)}
  {interior xs rest cs : List Char} {c : Char}

/-! ## Names without a value -/

/-- The name of a placeholder with this interior has no value. -/
def Unbound (bindings : Bindings) (interior : List Char) : Prop :=
  bindings.get? (String.ofList (Text.trim interior)) = none

theorem filled_of_unbound (h : Unbound bindings interior) :
    (token interior).filled bindings .keep = (token interior).text := by
  simp only [filled, show bindings.get? _ = none from h]

theorem unbound_or_filled (bindings : Bindings) (interior : List Char) :
    Unbound bindings interior ∨ ∃ b ∈ bindings.toList,
      (token interior).filled bindings .keep = b.2.toList := by
  cases hget : bindings.get? (String.ofList (Text.trim interior)) with
  | none => exact .inl hget
  | some value => exact .inr ⟨_, Bindings.mem_of_get? hget, by simp only [filled, hget]⟩

/-- A value stands in these characters. -/
def Tainted (bindings : Bindings) (cs : List Char) : Prop :=
  ∃ b ∈ bindings.toList, b.2.toList <:+: cs

theorem Tainted.unbound (h : Tainted bindings interior) (hbindings : bindings.Settled) :
    Unbound bindings interior := by
  obtain ⟨b, hb, hin⟩ := h
  refine Option.eq_none_iff_forall_not_mem.2 fun value hget => ?_
  have hname := (hbindings b hb).2.2 _ (Bindings.mem_of_get? hget)
  rw [String.toList_ofList] at hname
  exact hname (infix_trim hin)

/-- All placeholders that are read on from this state have names without a value. -/
def Stays (bindings : Bindings) (state : Option (List Char)) (cs : List Char) : Prop :=
  ∀ interior, token interior ∈ read [] state cs → Unbound bindings interior

theorem token_not_mem_flush : token interior ∉ flush cs := by
  cases cs <;> simp [flush]

theorem stays_iff (pending : List Char) : Stays bindings state cs ↔
    ∀ interior, token interior ∈ read pending state cs → Unbound bindings interior := by
  obtain ⟨plain, ps, h⟩ := exists_plain state cs
  simp only [Stays, h, List.mem_append, token_not_mem_flush, false_or]

theorem stays_nil (state : Option (List Char)) : Stays bindings state [] := by
  intro interior h
  cases state <;> exact absurd h token_not_mem_flush

theorem stays_opening : Stays bindings state ('{' :: '{' :: cs) ↔ Stays bindings (some []) cs := by
  cases state with
  | none => exact Iff.rfl
  | some interior => exact (stays_iff (interior ++ ['{', '{'])).symm

theorem stays_closing : Stays bindings (some interior) ('}' :: '}' :: cs) ↔
    Unbound bindings interior.reverse ∧ Stays bindings none cs := by
  have hread : read [] (some interior) ('}' :: '}' :: cs) =
      token interior.reverse :: read [] none cs := rfl
  simp only [Stays, hread, List.mem_cons, token.injEq]
  constructor
  · intro h
    exact ⟨h _ (.inl rfl), fun i hi => h i (.inr hi)⟩
  · rintro ⟨h, hcs⟩ i (rfl | hi)
    · exact h
    · exact hcs i hi

theorem stays_outside (hc : c ≠ '{' ∨ cs.head? ≠ some '{') :
    Stays bindings none (c :: cs) ↔ Stays bindings none cs := by
  rw [Stays, read_outside hc]
  exact (stays_iff [c]).symm

theorem Passes.stays (h : Passes xs rest) : Stays bindings state (xs ++ rest) ↔
    Stays bindings (state.map (xs.reverse ++ ·)) rest := by
  cases state with
  | none =>
    rw [Stays, h.outside]
    exact (stays_iff _).symm
  | some interior =>
    rw [Stays, h.inside]
    exact Iff.rfl

/-! ## Stretches without a delimiter -/

/-- No delimiter stands in `xs` or begins at its end when `rest` comes behind. -/
def Clear (xs rest : List Char) : Prop :=
  ∀ d, d = '{' ∨ d = '}' → ¬ [d, d] <:+: xs ++ rest.head?.toList

theorem clear_nil (rest : List Char) : Clear [] rest := by
  intro d _ h
  have hlength := h.length_le
  cases rest <;> simp at hlength

theorem Clear.goes_on (h : Clear xs (c :: cs)) (hopen : c ≠ '{' ∨ cs.head? ≠ some '{')
    (hclose : c ≠ '}' ∨ cs.head? ≠ some '}') : Clear (xs ++ [c]) cs := by
  intro d hd
  have hc : c ≠ d ∨ cs.head? ≠ some d := by
    rcases hd with rfl | rfl
    · exact hopen
    · exact hclose
  cases cs with
  | nil => simpa using h d hd
  | cons e cs =>
    refine not_infix_concat (h d hd) fun hlast heq => ?_
    have hcd : c = d := by simpa using hlast
    exact hc.elim (absurd hcd) (absurd (congrArg some heq))

/-- What comes behind may be another, if no new brace stands at its head. -/
theorem Clear.behind {other : List Char} (h : Clear xs rest)
    (hhead : ∀ d, d = '{' ∨ d = '}' → other.head? = some d → rest.head? = some d) :
    Clear xs other := by
  intro d hd
  have hxs : ¬ [d, d] <:+: xs := fun hin =>
    h d hd (hin.trans (List.prefix_append _ _).isInfix)
  cases other with
  | nil => simpa using hxs
  | cons e other =>
    by_cases he : e = d
    · have hrest := h d hd
      rw [hhead d hd (congrArg some he)] at hrest
      rwa [List.head?_cons, he]
    · exact not_infix_concat hxs fun _ => he

theorem passes_of_clear (h : Clear xs rest) : Passes xs rest := by
  induction xs with
  | nil => exact ⟨fun _ => rfl, fun _ _ => rfl⟩
  | cons c xs ih =>
    have hhead : (xs ++ rest.head?.toList).head? = (xs ++ rest).head? := by
      cases xs <;> cases rest <;> rfl
    have hpair : ∀ d, d = '{' ∨ d = '}' → (c ≠ d ∨ (xs ++ rest).head? ≠ some d) ∧
        ¬ [d, d] <:+: xs ++ rest.head?.toList := by
      intro d hd
      rw [← hhead]
      exact not_infix_cons.1 (h d hd)
    exact .cons (passes_single (hpair _ (.inl rfl)).1 (hpair _ (.inr rfl)).1)
      (ih fun d hd => (hpair d hd).2)

/-! ## What comes of a text -/

/-- What comes of a text that is read on from this state, what is pending aside. -/
def output (bindings : Bindings) (state : Option (List Char)) (cs : List Char) : List Char :=
  (read [] state cs).flatMap (filled bindings .keep)

/-- What is pending is not filled in. -/
theorem flatMap_filled_pending (policy : Policy) (pending : List Char)
    (state : Option (List Char)) (cs : List Char) :
    (read pending state cs).flatMap (filled bindings policy) =
      pending.reverse ++ (read [] state cs).flatMap (filled bindings policy) := by
  obtain ⟨plain, ps, h⟩ := exists_plain state cs
  simp [h]

theorem flatMap_filled_read (pending : List Char) (state : Option (List Char)) (cs : List Char) :
    (read pending state cs).flatMap (filled bindings .keep) =
      pending.reverse ++ output bindings state cs :=
  flatMap_filled_pending .keep pending state cs

theorem output_outside (hc : c ≠ '{' ∨ cs.head? ≠ some '{') :
    output bindings none (c :: cs) = c :: output bindings none cs := by
  rw [output, read_outside hc, flatMap_filled_read]
  rfl

theorem output_inside (hopen : c ≠ '{' ∨ cs.head? ≠ some '{')
    (hclose : c ≠ '}' ∨ cs.head? ≠ some '}') :
    output bindings (some interior) (c :: cs) = output bindings (some (c :: interior)) cs := by
  rw [output, read_inside hopen hclose, output]

theorem output_closing : output bindings (some interior) ('}' :: '}' :: cs) =
    (token interior.reverse).filled bindings .keep ++ output bindings none cs := rfl

theorem output_reopening : output bindings (some interior) ('{' :: '{' :: cs) =
    '{' :: '{' :: (interior.reverse ++ output bindings (some []) cs) := by
  rw [output, read, flatMap_filled_read]
  simp

theorem output_unclosed :
    output bindings (some interior) [] = '{' :: '{' :: (interior.reverse ++ []) := by
  rw [output, read, flatMap_filled_flush]
  simp

theorem head?_output (h : cs.head? ≠ some '{') : (output bindings none cs).head? = cs.head? := by
  cases cs with
  | nil => rfl
  | cons c cs =>
    rw [output_outside (.inl fun hc => h (congrArg some hc))]
    rfl

theorem head?_filled (h : bindings.Settled) (interior cs : List Char) :
    ((token interior).filled bindings .keep ++ cs).head? ≠ some '}' := by
  obtain hunbound | ⟨b, hb, hfilled⟩ := unbound_or_filled bindings interior
  · simp [filled_of_unbound hunbound, text]
  · obtain ⟨-, hhead, hnames⟩ := h b hb
    have hne : b.2.toList ≠ [] := by
      intro hempty
      refine hnames b hb ?_
      rw [hempty]
      exact List.nil_infix
    rw [hfilled, List.head?_append_of_ne_nil _ hne]
    exact hhead

/-- What comes of a text that is read on inside a placeholder does not begin with a closing
brace. -/
theorem head?_output_inside (h : bindings.Settled) {state : Option (List Char)}
    (hstate : state.isSome) (cs : List Char) :
    (output bindings state cs).head? ≠ some '}' := by
  induction state, cs using reading_induction with
  | done => simp at hstate
  | opens cs ih => simp at hstate
  | outside c cs hc ih => simp at hstate
  | unclosed interior => simp [output_unclosed]
  | closes interior cs ih => exact head?_filled h _ _
  | reopens interior cs ih => simp [output_reopening]
  | inside interior c cs hopen hclose ih =>
    rw [output_inside hopen hclose]
    exact ih rfl

/-! ## Two readers -/

/-- The second reader is outside a placeholder, or inside one that holds a whole value. -/
def Sound (bindings : Bindings) : Option (List Char) → Prop
  | none => True
  | some interior => Tainted bindings interior.reverse

theorem Sound.reads_value {b : String × String} (hb : b ∈ bindings.toList)
    (second : Option (List Char)) :
    Sound bindings (second.map (b.2.toList.reverse ++ ·)) := by
  cases second with
  | none => trivial
  | some interior => exact ⟨b, hb, interior.reverse, [], by simp⟩

theorem Sound.reads_char (h : Sound bindings (some interior)) (c : Char) :
    Sound bindings (some (c :: interior)) := by
  obtain ⟨b, hb, hin⟩ := h
  refine ⟨b, hb, hin.trans ?_⟩
  rw [List.reverse_cons]
  exact (List.prefix_append _ _).isInfix

/-- What the second reader makes of what comes of `cs`, where the first one is in this state. -/
def Settles (bindings : Bindings) : Option (List Char) → List Char → Prop
  | none, cs => ∀ second, Sound bindings second → Stays bindings second (output bindings none cs)
  | some interior, cs => Clear interior.reverse cs →
      ∀ second, Stays bindings second (output bindings (some interior) cs)

theorem Settles.outside (hbindings : bindings.Settled) (h : Settles bindings none cs)
    (hc : c ≠ '{' ∨ cs.head? ≠ some '{') : Settles bindings none (c :: cs) := by
  intro second hsecond
  have hopen : c ≠ '{' ∨ (output bindings none cs).head? ≠ some '{' :=
    hc.imp_right fun hhead => (head?_output hhead).symm ▸ hhead
  rw [output_outside hc]
  cases second with
  | none => exact (stays_outside hopen).2 (h none trivial)
  | some interior =>
    by_cases hclose : c = '}' ∧ (output bindings none cs).head? = some '}'
    · -- the placeholder that ends here holds a value
      obtain ⟨rfl, hhead⟩ := hclose
      obtain ⟨rest, hrest⟩ := List.head?_eq_some_iff.1 hhead
      have hstays := h none trivial
      rw [hrest, stays_outside (.inl (by decide))] at hstays
      rw [hrest, stays_closing]
      exact ⟨Tainted.unbound hsecond hbindings, hstays⟩
    · exact (passes_single hopen (not_and_or.1 hclose)).stays.2 (h _ (hsecond.reads_char c))

theorem Settles.closes (hbindings : bindings.Settled) (h : Settles bindings none cs) :
    Settles bindings (some interior) ('}' :: '}' :: cs) := by
  intro hclear second
  rw [output_closing]
  obtain hunbound | ⟨b, hb, hfilled⟩ := unbound_or_filled bindings interior.reverse
  · have hpasses : Passes interior.reverse ('}' :: '}' :: output bindings none cs) :=
      passes_of_clear (hclear.behind fun _ _ hhead => hhead)
    rw [filled_of_unbound hunbound, text, List.cons_append, List.cons_append, List.append_assoc]
    refine stays_opening.2 (hpasses.stays.2 (stays_closing.2 ⟨?_, h none trivial⟩))
    simpa using hunbound
  · have hpasses := passes_of_inert (hbindings b hb).1 (output bindings none cs)
    rw [hfilled]
    exact hpasses.stays.2 (h _ (.reads_value hb second))

theorem Settles.reopens (hbindings : bindings.Settled) (h : Settles bindings (some []) cs) :
    Settles bindings (some interior) ('{' :: '{' :: cs) := by
  intro hclear second
  have hpasses : Passes interior.reverse (output bindings (some []) cs) := by
    refine passes_of_clear (hclear.behind ?_)
    rintro d (rfl | rfl) hhead
    · rfl
    · exact absurd hhead (head?_output_inside hbindings rfl cs)
  rw [output_reopening]
  exact stays_opening.2 (hpasses.stays.2 (h (clear_nil cs) _))

theorem settles (h : bindings.Settled) (state : Option (List Char)) (cs : List Char) :
    Settles bindings state cs := by
  induction state, cs using reading_induction with
  | done => exact fun second _ => stays_nil second
  | opens cs ih => exact fun second _ => ih (clear_nil cs) second
  | outside c cs hc ih => exact .outside h ih hc
  | unclosed interior =>
    intro hclear second
    rw [output_unclosed]
    exact stays_opening.2 ((passes_of_clear hclear).stays.2 (stays_nil _))
  | closes interior cs ih => exact .closes h ih
  | reopens interior cs ih => exact .reopens h ih
  | inside interior c cs hopen hclose ih =>
    intro hclear second
    rw [output_inside hopen hclose]
    refine ih ?_ second
    rw [List.reverse_cons]
    exact hclear.goes_on hopen hclose

theorem flatMap_filled_of_stays (h : Stays bindings none cs) :
    (pieces cs).flatMap (filled bindings .keep) = cs := by
  have hfilled : ∀ p ∈ pieces cs, p.filled bindings .keep = p.text := by
    intro p hp
    cases p with
    | literal cs => rfl
    | token interior => exact filled_of_unbound (h interior hp)
  rw [List.flatMap_congr hfilled, text_pieces]

end Piece

variable {bindings : Bindings} {text result : String}

/-- Only one of the policies refuses a name. -/
theorem exists_substitute (text : String) (bindings : Bindings) {policy : Policy}
    (h : policy ≠ .fail) : ∃ result, substitute text bindings policy = .ok result := by
  cases hsub : substitute text bindings policy with
  | ok result => exact ⟨result, rfl⟩
  | error name => exact absurd (substitute_eq_error_iff.1 hsub).1 h

theorem exists_substitute_keep (text : String) (bindings : Bindings) :
    ∃ result, substitute text bindings .keep = .ok result :=
  exists_substitute text bindings (by decide)

/-- A text in which no name has a value stays as it is. -/
theorem substitute_of_stays (h : Piece.Stays bindings none text.toList) :
    substitute text bindings .keep = .ok text := by
  obtain ⟨result, hresult⟩ := exists_substitute_keep text bindings
  have hsame : result.toList = text.toList := by
    rw [toList_of_substitute hresult]
    exact Piece.flatMap_filled_of_stays h
  rw [hresult, String.toList_inj.1 hsame]

/-- If no value can complete a placeholder, a text that has been filled in stays as it is. -/
theorem substitute_settled (h : bindings.Settled)
    (hresult : substitute text bindings .keep = .ok result) :
    substitute result bindings .keep = .ok result := by
  apply substitute_of_stays
  rw [toList_of_substitute hresult]
  exact Piece.settles h none text.toList none trivial

end Stencil
