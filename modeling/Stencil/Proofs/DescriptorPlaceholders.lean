import Stencil.Proofs.DashedName
import Stencil.Proofs.FilledDescriptor
import Stencil.Proofs.Survivors
import Stencil.Proofs.WrittenDescriptor

/-!
When the text of a descriptor holds a placeholder.

A text holds one exactly if an opening stands in it and a closing behind it
(`interiors_eq_nil_iff_not_encloses`). In the text of a descriptor both are whole in one field: escapes
and layout make no pair of braces, break none and join none (`encloses_written`). Main statement: the
answers of a request decide, and where they hold no placeholder the text is never changed
(`placeholders_writeDescriptor`).
-/

namespace Stencil

open Json Run

/-! ## Pairs of braces -/

/-- An opening stands in these characters, and a closing behind it. -/
def Encloses (cs : List Char) : Prop :=
  ∃ before behind, cs = before ++ '{' :: '{' :: behind ∧ ['}', '}'] <:+: behind

/-- An opening stands in one of these texts, and a closing behind it in the same text or in a later
one. -/
def EnclosesAmong (texts : List (List Char)) : Prop :=
  ∃ earlier cs later, texts = earlier ++ cs :: later ∧
    (Encloses cs ∨ ['{', '{'] <:+: cs ∧ ∃ ds ∈ later, ['}', '}'] <:+: ds)

variable {c d e : Char} {cs ds : List Char} {texts : List (List Char)}

theorem infix_cons : [d, d] <:+: c :: cs ↔ (c = d ∧ cs.head? = some d) ∨ [d, d] <:+: cs := by
  rw [← not_iff_not, Piece.not_infix_cons, not_or, not_and_or]

theorem encloses_cons : Encloses (c :: cs) ↔
    (c = '{' ∧ cs.head? = some '{' ∧ ['}', '}'] <:+: cs) ∨ Encloses cs := by
  constructor
  · rintro ⟨before, behind, heq, hclose⟩
    cases before with
    | nil =>
      obtain ⟨rfl, rfl⟩ := List.cons.inj heq
      exact .inl ⟨rfl, rfl, hclose.trans (List.suffix_cons _ _).isInfix⟩
    | cons b before =>
      obtain ⟨-, rfl⟩ := List.cons.inj heq
      exact .inr ⟨before, behind, rfl, hclose⟩
  · rintro (⟨rfl, hhead, hclose⟩ | ⟨before, behind, rfl, hclose⟩)
    · obtain ⟨rest, rfl⟩ := List.head?_eq_some_iff.1 hhead
      exact ⟨[], rest, rfl, (infix_cons.1 hclose).resolve_left (by simp)⟩
    · exact ⟨c :: before, behind, rfl, hclose⟩

theorem not_encloses_nil : ¬ Encloses [] := by
  rintro ⟨before, behind, heq, -⟩
  simp at heq

theorem Encloses.opening (h : Encloses cs) : ['{', '{'] <:+: cs := by
  obtain ⟨before, behind, rfl, -⟩ := h
  exact ⟨before, behind, by simp⟩

theorem Encloses.closing (h : Encloses cs) : ['}', '}'] <:+: cs := by
  obtain ⟨before, behind, rfl, hclose⟩ := h
  exact hclose.trans ⟨before ++ ['{', '{'], [], by simp⟩

theorem enclosesAmong_cons : EnclosesAmong (cs :: texts) ↔
    Encloses cs ∨ (['{', '{'] <:+: cs ∧ ∃ ds ∈ texts, ['}', '}'] <:+: ds) ∨
      EnclosesAmong texts := by
  constructor
  · rintro ⟨earlier, ds, later, heq, h⟩
    cases earlier with
    | nil =>
      obtain ⟨rfl, rfl⟩ := List.cons.inj heq
      exact h.imp_right .inl
    | cons _ earlier =>
      obtain ⟨-, rfl⟩ := List.cons.inj heq
      exact .inr (.inr ⟨earlier, ds, later, rfl, h⟩)
  · rintro (h | h | ⟨earlier, ds, later, rfl, h⟩)
    · exact ⟨[], cs, texts, rfl, .inl h⟩
    · exact ⟨[], cs, texts, rfl, .inr h⟩
    · exact ⟨cs :: earlier, ds, later, rfl, h⟩

theorem not_enclosesAmong_nil : ¬ EnclosesAmong [] := by
  rintro ⟨earlier, ds, later, heq, -⟩
  simp at heq

theorem EnclosesAmong.opening (h : EnclosesAmong texts) : ∃ cs ∈ texts, ['{', '{'] <:+: cs := by
  obtain ⟨earlier, cs, later, rfl, h⟩ := h
  refine ⟨cs, List.mem_append_right _ List.mem_cons_self, ?_⟩
  rcases h with h | ⟨h, -⟩
  · exact h.opening
  · exact h

instance decidableEncloses : DecidablePred Encloses
  | [] => isFalse not_encloses_nil
  | _ :: cs =>
    have := decidableEncloses cs
    decidable_of_iff _ encloses_cons.symm

instance decidableEnclosesAmong : DecidablePred EnclosesAmong
  | [] => isFalse not_enclosesAmong_nil
  | _ :: texts =>
    have := decidableEnclosesAmong texts
    decidable_of_iff _ enclosesAmong_cons.symm

/-! ## Reading -/

namespace Piece

/-- What is read on from this state comes to a closing that ends a placeholder. -/
def Completes : Option (List Char) → List Char → Prop
  | none, cs => Encloses cs
  | some _, cs => ['}', '}'] <:+: cs

theorem closing_behind_opening : ['}', '}'] <:+: '{' :: '{' :: cs ↔ ['}', '}'] <:+: cs := by
  rw [infix_cons, infix_cons]
  simp

theorem exists_token_of_completes {state : Option (List Char)} (h : Completes state cs)
    (pending : List Char) : ∃ interior, token interior ∈ read pending state cs := by
  induction state, cs using reading_induction generalizing pending with
  | done => exact absurd h not_encloses_nil
  | opens cs ih => exact ih (closing_behind_opening.1 (Encloses.closing h)) pending
  | outside c cs hc ih =>
    rw [read_outside hc]
    refine ih ((encloses_cons.1 h).resolve_left ?_) _
    rintro ⟨hopen, hhead, -⟩
    exact hc.elim (absurd hopen) (absurd hhead)
  | unclosed interior => exact absurd (List.infix_nil.1 h) (by simp)
  | closes interior cs ih =>
    exact ⟨interior.reverse, List.mem_append_right _ List.mem_cons_self⟩
  | reopens interior cs ih => exact ih (closing_behind_opening.1 h) _
  | inside interior c cs hopen hclose ih =>
    rw [read_inside hopen hclose]
    refine ih ((infix_cons.1 h).resolve_left ?_) _
    rintro ⟨hc, hhead⟩
    exact hclose.elim (absurd hc) (absurd hhead)

/-- A placeholder is found exactly where an opening stands in front of a closing. -/
theorem interiors_eq_nil_iff_not_encloses : interiors cs = [] ↔ ¬ Encloses cs := by
  constructor
  · intro hnone h
    obtain ⟨interior, hmem⟩ := exists_token_of_completes (show Completes none cs from h) []
    have hin := mem_interiors.2 hmem
    rw [hnone] at hin
    exact absurd hin List.not_mem_nil
  · intro hnot
    obtain htokenless | ⟨plain, interior, rest, rfl, -⟩ := exists_next cs
    · exact interiors_of_tokenless htokenless
    · refine absurd ⟨plain, interior ++ '}' :: '}' :: rest, ?_, interior, rest, ?_⟩ hnot
      · simp [text]
      · simp

end Piece

theorem placeholders_eq_nil_iff_not_encloses {text : String} :
    placeholders text = [] ↔ ¬ Encloses text.toList :=
  interiors_eq_nil_iff.symm.trans Piece.interiors_eq_nil_iff_not_encloses

/-! ## Texts in parts -/

section Cut

variable (hopen : e ≠ '{') (hclose : e ≠ '}')

theorem infix_cut (he : e ≠ d) :
    [d, d] <:+: cs ++ e :: ds ↔ [d, d] <:+: cs ∨ [d, d] <:+: ds := by
  induction cs with
  | nil => simp [infix_cons, he]
  | cons c cs ih =>
    have hhead : (cs ++ e :: ds).head? = some d ↔ cs.head? = some d := by
      cases cs <;> simp [he]
    rw [List.cons_append, infix_cons, infix_cons, hhead, ih, or_assoc]

include hopen hclose

/-- At a character that is no brace a text can be cut. -/
theorem encloses_cut : Encloses (cs ++ e :: ds) ↔
    Encloses cs ∨ (['{', '{'] <:+: cs ∧ ['}', '}'] <:+: ds) ∨ Encloses ds := by
  induction cs with
  | nil => simp [encloses_cons, hopen, not_encloses_nil]
  | cons c cs ih =>
    have hhead : (cs ++ e :: ds).head? = some '{' ↔ cs.head? = some '{' := by
      cases cs <;> simp [hopen]
    rw [List.cons_append, encloses_cons, encloses_cons, hhead, ih, infix_cut hclose, infix_cons]
    simp only [and_or_left, or_and_right, and_assoc, or_assoc, or_left_comm]

end Cut

section Inert

variable {xs : List Char}

/-- Such characters make no pair of braces, also not with what comes behind. -/
theorem inert_cons (h : Piece.inert (c :: xs)) (cs : List Char) :
    (∀ d, d = '{' ∨ d = '}' → ¬ (c = d ∧ (xs ++ cs).head? = some d)) ∧ Piece.inert xs := by
  cases xs with
  | nil =>
    simp only [Piece.inert, Bool.and_eq_true, bne_iff_ne, ne_eq] at h
    refine ⟨?_, rfl⟩
    rintro d (rfl | rfl) ⟨hc, -⟩
    · exact h.1 hc
    · exact h.2 hc
  | cons x xs =>
    simp only [Piece.inert, Bool.and_eq_true, Bool.or_eq_true, bne_iff_ne, ne_eq] at h
    refine ⟨?_, h.2⟩
    rintro d hd ⟨rfl, hhead⟩
    obtain rfl : x = c := by simpa using hhead
    rcases h.1 with ⟨hopen, hclose⟩ | hne
    · exact hd.elim hopen hclose
    · exact hne rfl

theorem infix_inert (hd : d = '{' ∨ d = '}') (h : Piece.inert xs) :
    [d, d] <:+: xs ++ cs ↔ [d, d] <:+: cs := by
  induction xs with
  | nil => rfl
  | cons c xs ih =>
    obtain ⟨hc, hxs⟩ := inert_cons h cs
    rw [List.cons_append, infix_cons, ih hxs]
    exact or_iff_right (hc d hd)

theorem encloses_inert (h : Piece.inert xs) : Encloses (xs ++ cs) ↔ Encloses cs := by
  induction xs with
  | nil => rfl
  | cons c xs ih =>
    obtain ⟨hc, hxs⟩ := inert_cons h cs
    rw [List.cons_append, encloses_cons, ih hxs]
    exact or_iff_right fun ⟨hopen, hhead, _⟩ => hc '{' (.inl rfl) ⟨hopen, hhead⟩

end Inert

/-! ## Escapes -/

theorem escape_brace (hd : d = '{' ∨ d = '}') : escape d = [d] := by
  rcases hd with rfl | rfl <;> decide

theorem head?_flatMap_escape (hd : d = '{' ∨ d = '}') :
    (cs.flatMap escape).head? = some d ↔ cs.head? = some d := by
  cases cs with
  | nil => rfl
  | cons c cs =>
    have hne : escape c ≠ [] := by
      obtain ⟨x, -, -, hesc, -⟩ | ⟨-, hesc⟩ | ⟨-, hesc⟩ := escape_cases c <;> simp [hesc]
    rw [List.flatMap_cons, List.head?_append_of_ne_nil _ hne, List.head?_cons, Option.some.injEq]
    constructor
    · exact head?_escape hd
    · rintro rfl
      rw [escape_brace hd]
      rfl

/-- A brace is written as it is, and nothing else is written with one. -/
theorem infix_flatMap_escape (hd : d = '{' ∨ d = '}') :
    [d, d] <:+: cs.flatMap escape ↔ [d, d] <:+: cs := by
  induction cs with
  | nil => rfl
  | cons c cs ih =>
    rw [List.flatMap_cons, infix_cons]
    by_cases hc : c = '{' ∨ c = '}'
    · rw [escape_brace hc, List.singleton_append, infix_cons, ih, head?_flatMap_escape hd]
    · -- an escape may be longer than its character, but a pair of braces does not reach into it
      have hinert := inert_escape (not_or.1 hc).1 (not_or.1 hc).2
      rw [infix_inert hd hinert, ih]
      exact (or_iff_right fun h : c = d ∧ _ => hc (h.1 ▸ hd)).symm

theorem encloses_flatMap_escape : Encloses (cs.flatMap escape) ↔ Encloses cs := by
  induction cs with
  | nil => rfl
  | cons c cs ih =>
    rw [List.flatMap_cons, encloses_cons]
    by_cases hc : c = '{' ∨ c = '}'
    · rw [escape_brace hc, List.singleton_append, encloses_cons, ih,
        head?_flatMap_escape (.inl rfl), infix_flatMap_escape (.inr rfl)]
    · have hinert := inert_escape (not_or.1 hc).1 (not_or.1 hc).2
      rw [encloses_inert hinert, ih]
      exact (or_iff_right fun h : c = '{' ∧ _ => hc (.inl h.1)).symm

/-! ## The text of a descriptor -/

namespace Descriptor

theorem written_eq (f : Field) (cs : List Char) (fs : List (Field × List Char)) :
    written ((f, cs) :: fs) = f.lead ++ '"' :: (cs.flatMap escape ++ '"' :: written fs) := by
  simp [written, quotedChars]

theorem closing_written {fs : List (Field × List Char)} :
    ['}', '}'] <:+: written fs ↔ ∃ cs ∈ fs.map Prod.snd, ['}', '}'] <:+: cs := by
  induction fs with
  | nil => decide
  | cons f fs ih =>
    obtain ⟨f, cs⟩ := f
    have hlead : ¬ ['}', '}'] <:+: f.lead := by cases f <;> decide
    rw [written_eq, infix_cut (by decide), infix_cut (by decide),
      infix_flatMap_escape (.inr rfl), ih, List.map_cons, List.exists_mem_cons_iff]
    exact or_iff_right hlead

/-- An opening and a closing behind it are both whole in a field. -/
theorem encloses_written {fs : List (Field × List Char)} :
    Encloses (written fs) ↔ EnclosesAmong (fs.map Prod.snd) := by
  induction fs with
  | nil => decide
  | cons f fs ih =>
    obtain ⟨f, cs⟩ := f
    have hlead : ¬ ['{', '{'] <:+: f.lead := by cases f <;> decide
    rw [written_eq, encloses_cut (by decide) (by decide), encloses_cut (by decide) (by decide),
      encloses_flatMap_escape, infix_flatMap_escape (.inl rfl), closing_written, ih, List.map_cons,
      enclosesAmong_cons]
    rw [or_iff_right fun h => hlead h.opening, or_iff_right fun h => hlead h.1]

theorem placeholders_render {d : Descriptor} :
    placeholders d.render = [] ↔ ¬ EnclosesAmong (d.fields.map Prod.snd) := by
  rw [placeholders_eq_nil_iff_not_encloses, toList_render, encloses_written]

end Descriptor

/-! ## Answers -/

namespace Request

/-- The answers as they follow one another in the descriptor. -/
def answers (r : Request) : List String := [r.name, r.version, r.author, r.email]

end Request

theorem no_opening_dashCase (name : String) : ¬ ['{', '{'] <:+: (dashCase name).toList := by
  intro h
  have hrange := mem_dashCase (h.subset List.mem_cons_self)
  have : '{'.toNat = 0x7b := rfl
  omega

theorem placeholders_ofRequest (request : Request) :
    placeholders (Descriptor.ofRequest request).render = [] ↔
      ¬ EnclosesAmong (request.answers.map String.toList) := by
  have hname := no_opening_dashCase request.name
  have hfields : (Descriptor.ofRequest request).fields.map Prod.snd =
      (dashCase request.name).toList :: request.answers.map String.toList := by
    simp only [Descriptor.fields, Descriptor.ofRequest, Request.directoryName, Request.answers,
      List.map_cons, List.map_nil]
  rw [Descriptor.placeholders_render, hfields, enclosesAmong_cons,
    or_iff_right fun h => hname h.opening, or_iff_right fun h => hname h.1]

/-- The descriptor that is written holds a placeholder exactly if an opening stands in an answer and a
closing behind it, in the same answer or in a later one. If it holds none, its text stays as it is
under all bindings and policies. -/
theorem placeholders_writeDescriptor (request : Request) :
    (∀ root w, Ends (writeDescriptor request root) w
      (fun _ w' => w.files.write (root.join Descriptor.fileName)
        (Descriptor.ofRequest request).render.toUTF8 = .ok w'.files)
      fun _ w' => w'.files = w.files) ∧
    (placeholders (Descriptor.ofRequest request).render = [] ↔
      ¬ EnclosesAmong (request.answers.map String.toList)) ∧
    (placeholders (Descriptor.ofRequest request).render = [] → ∀ bindings policy,
      substitute (Descriptor.ofRequest request).render bindings policy =
        .ok (Descriptor.ofRequest request).render) := by
  refine ⟨fun root w => ?_, placeholders_ofRequest request, substitute_of_no_placeholders⟩
  exact (writeDescriptor_writes request root w).imp (fun _ _ h => h.2) fun _ _ h => h

/-- The placeholder that the name opens is closed in the author's answer. With the answers the other
way round there is none. -/
theorem placeholders_writeDescriptor_across :
    placeholders (Descriptor.ofRequest ⟨"a \x7b\x7b", "1", "b\x7d\x7d", ""⟩).render ≠ [] ∧
      placeholders (Descriptor.ofRequest ⟨"a\x7d\x7d", "1", "\x7b\x7b b", "\x7b\x7d"⟩).render = [] ∧
      ∀ bindings policy,
        substitute (Descriptor.ofRequest ⟨"a\x7d\x7d", "1", "\x7b\x7b b", "\x7b\x7d"⟩).render
            bindings policy =
          .ok (Descriptor.ofRequest ⟨"a\x7d\x7d", "1", "\x7b\x7b b", "\x7b\x7d"⟩).render := by
  obtain ⟨-, hacross, -⟩ := placeholders_writeDescriptor ⟨"a \x7b\x7b", "1", "b\x7d\x7d", ""⟩
  obtain ⟨-, hnone, hsame⟩ :=
    placeholders_writeDescriptor ⟨"a\x7d\x7d", "1", "\x7b\x7b b", "\x7b\x7d"⟩
  have hempty := hnone.2 (by decide +kernel)
  exact ⟨fun h => hacross.1 h (by decide +kernel), hempty, hsame hempty⟩

end Stencil
