import Stencil.Substitution

/-!
What substitution can come to. Only one of the policies refuses a name, and then the first that has
no value (`substitute_eq_error_iff`); what is returned are the pieces of the text, each filled in
(`toList_of_substitute`).
-/

namespace Stencil

variable {bindings : Bindings} {policy : Policy} {name : String}

/-- The first name in a text without a value. -/
def firstUnbound? (bindings : Bindings) (text : String) : Option String :=
  ((placeholders text).map (·.name)).find? fun n => (bindings.get? n).isNone

theorem mapM_fill_eq_error_iff {ss : List Segment} :
    ss.mapM (Segment.fill bindings policy) = .error name ↔ policy = .fail ∧
      ((ss.filterMap Segment.token?).map (·.name)).find? (fun n => (bindings.get? n).isNone) =
        some name := by
  induction ss with
  | nil => simp [pure, Except.pure]
  | cons s ss ih =>
    have hrest : ∀ {x : String}, s.fill bindings policy = .ok x →
        ((s :: ss).mapM (Segment.fill bindings policy) = .error name ↔
          ss.mapM (Segment.fill bindings policy) = .error name) := by
      intro x hx
      rw [List.mapM_cons, hx]
      cases ss.mapM (Segment.fill bindings policy) <;> simp [bind, Except.bind, pure, Except.pure]
    cases s with
    | literal text => exact (hrest rfl).trans ih
    | placeholder t =>
      cases hget : bindings.get? t.name with
      | some value =>
        rw [hrest (show Segment.fill bindings policy (.placeholder t) = .ok value by
          simp [Segment.fill, hget]), ih]
        simp [Segment.token?, hget]
      | none =>
        cases policy with
        | fail => simp [List.mapM_cons, Segment.fill, Segment.token?, hget, bind, Except.bind]
        | keep =>
          rw [hrest (show Segment.fill bindings .keep (.placeholder t) = .ok t.raw by
            simp [Segment.fill, hget]), ih]
          simp
        | remove =>
          rw [hrest (show Segment.fill bindings .remove (.placeholder t) = .ok "" by
            simp [Segment.fill, hget]), ih]
          simp

/-- Substitution fails under one policy only, and names the first placeholder without a value. -/
theorem substitute_eq_error_iff {text : String} :
    substitute text bindings policy = .error name ↔
      policy = .fail ∧ firstUnbound? bindings text = some name := by
  rw [firstUnbound?, placeholders, ← mapM_fill_eq_error_iff, substitute]
  cases (segments text).mapM (Segment.fill bindings policy) <;>
    simp [bind, Except.bind, pure, Except.pure]

/-- What a piece becomes, if its name is not refused. -/
def Piece.filled (bindings : Bindings) (policy : Policy) : Piece → List Char
  | literal cs => cs
  | token cs =>
    match bindings.get? (String.ofList (Text.trim cs)), policy with
    | some value, _ => value.toList
    | none, .remove => []
    | none, _ => text (token cs)

@[simp] theorem Piece.flatMap_filled_flush {cs : List Char} :
    (flush cs).flatMap (filled bindings policy) = cs.reverse := by
  cases cs <;> simp [flush, filled]

theorem toList_of_fill {p : Piece} {start : Nat} {s : String}
    (h : (Segment.ofPiece start p).fill bindings policy = .ok s) :
    s.toList = p.filled bindings policy := by
  cases p with
  | literal cs =>
    obtain rfl : _ = s := Except.ok.inj h
    exact String.toList_ofList
  | token cs =>
    simp only [Segment.ofPiece, Segment.fill] at h
    cases hget : bindings.get? (String.ofList (Text.trim cs)) with
    | some value =>
      simp only [hget, Except.ok.injEq] at h
      simp only [Piece.filled, hget, h]
    | none =>
      cases policy with
      | fail => simp [hget] at h
      | keep =>
        simp only [hget, Except.ok.injEq] at h
        simp [Piece.filled, hget, ← h]
      | remove =>
        simp only [hget, Except.ok.injEq] at h
        simp [Piece.filled, hget, ← h]

theorem toList_join_of_mapM {ps : List Piece} {start : Nat} {parts : List String}
    (h : (Segment.ofPieces start ps).mapM (Segment.fill bindings policy) = .ok parts) :
    (String.join parts).toList = ps.flatMap (Piece.filled bindings policy) := by
  induction ps generalizing start parts with
  | nil =>
    obtain rfl : [] = parts := Except.ok.inj h
    simp
  | cons p ps ih =>
    rw [Segment.ofPieces, List.mapM_cons] at h
    cases hp : (Segment.ofPiece start p).fill bindings policy with
    | error e => simp [hp, bind, Except.bind] at h
    | ok s =>
      cases hps : (Segment.ofPieces (start + (String.ofList p.text).utf8ByteSize) ps).mapM
          (Segment.fill bindings policy) with
      | error e => simp [hp, hps, bind, Except.bind] at h
      | ok rest =>
        simp only [hp, hps, bind, Except.bind, pure, Except.pure] at h
        obtain rfl := Except.ok.inj h
        rw [String.join_cons, String.toList_append, toList_of_fill hp, ih hps, List.flatMap_cons]

theorem toList_of_substitute {text result : String}
    (h : substitute text bindings policy = .ok result) :
    result.toList = (pieces text.toList).flatMap (Piece.filled bindings policy) := by
  rw [substitute] at h
  cases hmap : (segments text).mapM (Segment.fill bindings policy) with
  | error e => simp [hmap, bind, Except.bind] at h
  | ok parts =>
    simp only [hmap, bind, Except.bind, pure, Except.pure] at h
    obtain rfl := Except.ok.inj h
    exact toList_join_of_mapM hmap

/-- The first name in a text that the policy refuses. -/
def refused? (bindings : Bindings) (policy : Policy) (text : String) : Option String :=
  if policy = .fail then firstUnbound? bindings text else none

/-- The pieces of a text, each filled in. -/
def filledText (bindings : Bindings) (policy : Policy) (text : String) : String :=
  String.ofList ((pieces text.toList).flatMap (Piece.filled bindings policy))

theorem substitute_eq (text : String) (bindings : Bindings) (policy : Policy) :
    substitute text bindings policy =
      match refused? bindings policy text with
      | some name => .error name
      | none => .ok (filledText bindings policy text) := by
  cases hsub : substitute text bindings policy with
  | error name =>
    obtain ⟨hpolicy, hfirst⟩ := substitute_eq_error_iff.1 hsub
    rw [refused?, if_pos hpolicy, hfirst]
  | ok result =>
    have hnone : refused? bindings policy text = none := by
      refine Option.eq_none_iff_forall_not_mem.2 fun name hname => ?_
      rw [refused?] at hname
      split at hname
      · rename_i hpolicy
        simp [substitute_eq_error_iff.2 ⟨hpolicy, hname⟩] at hsub
      · cases hname
    rw [hnone, filledText, ← toList_of_substitute hsub, String.ofList_toList]

end Stencil
