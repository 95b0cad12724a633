import Stencil.Proofs.Resolution

/-!
Files that are written over.

`SameShape fs gs` says that both hold the same entries, the bytes of files apart. A file that is
written over where it stands keeps the shape (`SameShape.set`), and the shape decides where every
path leads (`SameShape.leadsTo`).
-/

namespace Stencil

/-- The entry without the bytes of a file. -/
def Entry.shape : Entry → Entry
  | file _ => file .empty
  | e => e

namespace FileSystem

/-- Both hold the same entries, the bytes of files apart. -/
structure SameShape (fs gs : FileSystem) : Prop where
  shape : ∀ k, (gs.get? k).map Entry.shape = (fs.get? k).map Entry.shape
  home : gs.workingDirectory = fs.workingDirectory

variable {fs gs hs : FileSystem}

theorem SameShape.refl (fs : FileSystem) : SameShape fs fs := ⟨fun _ => rfl, rfl⟩

theorem SameShape.trans (h : SameShape fs gs) (h' : SameShape gs hs) : SameShape fs hs :=
  ⟨fun k => (h'.shape k).trans (h.shape k), h'.home.trans h.home⟩

theorem SameShape.get?_cases (h : SameShape fs gs) (k : Location) :
    gs.get? k = fs.get? k ∨
      ∃ b c, fs.get? k = some (.file b) ∧ gs.get? k = some (.file c) := by
  have hk := h.shape k
  cases hf : fs.get? k with
  | none => exact .inl (by simpa [hf] using hk)
  | some e =>
    obtain ⟨e', he', heq⟩ : ∃ e', gs.get? k = some e' ∧ e'.shape = e.shape := by
      simpa [hf] using hk
    cases e with
    | file b =>
      cases e' with
      | file c => exact .inr ⟨b, c, rfl, he'⟩
      | _ => simp [Entry.shape] at heq
    | _ =>
      left
      rw [he']
      cases e' <;> simp_all [Entry.shape]

theorem SameShape.isSome_eq (h : SameShape fs gs) (k : Location) :
    (gs.get? k).isSome = (fs.get? k).isSome := by
  rcases h.get?_cases k with heq | ⟨b, c, hf, hg⟩
  · rw [heq]
  · rw [hf, hg]
    rfl

/-- Whatever is no file is in both. -/
theorem SameShape.get?_iff (h : SameShape fs gs) {k : Location} {e : Entry}
    (he : ∀ b, e ≠ .file b) : gs.get? k = some e ↔ fs.get? k = some e := by
  rcases h.get?_cases k with heq | ⟨b, c, hf, hg⟩
  · rw [heq]
  · rw [hf, hg, Option.some.injEq, Option.some.injEq]
    exact iff_of_false (he c).symm (he b).symm

theorem SameShape.directory_iff (h : SameShape fs gs) {k : Location} :
    gs.get? k = some .directory ↔ fs.get? k = some .directory :=
  h.get?_iff (by simp)

/-- A file is written over where it stands. -/
theorem SameShape.set (h : SameShape fs gs) {k : Location} {b : ByteArray}
    (hb : gs.get? k = some (.file b)) (c : ByteArray) : SameShape fs (gs.set k (.file c)) := by
  have hk : k ≠ [] := by
    rintro rfl
    simp at hb
  refine ⟨fun j => ?_, h.home⟩
  rw [get?_set gs hk]
  split
  · rename_i hjk
    rw [hjk, ← h.shape k, hb]
    rfl
  · exact h.shape j

theorem SameShape.wellFormed (h : SameShape fs gs) (hwf : fs.WellFormed) : gs.WellFormed := by
  refine ⟨fun hs => ?_, fun hs => ?_, fun hl => ?_⟩
  · rw [h.isSome_eq] at hs
    exact h.directory_iff.2 (hwf.parent hs)
  · rw [h.isSome_eq] at hs
    exact hwf.legal hs
  · rw [h.home] at hl
    exact (hwf.home hl).imp_left h.directory_iff.2

/-! ## Paths lead to the same places -/

theorem SameShape.canEnter_eq (h : SameShape fs gs) (l : Location) :
    gs.canEnter l = fs.canEnter l := by
  rw [canEnter, canEnter]
  rcases h.get?_cases l with heq | ⟨b, c, hf, hg⟩
  · rw [heq]
  · rw [hf, hg]
    rfl

theorem SameShape.advance_eq (h : SameShape fs gs) (aim : Aim) (l : Location)
    (cs : List String) : gs.advance aim l cs = fs.advance aim l cs := by
  induction cs generalizing l with
  | nil => rfl
  | cons c cs ih =>
    rw [advance, advance, h.canEnter_eq, refusal, refusal, h.isSome_eq, ih l, ih l.tail,
      ih (c :: l)]
    rcases h.get?_cases (c :: l) with heq | ⟨b, b', hf, hg⟩
    · rw [heq]
    · rw [hf, hg]

theorem SameShape.leads (h : SameShape fs gs) {n m : Nat} {l k : Location} {cs : List String}
    (hl : fs.Leads n l cs m k) : gs.Leads n l cs m k := by
  induction hl with
  | arrived hadv => exact .arrived ((h.advance_eq _ _ _).trans hadv)
  | link hadv _ ih => exact .link ((h.advance_eq _ _ _).trans hadv) ih

theorem SameShape.leadsTo (h : SameShape fs gs) {p : Path} {m : Nat} {l : Location}
    (hl : fs.LeadsTo p m l) : gs.LeadsTo p m l := by
  rw [LeadsTo, h.home]
  exact h.leads hl

theorem SameShape.follow_eq (h : SameShape fs gs) (aim : Aim) (n : Nat) (l : Location)
    (cs : List String) : gs.follow aim n l cs = fs.follow aim n l cs := by
  induction n generalizing l cs with
  | zero => rfl
  | succ n ih =>
    rw [follow, follow, h.advance_eq]
    cases fs.advance aim l cs with
    | link d t rest => exact ih _ _
    | _ => rfl

theorem SameShape.locate_eq (h : SameShape fs gs) (p : Path) : gs.locate p = fs.locate p := by
  rw [locate, locate, resolve, resolve, h.home, h.follow_eq]

end FileSystem

end Stencil
