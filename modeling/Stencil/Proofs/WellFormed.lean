import Mathlib.Data.List.Infix
import Stencil.FileSystem.Access

/-!
Trees of files that can be: every entry stands in a directory, under a name that the system
accepts.

Main statements: putting an entry into a directory keeps a file system well formed
(`wellFormed_set`), nothing stands below a place where nothing stands (`get?_of_absent`), and a
listing depends on what stands in the directory only (`names_congr`).
-/

namespace Stencil

/-- A name that an entry can have. -/
structure LegalName (n : Name) : Prop where
  ne_empty : n ≠ ""
  ne_dot : n ≠ "."
  ne_dots : n ≠ ".."
  size_le : n.utf8ByteSize ≤ maxNameSize
  nul_free : '\x00' ∉ n.toList

instance (n : Name) : Decidable (LegalName n) :=
  decidable_of_iff
    (n ≠ "" ∧ n ≠ "." ∧ n ≠ ".." ∧ n.utf8ByteSize ≤ maxNameSize ∧ '\x00' ∉ n.toList)
    ⟨fun ⟨h₁, h₂, h₃, h₄, h₅⟩ => ⟨h₁, h₂, h₃, h₄, h₅⟩,
      fun ⟨h₁, h₂, h₃, h₄, h₅⟩ => ⟨h₁, h₂, h₃, h₄, h₅⟩⟩

theorem empty_not_mem_of_legal {l : Location} (h : ∀ n ∈ l, LegalName n) : "" ∉ l :=
  fun hmem => (h _ hmem).ne_empty rfl

namespace FileSystem

/-- Every entry has a legal name and stands in a directory, and so does the working directory,
unless it or a directory above it has been removed. -/
structure WellFormed (fs : FileSystem) : Prop where
  parent : ∀ {n d}, (fs.get? (n :: d)).isSome → fs.get? d = some .directory
  legal : ∀ {n d}, (fs.get? (n :: d)).isSome → LegalName n
  home : ∀ {l}, l <:+ fs.workingDirectory → fs.get? l = some .directory ∨ "" ∈ l

/-- What `WellFormed` asks of one entry. -/
def PlacedWell (fs : FileSystem) : Location → Prop
  | [] => True
  | n :: d => LegalName n ∧ fs.get? d = some .directory

instance (fs : FileSystem) : DecidablePred fs.PlacedWell
  | [] => .isTrue trivial
  | _ :: _ => inferInstanceAs (Decidable (_ ∧ _))

theorem wellFormed_iff (fs : FileSystem) :
    fs.WellFormed ↔ (∀ e ∈ fs.entries, fs.PlacedWell e.1) ∧
      ∀ l ∈ fs.workingDirectory.tails, fs.get? l = some .directory ∨ "" ∈ l := by
  have hsome : ∀ n d, (fs.get? (n :: d)).isSome ↔ ∃ e ∈ fs.entries, e.1 = n :: d := by
    intro n d
    change (fs.entries.lookup (n :: d)).isSome ↔ _
    rw [List.lookup_isSome_iff]
    exact exists_congr fun e => and_congr_right fun _ => beq_iff_eq.trans eq_comm
  constructor
  · intro h
    refine ⟨fun e he => ?_, fun l hl => h.home ((List.mem_tails _ _).1 hl)⟩
    obtain ⟨l, x⟩ := e
    cases l with
    | nil => trivial
    | cons n d =>
      have hs := (hsome n d).2 ⟨_, he, rfl⟩
      exact ⟨h.legal hs, h.parent hs⟩
  · rintro ⟨hentries, hhome⟩
    have hplaced : ∀ {n d}, (fs.get? (n :: d)).isSome → fs.PlacedWell (n :: d) := by
      intro n d hs
      obtain ⟨e, he, hl⟩ := (hsome n d).1 hs
      exact hl ▸ hentries e he
    exact ⟨fun hs => (hplaced hs).2, fun hs => (hplaced hs).1,
      fun hl => hhome _ ((List.mem_tails _ _).2 hl)⟩

instance (fs : FileSystem) : Decidable fs.WellFormed := decidable_of_iff _ fs.wellFormed_iff.symm

variable {fs : FileSystem}

/-! ## What stands above and below an entry -/

theorem WellFormed.directory_above (h : fs.WellFormed) {r l : Location} (hr : r ≠ [])
    (hs : (fs.get? (r ++ l)).isSome) : fs.get? l = some .directory := by
  induction r with
  | nil => exact absurd rfl hr
  | cons n r ih =>
    have hp := h.parent hs
    cases r with
    | nil => exact hp
    | cons m r => exact ih (by simp) (Option.isSome_of_eq_some hp)

theorem WellFormed.legal_names (h : fs.WellFormed) {l : Location} (hs : (fs.get? l).isSome) :
    ∀ n ∈ l, LegalName n := by
  induction l with
  | nil => simp
  | cons n d ih =>
    have hp := h.parent hs
    exact List.forall_mem_cons.2 ⟨h.legal hs, ih (by simp [hp])⟩

theorem WellFormed.get?_of_absent (h : fs.WellFormed) {l k : Location} (hl : fs.get? l = none)
    (hk : l <:+ k) : fs.get? k = none := by
  obtain ⟨r, rfl⟩ := hk
  rcases r with _ | ⟨n, r⟩
  · exact hl
  · rw [← Option.not_isSome_iff_eq_none]
    intro hs
    have := h.directory_above (by simp) hs
    simp [hl] at this

/-- A location with an entry is not below one without. -/
theorem WellFormed.not_suffix (h : fs.WellFormed) {l k : Location} (hl : fs.get? l = none)
    (hk : (fs.get? k).isSome) : ¬ l <:+ k := by
  intro hlk
  simp [h.get?_of_absent hl hlk] at hk

theorem WellFormed.isSome_above (h : fs.WellFormed) {r l : Location}
    (hs : (fs.get? (r ++ l)).isSome) : (fs.get? l).isSome := by
  by_contra hno
  exact h.not_suffix (Option.not_isSome_iff_eq_none.1 hno) hs (List.suffix_append r l)

/-- Nothing new can come at or above the working directory. -/
theorem WellFormed.not_suffix_home (h : fs.WellFormed) {l : Location} (hl : fs.get? l = none)
    (hnamed : "" ∉ l) : ¬ l <:+ fs.workingDirectory := by
  intro hsuf
  rcases h.home hsuf with hd | hempty
  · simp [hl] at hd
  · exact hnamed hempty

/-! ## Listings -/

theorem nodup_names (fs : FileSystem) (d : Location) : (fs.names d).Nodup := by
  refine (fs.pairwise_names d).imp ?_
  rintro a b hlt rfl
  exact String.lt_irrefl a hlt

theorem names_congr {gs : FileSystem} {d : Location}
    (h : ∀ n, (fs.get? (n :: d)).isSome = (gs.get? (n :: d)).isSome) :
    fs.names d = gs.names d := by
  have hperm : (fs.names d).Perm (gs.names d) := by
    rw [List.perm_ext_iff_of_nodup (nodup_names fs d) (nodup_names gs d)]
    intro n
    rw [mem_names, mem_names, h n]
  exact hperm.eq_of_pairwise (fun _ _ _ _ hab hba => absurd hba (String.lt_asymm hab))
    (fs.pairwise_names d) (gs.pairwise_names d)

/-! ## Changes -/

theorem wellFormed_set (h : fs.WellFormed) {n : Name} {d : Location} {e : Entry}
    (hd : fs.get? d = some .directory) (hn : LegalName n)
    (hold : fs.get? (n :: d) ≠ some .directory) : (fs.set (n :: d) e).WellFormed := by
  have hget := fs.get?_set (List.cons_ne_nil n d) e
  have hkeep : ∀ {l}, fs.get? l = some .directory →
      (fs.set (n :: d) e).get? l = some .directory := by
    intro l hl
    rw [hget, if_neg (by rintro rfl; exact hold hl), hl]
  refine ⟨?_, ?_, ?_⟩
  · intro m k hs
    rw [hget] at hs
    split at hs
    · rename_i heq
      obtain ⟨rfl, rfl⟩ := List.cons.inj heq
      exact hkeep hd
    · exact hkeep (h.parent hs)
  · intro m k hs
    rw [hget] at hs
    split at hs
    · rename_i heq
      obtain ⟨rfl, rfl⟩ := List.cons.inj heq
      exact hn
    · exact h.legal hs
  · intro l hl
    exact (h.home hl).imp_left hkeep

end FileSystem

end Stencil
