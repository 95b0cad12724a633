import Stencil.Proofs.Walks

/-!
What grows in a new directory.

`Grown fs dest l gs` says that `gs` is `fs` with a directory at `l`, the site of the path `dest`,
and with nothing but directories and files below it. The calls that copy, write and fill in keep
this: on a path below `dest` they act where the path says and nowhere else.
-/

namespace Stencil

namespace FileSystem

structure Grown (fs : FileSystem) (dest : Path) (l : Location) (gs : FileSystem) : Prop where
  old : fs.WellFormed
  site : fs.site? dest = some l
  wellFormed : gs.WellFormed
  same : SameOff l fs gs
  root : gs.get? l = some .directory
  plain : ∀ {r e}, r ≠ [] → gs.get? (r ++ l) = some e → e = .directory ∨ ∃ b, e = .file b
  /-- Every entry can be reached below `dest`. -/
  fits : ∀ {r}, r ≠ [] → (gs.get? (r ++ l)).isSome → (dest.joinAll r).size ≤ maxPathSize

variable {fs gs : FileSystem} {dest : Path} {l : Location}

theorem append_ne_self {r : Location} (hr : r ≠ []) : r ++ l ≠ l := by
  intro h
  exact hr (by simpa using congrArg List.length h)

theorem sameOff_created (fs : FileSystem) (hl : l ≠ []) : SameOff l fs (fs.set l .directory) :=
  SameOff.set ⟨fun _ => rfl, rfl⟩ (List.suffix_refl l) hl _

/-- The new directory is empty. -/
theorem get?_created_below (hwf : fs.WellFormed) (hl : l ≠ []) (hnone : fs.get? l = none)
    {r : Location} (hr : r ≠ []) : (fs.set l .directory).get? (r ++ l) = none := by
  rw [get?_set fs hl, if_neg (append_ne_self hr)]
  exact hwf.get?_of_absent hnone (List.suffix_append r l)

theorem grown_created (hwf : fs.WellFormed) (hsite : fs.site? dest = some l) :
    Grown fs dest l (fs.set l .directory) := by
  obtain ⟨-, hne, hnone, hparent, hlegal⟩ := site_spec hwf hsite
  obtain ⟨n, d, rfl⟩ := List.exists_cons_of_ne_nil hne
  refine ⟨hwf, hsite, ?_, sameOff_created fs hne, ?_, ?_, ?_⟩
  · exact wellFormed_set hwf hparent (hlegal n (by simp)) (by simp [hnone])
  · rw [get?_set fs hne, if_pos rfl]
  · intro r e hr he
    simp [get?_created_below hwf hne hnone hr] at he
  · intro r hr hs
    simp [get?_created_below hwf hne hnone hr] at hs

theorem Grown.set (h : Grown fs dest l gs) {r : Location} {n : Name} {e : Entry}
    (hr : gs.get? (r ++ l) = some .directory) (hn : LegalName n)
    (hfit : (dest.joinAll (n :: r)).size ≤ maxPathSize)
    (hold : gs.get? (n :: (r ++ l)) ≠ some .directory)
    (he : e = .directory ∨ ∃ b, e = .file b) :
    Grown fs dest l (gs.set (n :: (r ++ l)) e) := by
  have hne : n :: (r ++ l) ≠ [] := by simp
  have hsuf : l <:+ n :: (r ++ l) := ⟨n :: r, rfl⟩
  refine ⟨h.old, h.site, wellFormed_set h.wellFormed hr hn hold, h.same.set hsuf hne e, ?_, ?_, ?_⟩
  · have hself : n :: (r ++ l) ≠ l := append_ne_self (List.cons_ne_nil n r)
    rw [get?_set gs hne, if_neg hself.symm, h.root]
  · intro q e' hq hget
    rw [get?_set gs hne] at hget
    split at hget
    · exact Option.some.inj hget ▸ he
    · exact h.plain hq hget
  · intro q hq hs
    rw [get?_set gs hne] at hs
    split at hs
    · rename_i heq
      have hq' : q = n :: r := List.append_cancel_right (heq : q ++ l = (n :: r) ++ l)
      rw [hq']
      exact hfit
    · exact h.fits hq hs

theorem Grown.leads (h : Grown fs dest l gs) : ∃ m, gs.LeadsTo dest m l :=
  leadsTo_site h.old h.site h.same h.root

theorem Grown.check (h : Grown fs dest l gs) : dest.check = .ok () := (site_spec h.old h.site).1

theorem Grown.locate_root (h : Grown fs dest l gs) : gs.locate dest = .ok l := by
  obtain ⟨m, hm⟩ := h.leads
  exact locate_of_leadsTo h.check hm (canEnter_of_directory h.root)

/-- Only its length can speak against a path below the new directory. -/
theorem Grown.check_below (h : Grown fs dest l gs) {r : Location}
    (hlegal : ∀ n ∈ r, LegalName n) :
    (dest.joinAll r).check =
      if (dest.joinAll r).size ≤ maxPathSize then .ok () else .error .nameTooLong :=
  Path.check_joinAll h.check (fun n hn => (hlegal n hn).ne_empty) fun n hn => (hlegal n hn).nul_free

theorem Grown.legal (h : Grown fs dest l gs) {r : Location} (hs : (gs.get? (r ++ l)).isSome) :
    ∀ n ∈ r, LegalName n := fun n hn =>
  h.wellFormed.legal_names hs n (List.mem_append_left _ hn)

theorem Grown.isLink_false (h : Grown fs dest l gs) {r : Location} {e : Entry} (hr : r ≠ [])
    (he : gs.get? (r ++ l) = some e) : e.isLink = false := by
  rcases h.plain hr he with rfl | ⟨b, rfl⟩ <;> rfl

/-- Where a path below the new directory leads: where it says. -/
def placeBelow (gs : FileSystem) (k : Location) (n : Name) : Place :=
  if (gs.get? (n :: k)).isSome then .found (n :: k) else .vacant k n

section Below

variable (h : Grown fs dest l gs) {r : Location} {n : Name}
  (hr : gs.get? (r ++ l) = some .directory) (hn : LegalName n)

include h hr hn

theorem Grown.follow_below (aim : Aim) :
    gs.follow aim (maxLinks + 1) (startOf gs.workingDirectory dest)
      (dest.joinAll (n :: r)).components = .ok (gs.placeBelow (r ++ l) n) := by
  obtain ⟨m, hm⟩ := h.leads
  have hleads := hm.joinAll h.wellFormed hr rfl
  have henter := canEnter_of_directory hr
  rw [Path.joinAll_cons, Path.components_join _ hn.ne_empty,
    startOf_congr (Path.isAbsolute_joinAll dest r).symm]
  rw [hleads.follow_append aim (by simp) (by simp [hn.ne_empty.symm]), placeBelow]
  cases hget : gs.get? (n :: (r ++ l)) with
  | none => simpa using follow_name_vacant aim hleads.pos henter hn hget
  | some e =>
    have hlink : e.isLink = false := h.isLink_false (List.cons_ne_nil n r) hget
    simpa using follow_name aim hleads.pos henter hn hget hlink

theorem Grown.resolve_below (aim : Aim) (hc : (dest.joinAll (n :: r)).check = .ok ()) :
    gs.resolve aim (dest.joinAll (n :: r)) (dest.joinAll (n :: r)).steps =
      .ok (gs.placeBelow (r ++ l) n) := by
  have hsteps : (dest.joinAll (n :: r)).steps = (dest.joinAll (n :: r)).components := by
    rw [Path.joinAll_cons, Path.steps_join _ hn.ne_empty, Path.components_join _ hn.ne_empty]
  rw [resolve_eq gs aim hc, hsteps, startOf_congr (Path.isAbsolute_joinAll dest (n :: r))]
  exact h.follow_below hr hn aim

/-- A file is written where its path says, unless a directory is there. -/
theorem Grown.write_below (b : ByteArray) :
    ((dest.joinAll (n :: r)).size ≤ maxPathSize ∧ gs.get? (n :: (r ++ l)) ≠ some .directory ∧
      gs.write (dest.joinAll (n :: r)) b = .ok (gs.set (n :: (r ++ l)) (.file b))) ∨
    ∃ e, gs.write (dest.joinAll (n :: r)) b = .error e ∧
      (maxPathSize < (dest.joinAll (n :: r)).size ∨
        gs.get? (n :: (r ++ l)) = some .directory) := by
  have hc := h.check_below (List.forall_mem_cons.2 ⟨hn, h.legal (Option.isSome_of_eq_some hr)⟩)
  have hres := h.resolve_below hr hn .file
  generalize dest.joinAll (n :: r) = p at hc hres ⊢
  by_cases hfit : p.size ≤ maxPathSize
  · rw [if_pos hfit] at hc
    rw [write, hres hc, placeBelow]
    cases hget : gs.get? (n :: (r ++ l)) with
    | none =>
      left
      simp [hfit, bind, Except.bind, add, hr]
    | some e =>
      rcases h.plain (List.cons_ne_nil n r) hget with rfl | ⟨b', rfl⟩
      · right
        simp [bind, Except.bind, entryAt, hget, throw, throwThe, MonadExceptOf.throw]
      · left
        simp [hfit, bind, Except.bind, entryAt, hget, pure, Except.pure]
  · right
    rw [if_neg hfit] at hc
    refine ⟨.nameTooLong, ?_, .inl (by omega)⟩
    simp [write, resolve, hc, bind, Except.bind]

/-- A directory is made where its path says, unless a file is there. -/
theorem Grown.createDirectories_below :
    ((dest.joinAll (n :: r)).size ≤ maxPathSize ∧ gs.get? (n :: (r ++ l)) = none ∧
      gs.createDirectories (dest.joinAll (n :: r)) =
        .ok (gs.set (n :: (r ++ l)) .directory)) ∨
    (gs.get? (n :: (r ++ l)) = some .directory ∧
      gs.createDirectories (dest.joinAll (n :: r)) = .ok gs) ∨
    ∃ e, gs.createDirectories (dest.joinAll (n :: r)) = .error e ∧
      (maxPathSize < (dest.joinAll (n :: r)).size ∨
        ∃ b, gs.get? (n :: (r ++ l)) = some (.file b)) := by
  have hc := h.check_below (List.forall_mem_cons.2 ⟨hn, h.legal (Option.isSome_of_eq_some hr)⟩)
  by_cases hfit : (dest.joinAll (n :: r)).size ≤ maxPathSize
  · rw [if_pos hfit] at hc
    have hcomp : (dest.joinAll (n :: r)).components ≠ [] := by
      rw [Path.joinAll_cons, Path.components_join _ hn.ne_empty]
      simp
    have hfollow := h.follow_below hr hn .entry
    rw [← startOf_congr (Path.isAbsolute_joinAll dest (n :: r)),
      ← resolve_tidy gs .entry hcomp hc, placeBelow] at hfollow
    rw [createDirectories_eq gs hcomp hc, createDirectory, create, hfollow]
    cases hget : gs.get? (n :: (r ++ l)) with
    | none =>
      left
      exact ⟨hfit, rfl, by simp [bind, Except.bind, add, hr]⟩
    | some e =>
      obtain ⟨m, hm⟩ := h.leads
      have hleads : gs.LeadsTo (dest.joinAll (n :: r)) m (n :: (r ++ l)) :=
        hm.joinAll h.wellFormed (r := n :: r) hget (h.isLink_false (List.cons_ne_nil n r) hget)
      have hdir := isDirectory_tidy hcomp hc hleads hget
      right
      rcases h.plain (List.cons_ne_nil n r) hget with rfl | ⟨b, rfl⟩
      · left
        refine ⟨rfl, ?_⟩
        simp only [Option.isSome_some, if_true, bind, Except.bind, throw, throwThe,
          MonadExceptOf.throw]
        rw [hdir, Entry.isDirectory, if_pos rfl]
      · right
        refine ⟨.alreadyExists, ?_, .inr ⟨b, rfl⟩⟩
        simp only [Option.isSome_some, if_true, bind, Except.bind, throw, throwThe,
          MonadExceptOf.throw]
        rw [hdir, if_neg (by simp [Entry.isDirectory])]
  · rw [if_neg hfit] at hc
    right
    right
    refine ⟨.nameTooLong, ?_, .inl (by omega)⟩
    have hpos : (dest.joinAll (n :: r)).size ≠ 0 := by omega
    rw [createDirectories, if_neg hpos, hc]
    rfl

end Below

end FileSystem

end Stencil
