import Stencil.Proofs.CopiedTree

/-!
The tree that a walk sees when it follows links.

If each step of a walk puts something into the copy, the walk comes by everything that a path
below its root leads to (`mem_copies_iff`): the copy has the tree that the paths show, with what
stands behind a link in place of the link.
-/

namespace Stencil

namespace FileSystem

variable {fs : FileSystem} {root : Path}

/-- On the way to what a joined path names, its directory is come by. -/
theorem directory_of_status_join (hwf : fs.WellFormed) {p : Path} {n : Name} {e : Entry}
    (hn : LegalName n) (h : fs.status (p.join n) = .ok e) :
    ∃ m d, fs.LeadsTo p m d ∧ fs.get? d = some .directory ∧ (fs.get? (n :: d)).isSome := by
  rw [status] at h
  cases hlocate : fs.locate (p.join n) with
  | error x => simp [hlocate, Except.map] at h
  | ok k =>
    rw [locate_eq_ok_iff] at hlocate
    have hc := check_of_resolve hlocate
    rw [resolve_eq fs _ hc, Path.steps_join p hn.ne_empty,
      startOf_congr (Path.isAbsolute_join p n)] at hlocate
    obtain ⟨m, d, hd, hrest⟩ := exists_leads_of_append (by simp) hlocate
    have hthere : (fs.get? (n :: d)).isSome := by
      obtain ⟨m, rfl⟩ : ∃ i, m = i + 1 := ⟨m - 1, by have := hd.pos; omega⟩
      rw [follow] at hrest
      by_cases henter : fs.canEnter d
      · rw [advance_name .target henter hn] at hrest
        cases hget : fs.get? (n :: d) with
        | none => simp [hget] at hrest
        | some e => rfl
      · rw [advance] at hrest
        simp [henter] at hrest
    exact ⟨m, d, hd, hwf.parent hthere, hthere⟩

/-- A walk that follows links counts an entry as what its path leads to. -/
theorem kind_of_meet {p : Path} {m : Nat} {d : Location} {n : Name} {inside : List Location}
    {kind : Kind} {e : Entry} (hp : fs.LeadsTo p m d) (hd : fs.get? d = some .directory)
    (hn : LegalName n) (hthere : (fs.get? (n :: d)).isSome)
    (hmeet : fs.meet true inside d n (p.join n) = .ok kind)
    (hstatus : fs.status (p.join n) = .ok e) : kind = e.kind := by
  obtain ⟨x, hx⟩ := Option.isSome_iff_exists.1 hthere
  rw [status] at hstatus
  cases hlocate : fs.locate (p.join n) with
  | error y => simp [hlocate, Except.map] at hstatus
  | ok k =>
    have he : fs.entryAt k = e := by simpa [hlocate, Except.map] using hstatus
    rw [meet, hx] at hmeet
    cases hlink : x.isLink with
    | true =>
      cases x with
      | link t =>
        simp only [if_true, hlocate, bind, Except.bind] at hmeet
        split at hmeet
        · simp [throw, throwThe, MonadExceptOf.throw] at hmeet
        · rw [he] at hmeet
          exact (Except.ok.inj hmeet).symm
      | _ => simp [Entry.isLink] at hlink
    | false =>
      have hfound := follow_name .target hp.pos (canEnter_of_directory hd) hn hx hlink
      rw [locate_eq_ok_iff] at hlocate
      rw [resolve_join hp hn.ne_empty (check_of_resolve hlocate), hfound] at hlocate
      obtain rfl : n :: d = k := by simpa using hlocate
      obtain rfl : x = e := by simpa [entryAt, hx] using he
      cases x with
      | link t => simp [Entry.isLink] at hlink
      | _ => exact (Except.ok.inj hmeet).symm

theorem check_joinAll_of_size (hroot : fs.status root = .ok .directory) {r : Location}
    (hlegal : ∀ n ∈ r, LegalName n)
    (hsize : (root.joinAll r).size ≤ maxPathSize) : (root.joinAll r).check = .ok () := by
  obtain ⟨hfree, hpos, -⟩ := Path.check_eq_ok_iff.1 (check_of_status hroot)
  rw [Path.check_eq_ok_iff]
  refine ⟨Path.nulFree_joinAll hfree fun n hn => (hlegal n hn).nul_free, ?_, hsize⟩
  cases r with
  | nil => exact hpos
  | cons n r =>
    have := Path.size_lt_size_join (root.joinAll r) (hlegal n (by simp)).ne_empty
    rw [Path.joinAll_cons]
    omega

section Complete

variable {dest : Path} (hwf : fs.WellFormed) (hroot : fs.status root = .ok .directory)
  (hall : ∀ s ∈ fs.walk true root, (fs.copy? dest s).isSome)

include hwf hroot hall

theorem not_meets_failed (p : Path) (x : SystemError) : ¬ fs.Meets true root (.failed p x) := by
  intro h
  have hs := hall _ ((mem_walk_iff hwf hroot).2 h)
  simp [copy?] at hs

/-- The walk comes by everything that a path leads to. -/
theorem meets_of_status {r : Location} (hne : r ≠ []) (hlegal : ∀ n ∈ r, LegalName n) {e : Entry}
    (h : fs.status (root.joinAll r) = .ok e) :
    fs.Meets true root (.visit ⟨r, root.joinAll r, e.kind⟩) ∧
      (e = .directory → ∃ inside, fs.Opens true root inside (root.joinAll r) r) := by
  induction r generalizing e with
  | nil => exact absurd rfl hne
  | cons n r ih =>
    obtain ⟨hn, hlegal⟩ := List.forall_mem_cons.1 hlegal
    have hsize := (Path.check_eq_ok_iff.1 (check_of_status h)).2.2
    have hlt := Path.size_lt_size_join (root.joinAll r) hn.ne_empty
    rw [Path.joinAll_cons] at h hsize ⊢
    have hp := check_joinAll_of_size hroot hlegal (by omega)
    obtain ⟨m, d, hd, hdir, hthere⟩ := directory_of_status_join hwf hn h
    have hlocate := locate_of_leadsTo hp hd (canEnter_of_directory hdir)
    have hopens : ∃ inside, fs.Opens true root inside (root.joinAll r) r := by
      by_cases hr : r = []
      · subst hr
        exact ⟨[], .root hroot⟩
      · have hstatus : fs.status (root.joinAll r) = .ok .directory := by
          simp [status, hlocate, Except.map, entryAt, hdir]
        exact (ih hr hlegal hstatus).2 rfl
    obtain ⟨inside, ho⟩ := hopens
    have hlist : fs.list (root.joinAll r) = .ok (d, fs.names d) :=
      list_eq_ok_iff.2 ⟨hlocate, by simp [entryAt, hdir, Entry.isDirectory], rfl⟩
    have hmem := (mem_names fs d n).2 hthere
    cases hmeet : fs.meet true (d :: inside) d n ((root.joinAll r).join n) with
    | error x => exact absurd (.refused ho hlist hmem hmeet) (not_meets_failed hwf hroot hall _ _)
    | ok kind =>
      obtain rfl := kind_of_meet hd hdir hn hthere hmeet h
      refine ⟨.visited ho hlist hmem hmeet, ?_⟩
      rintro rfl
      exact ⟨_, .child ho hlist hmem hmeet⟩

/-- A directory that the walk comes by can be listed, so its path leads to one. -/
theorem status_of_visited {v : Visit} (h : fs.Meets true root (.visit v))
    (hkind : v.kind = .directory) : fs.status v.path = .ok .directory := by
  cases h with
  | @visited inside dir below d names n kind ho hl hn hm =>
    obtain rfl : kind = .directory := hkind
    have hopens := Opens.child ho hl hn hm
    cases hsub : fs.list (dir.join n) with
    | error x => exact absurd (.unlisted hopens hsub) (not_meets_failed hwf hroot hall _ _)
    | ok y =>
      obtain ⟨hlocate, hdir, -⟩ := list_eq_ok_iff.1 (show fs.list _ = .ok (y.1, y.2) from hsub)
      rw [status, hlocate]
      cases hentry : fs.entryAt y.1 with
      | directory => simp [Except.map, hentry]
      | _ => simp [hentry, Entry.isDirectory] at hdir

/-- The copy has the tree that the paths below the root of the walk show. -/
theorem mem_copies_iff {r : Location} {e : Entry} (hne : r ≠ []) :
    (r, e) ∈ (fs.walk true root).filterMap (fs.copy? dest) ↔
      (∀ n ∈ r, LegalName n) ∧ fs.status (root.joinAll r) = .ok e := by
  rw [List.mem_filterMap]
  constructor
  · rintro ⟨s, hs, hcopy⟩
    obtain ⟨v, rfl, rfl⟩ := below_of_copy? hcopy
    have hmeets := (mem_walk_iff hwf hroot).1 hs
    refine ⟨hmeets.legal hwf, ?_⟩
    rw [← hmeets.path_eq.1]
    obtain ⟨-, ⟨hkind, rfl⟩ | ⟨-, hstatus, -⟩⟩ := copy?_eq_some hcopy
    · exact status_of_visited hwf hroot hall hmeets hkind
    · exact hstatus
  · rintro ⟨hlegal, hstatus⟩
    have hmeets := (meets_of_status hwf hroot hall hne hlegal hstatus).1
    have hmem := (mem_walk_iff hwf hroot).2 hmeets
    refine ⟨_, hmem, ?_⟩
    obtain ⟨⟨k, x⟩, hx⟩ := Option.isSome_iff_exists.1 (hall _ hmem)
    obtain ⟨rfl, ⟨hkind, rfl⟩ | ⟨-, hstatus', -⟩⟩ := copy?_eq_some hx
    · rw [hx, kind_eq_directory.1 hkind]
    · rw [hx, Except.ok.inj (hstatus.symm.trans hstatus')]

end Complete

end FileSystem

end Stencil
