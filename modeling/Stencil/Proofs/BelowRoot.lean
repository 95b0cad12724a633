import Stencil.Proofs.Walks

/-!
What a walk that follows no link meets below a directory.

`Rooted fs root l` says that the path `root` leads to the directory at `l`. Below it every path
says where it leads, and only its length can speak against it. Main statement: the walk visits what
stands in a directory whose path is not too long, and is refused where the path of a directory is
(`Rooted.mem_walk_iff`).
-/

namespace Stencil

namespace FileSystem

/-- The path `root` leads to the directory at `l`. -/
structure Rooted (fs : FileSystem) (root : Path) (l : Location) : Prop where
  wellFormed : fs.WellFormed
  leads : ∃ m, fs.LeadsTo root m l
  check : root.check = .ok ()
  directory : fs.get? l = some .directory

variable {fs : FileSystem} {root : Path} {l : Location}

theorem Rooted.locate (h : fs.Rooted root l) : fs.locate root = .ok l := by
  obtain ⟨m, hm⟩ := h.leads
  exact locate_of_leadsTo h.check hm (canEnter_of_directory h.directory)

theorem Rooted.status (h : fs.Rooted root l) : fs.status root = .ok .directory := by
  rw [FileSystem.status, h.locate]
  simp [Except.map, entryAt, h.directory]

theorem isDirectory_iff {p : Path} : fs.isDirectory p ↔ fs.status p = .ok .directory := by
  rw [isDirectory]
  cases fs.status p with
  | error x => simp
  | ok e => cases e <;> simp [Entry.isDirectory]

/-- A directory stands where its path leads, unless it is the working directory and was removed;
then there is nothing below it. -/
theorem rooted_or_empty (hwf : fs.WellFormed) (hroot : fs.isDirectory root) :
    ∃ l, fs.locate root = .ok l ∧
      (fs.Rooted root l ∨ fs.walk false root = [] ∧ ∀ r, fs.get? (r ++ l) = none) := by
  have hstatus := isDirectory_iff.1 hroot
  cases hl : fs.locate root with
  | error e => simp [FileSystem.status, hl, Except.map] at hstatus
  | ok l =>
    have hentry : (fs.get? l).getD .directory = .directory := by
      simpa [FileSystem.status, hl, Except.map, entryAt] using hstatus
    obtain ⟨hc, m, hm⟩ := leadsTo_of_locate hl
    refine ⟨l, rfl, ?_⟩
    cases hget : fs.get? l with
    | some e =>
      rw [hget, Option.getD_some] at hentry
      exact .inl ⟨hwf, ⟨m, hm⟩, hc, hget.trans (congrArg some hentry)⟩
    | none =>
      have habsent : ∀ r, fs.get? (r ++ l) = none := fun r =>
        hwf.get?_of_absent hget (List.suffix_append r l)
      have hnames : fs.names l = [] := by
        refine List.eq_nil_iff_forall_not_mem.2 fun n hn => ?_
        have hnone : fs.get? (n :: l) = none := habsent [n]
        simp [mem_names, hnone] at hn
      have hlist : fs.list root = .ok (l, []) :=
        list_eq_ok_iff.2 ⟨hl, by simp [entryAt, hget, Entry.isDirectory], hnames.symm⟩
      obtain ⟨hd, hwalk⟩ := walk_eq false hstatus
      rw [stepsIn_eq hd, hlist] at hwalk
      exact .inr ⟨hwalk, habsent⟩

/-- A root that could be walked is a directory, or has no file below it. -/
theorem rooted_or_bare (hwf : fs.WellFormed) {e : Entry} (hstatus : fs.status root = .ok e) :
    ∃ l, fs.locate root = .ok l ∧ (fs.Rooted root l ∨
      fs.walk false root = [] ∧ ∀ k ≠ [], ∀ b, fs.get? (k ++ l) ≠ some (.file b)) := by
  by_cases hdirectory : e = .directory
  · subst hdirectory
    obtain ⟨l, hlocate, h | ⟨hwalk, habsent⟩⟩ := rooted_or_empty hwf (isDirectory_iff.2 hstatus)
    · exact ⟨l, hlocate, .inl h⟩
    · exact ⟨l, hlocate, .inr ⟨hwalk, fun k _ b => by simp [habsent]⟩⟩
  · have hwalk : fs.walk false root = [] := by
      rw [walk, hstatus]
      cases e <;> first | rfl | exact absurd rfl hdirectory
    cases hlocate : fs.locate root with
    | error x => simp [FileSystem.status, hlocate, Except.map] at hstatus
    | ok l =>
      refine ⟨l, rfl, .inr ⟨hwalk, fun k hk b hb => hdirectory ?_⟩⟩
      have hl := hwf.directory_above hk (Option.isSome_of_eq_some hb)
      simpa [FileSystem.status, hlocate, Except.map, entryAt, hl] using hstatus.symm

section

variable (h : fs.Rooted root l)

include h

theorem Rooted.legal {r : Location} (hs : (fs.get? (r ++ l)).isSome) : ∀ n ∈ r, LegalName n :=
  fun n hn => h.wellFormed.legal_names hs n (List.mem_append_left _ hn)

theorem Rooted.size_root : root.size ≤ maxPathSize := (Path.check_eq_ok_iff.1 h.check).2.2

/-- Only its length can speak against a path. -/
theorem Rooted.check_below {r : Location} (hs : (fs.get? (r ++ l)).isSome) :
    (root.joinAll r).check =
      if (root.joinAll r).size ≤ maxPathSize then .ok () else .error .nameTooLong :=
  Path.check_joinAll h.check (fun n hn => (h.legal hs n hn).ne_empty)
    fun n hn => (h.legal hs n hn).nul_free

/-- What stands above is on a shorter path. -/
theorem Rooted.size_tail {r : Location} (hs : (fs.get? (r ++ l)).isSome)
    (hfit : (root.joinAll r).size ≤ maxPathSize) :
    (root.joinAll r.tail).size ≤ maxPathSize := by
  cases r with
  | nil => exact hfit
  | cons n r =>
    have hlt := Path.size_lt_size_join (root.joinAll r) (h.legal hs n (by simp)).ne_empty
    rw [Path.joinAll_cons] at hfit
    exact Nat.le_of_lt (Nat.lt_of_lt_of_le hlt hfit)

theorem Rooted.list_below {r : Location} (hr : fs.get? (r ++ l) = some .directory) :
    fs.list (root.joinAll r) =
      if (root.joinAll r).size ≤ maxPathSize then .ok (r ++ l, fs.names (r ++ l))
      else .error .nameTooLong := by
  obtain ⟨m, hm⟩ := h.leads
  have hcheck := h.check_below (Option.isSome_of_eq_some hr)
  by_cases hfit : (root.joinAll r).size ≤ maxPathSize
  · rw [if_pos hfit] at hcheck ⊢
    have hleads := hm.joinAll h.wellFormed hr rfl
    refine list_eq_ok_iff.2 ⟨locate_of_leadsTo hcheck hleads (canEnter_of_directory hr), ?_, rfl⟩
    simp [entryAt, hr, Entry.isDirectory]
  · rw [if_neg hfit] at hcheck ⊢
    exact list_of_check hcheck

theorem Rooted.list_root : fs.list root = .ok (l, fs.names l) :=
  (h.list_below (r := []) h.directory).trans (if_pos h.size_root)

theorem Rooted.listed_below {r d : Location} {names : List Name}
    (hr : fs.get? (r ++ l) = some .directory) (hl : fs.list (root.joinAll r) = .ok (d, names)) :
    (root.joinAll r).size ≤ maxPathSize ∧ d = r ++ l ∧ names = fs.names (r ++ l) := by
  rw [h.list_below hr] at hl
  split at hl
  · rename_i hfit
    obtain ⟨rfl, rfl⟩ := Prod.mk.inj (Except.ok.inj hl)
    exact ⟨hfit, rfl, rfl⟩
  · simp at hl

/-! ## The steps of the walk -/

theorem Rooted.directory_of_opens {inside : List Location} {dir : Path} {below : Location}
    (ho : fs.Opens false root inside dir below) :
    fs.get? (below ++ l) = some .directory ∧ (root.joinAll below.tail).size ≤ maxPathSize := by
  induction ho with
  | root _ => exact ⟨h.directory, h.size_root⟩
  | @child inside dir below d names n ho hl hn hm ih =>
    rw [ho.path_eq] at hl
    obtain ⟨hfit, rfl, -⟩ := h.listed_below ih.1 hl
    refine ⟨?_, hfit⟩
    rw [meet_false] at hm
    obtain ⟨e, he⟩ := Option.isSome_iff_exists.1 (get?_of_list h.wellFormed hl hn).1
    rw [he, Option.map_some, Option.getD_some, Except.ok.injEq, kind_eq_directory] at hm
    rw [List.cons_append, he, hm]

/-- The walk goes into every directory that stands in one it can list. -/
theorem Rooted.exists_opens {r : Location} (hr : fs.get? (r ++ l) = some .directory)
    (hfit : (root.joinAll r.tail).size ≤ maxPathSize) :
    ∃ inside, fs.Opens false root inside (root.joinAll r) r := by
  induction r with
  | nil => exact ⟨[], .root h.status⟩
  | cons n r ih =>
    have hs := Option.isSome_of_eq_some hr
    have hparent : fs.get? (r ++ l) = some .directory := h.wellFormed.parent hs
    rw [List.tail_cons] at hfit
    obtain ⟨inside, ho⟩ := ih hparent (h.size_tail (Option.isSome_of_eq_some hparent) hfit)
    have hl := h.list_below hparent
    rw [if_pos hfit] at hl
    refine ⟨_, .child ho hl ((mem_names _ _ _).2 hs) ?_⟩
    rw [meet_false, show fs.get? (n :: (r ++ l)) = some .directory from hr]
    rfl

/-- The walk visits what stands in a directory that it can list, and is refused at each directory
that it comes by and cannot list. -/
theorem Rooted.mem_walk_iff {s : Step} :
    s ∈ fs.walk false root ↔
      (∃ n r e, fs.get? (n :: (r ++ l)) = some e ∧ (root.joinAll r).size ≤ maxPathSize ∧
        s = .visit ⟨n :: r, root.joinAll (n :: r), e.kind⟩) ∨
      ∃ r, fs.get? (r ++ l) = some .directory ∧ (root.joinAll r.tail).size ≤ maxPathSize ∧
        maxPathSize < (root.joinAll r).size ∧ s = .failed (root.joinAll r) .nameTooLong := by
  rw [FileSystem.mem_walk_iff h.wellFormed h.status]
  constructor
  · intro hs
    cases hs with
    | @unlisted inside dir below e ho hl =>
      obtain ⟨hr, hfit⟩ := h.directory_of_opens ho
      rw [ho.path_eq, h.list_below hr] at hl
      split at hl
      · simp at hl
      · rename_i hlong
        obtain rfl := Except.error.inj hl
        exact .inr ⟨below, hr, hfit, Nat.lt_of_not_le hlong, by rw [ho.path_eq]⟩
    | refused _ _ _ hm => simp [meet_false] at hm
    | @visited inside dir below d names n kind ho hl hn hm =>
      obtain ⟨hr, -⟩ := h.directory_of_opens ho
      obtain ⟨e, he⟩ := Option.isSome_iff_exists.1 (get?_of_list h.wellFormed hl hn).1
      rw [ho.path_eq] at hl
      obtain ⟨hfit, rfl, -⟩ := h.listed_below hr hl
      rw [meet_false, he] at hm
      obtain rfl := Except.ok.inj hm
      exact .inl ⟨n, below, e, he, hfit, by rw [ho.path_eq]; rfl⟩
  · rintro (⟨n, r, e, he, hfit, rfl⟩ | ⟨r, hr, hfit, hlong, rfl⟩)
    · have hs := Option.isSome_of_eq_some he
      have hparent := h.wellFormed.parent hs
      obtain ⟨inside, ho⟩ := h.exists_opens hparent
        (h.size_tail (Option.isSome_of_eq_some hparent) hfit)
      have hl := h.list_below hparent
      rw [if_pos hfit] at hl
      refine .visited ho hl ((mem_names _ _ _).2 hs) ?_
      rw [meet_false, he]
      rfl
    · obtain ⟨inside, ho⟩ := h.exists_opens hr hfit
      refine .unlisted ho ?_
      rw [h.list_below hr, if_neg (Nat.not_le_of_lt hlong)]

theorem Rooted.visited {n : Name} {r : Location} {e : Entry}
    (he : fs.get? (n :: r ++ l) = some e) (hfit : (root.joinAll (n :: r)).size ≤ maxPathSize) :
    .visit ⟨n :: r, root.joinAll (n :: r), e.kind⟩ ∈ fs.walk false root := by
  have hparent := h.size_tail (Option.isSome_of_eq_some he) hfit
  rw [List.tail_cons] at hparent
  exact h.mem_walk_iff.2 (.inl ⟨n, r, e, he, hparent, rfl⟩)

/-! ## Files -/

/-- The path of what is no link leads to it. -/
theorem Rooted.resolve_below {r : Location} {e : Entry} (hr : r ≠ [])
    (he : fs.get? (r ++ l) = some e) (hlink : e.isLink = false)
    (hfit : (root.joinAll r).size ≤ maxPathSize) (aim : Aim) :
    fs.resolve aim (root.joinAll r) (root.joinAll r).steps = .ok (.found (r ++ l)) := by
  cases r with
  | nil => exact absurd rfl hr
  | cons n r =>
    obtain ⟨m, hm⟩ := h.leads
    have hs := Option.isSome_of_eq_some he
    have hparent : fs.get? (r ++ l) = some .directory := h.wellFormed.parent hs
    have hn := h.legal hs n (by simp)
    have hcheck := h.check_below hs
    rw [if_pos hfit] at hcheck
    have hleads := hm.joinAll h.wellFormed hparent rfl
    rw [Path.joinAll_cons] at hcheck ⊢
    rw [resolve_join hleads hn.ne_empty hcheck]
    exact follow_name aim hleads.pos (canEnter_of_directory hparent) hn he hlink

theorem Rooted.status_below {r : Location} {e : Entry} (hr : r ≠ [])
    (he : fs.get? (r ++ l) = some e) (hlink : e.isLink = false) :
    fs.status (root.joinAll r) =
      if (root.joinAll r).size ≤ maxPathSize then .ok e else .error .nameTooLong := by
  by_cases hfit : (root.joinAll r).size ≤ maxPathSize
  · rw [if_pos hfit, FileSystem.status,
      locate_eq_ok_iff.2 (h.resolve_below hr he hlink hfit _)]
    simp [Except.map, entryAt, he]
  · have hcheck := h.check_below (Option.isSome_of_eq_some he)
    rw [if_neg hfit] at hcheck ⊢
    rw [FileSystem.status, locate_of_check hcheck]
    rfl

theorem Rooted.ne_nil_of_file {r : Location} {b : ByteArray}
    (hb : fs.get? (r ++ l) = some (.file b)) : r ≠ [] := by
  rintro rfl
  simp [h.directory] at hb

/-- The path of a file leads to it. -/
theorem Rooted.resolve_file {r : Location} {b : ByteArray}
    (hb : fs.get? (r ++ l) = some (.file b)) (hfit : (root.joinAll r).size ≤ maxPathSize)
    (aim : Aim) :
    fs.resolve aim (root.joinAll r) (root.joinAll r).steps = .ok (.found (r ++ l)) :=
  h.resolve_below (h.ne_nil_of_file hb) hb rfl hfit aim

theorem Rooted.read_below {r : Location} {b : ByteArray}
    (hb : fs.get? (r ++ l) = some (.file b)) :
    fs.read (root.joinAll r) =
      if (root.joinAll r).size ≤ maxPathSize then .ok b else .error .nameTooLong := by
  rw [read, h.status_below (h.ne_nil_of_file hb) hb rfl]
  split <;> rfl

/-- A file is written over where it stands. -/
theorem Rooted.write_below {r : Location} {b : ByteArray}
    (hb : fs.get? (r ++ l) = some (.file b)) (hfit : (root.joinAll r).size ≤ maxPathSize)
    (bytes : ByteArray) :
    fs.write (root.joinAll r) bytes = .ok (fs.set (r ++ l) (.file bytes)) := by
  rw [write, h.resolve_file hb hfit]
  simp [bind, Except.bind, entryAt, hb, pure, Except.pure]

end

end FileSystem

end Stencil
