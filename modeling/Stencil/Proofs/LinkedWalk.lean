import Mathlib.Data.List.Perm.Subperm
import Stencil.Proofs.Outcomes

/-!
Walks over links.

`Enters` says where a walk that follows links goes, by the entries alone: from a directory into
those that stand in it and, over a link, into one that is not open. Every such step is taken while
the copying can go on (`Enters.opens`, `Opens.enters`), and it can go on to the end exactly if all
that is met can be copied (`copyable_iff`). However the links lie, the number of directories that
are open at once is bounded (`Enters.length_le`): in a stretch between two links each directory is
longer than the one above, and each stretch begins where none has begun.
-/

namespace Stencil

namespace FileSystem

/-- A walk through `root` comes to the directory at `d`, at the place `below`, while the directories
`above` are open. A link is followed into a directory that is not open. -/
inductive Enters (fs : FileSystem) (root : Path) : List Location → Location → Location → Prop
  | root {d} : fs.locate root = .ok d → fs.entryAt d = .directory → Enters fs root [] d []
  | directory {above d below n} : Enters fs root above d below →
      fs.get? (n :: d) = some .directory → Enters fs root (d :: above) (n :: d) (n :: below)
  | link {above d below n t k} : Enters fs root above d below →
      fs.get? (n :: d) = some (.link t) → fs.locate (root.joinAll (n :: below)) = .ok k →
      fs.entryAt k = .directory → k ∉ d :: above → Enters fs root (d :: above) k (n :: below)

/-- The walk meets the entry `e` at the place `k`, while the directories `opened` are open. -/
inductive Comes (fs : FileSystem) (root : Path) : List Location → Location → Entry → Prop
  | entry {above d below n e} : Enters fs root above d below → fs.get? (n :: d) = some e →
      Comes fs root (d :: above) (n :: below) e

/-- What can be copied when it is met on `path`: directories and files, and links that lead to a
file or to a directory that is not open. -/
def Sound (fs : FileSystem) (opened : List Location) (path : Path) : Entry → Prop
  | .directory | .file _ => True
  | .link _ => ∃ k, fs.locate path = .ok k ∧
      ((fs.entryAt k = .directory ∧ k ∉ opened) ∨ ∃ b, fs.entryAt k = .file b)
  | .pipe | .socket => False

variable {fs : FileSystem} {root : Path}

/-! ## How many directories are open -/

theorem length_le_of_nodup {ls : List Location} (hnodup : ls.Nodup)
    (hs : ∀ l ∈ ls, (fs.get? l).isSome) : ls.length ≤ fs.entries.length + 1 := by
  have hsub : ls ⊆ [] :: fs.entries.map (·.1) := by
    intro l hl
    cases l with
    | nil => simp
    | cons n d =>
      have hlookup : (fs.entries.lookup (n :: d)).isSome := hs _ hl
      obtain ⟨e, he, hfst⟩ := List.lookup_isSome_iff.1 hlookup
      refine List.mem_cons_of_mem _ (List.mem_map.2 ⟨e, he, ?_⟩)
      exact (beq_iff_eq.1 hfst).symm
  simpa using (List.subperm_of_subset hnodup hsub).length_le

theorem nodup_tails (l : Location) : l.tails.Nodup := by
  induction l with
  | nil => simp
  | cons n d ih =>
    rw [List.tails_cons, List.nodup_cons]
    refine ⟨fun hmem => ?_, ih⟩
    have hlength := ((List.mem_tails _ _).1 hmem).length_le
    rw [List.length_cons] at hlength
    omega

/-- All that stands above an entry is there too. -/
theorem length_le_entries (hwf : fs.WellFormed) {l : Location} (hs : (fs.get? l).isSome) :
    l.length ≤ fs.entries.length := by
  have habove : ∀ k ∈ l.tails, (fs.get? k).isSome := by
    intro k hk
    obtain ⟨r, rfl⟩ := (List.mem_tails _ _).1 hk
    by_cases hr : r = []
    · subst hr
      exact hs
    · exact Option.isSome_of_eq_some (hwf.directory_above hr hs)
  simpa using length_le_of_nodup (nodup_tails l) habove

theorem Enters.isSome_above (hwf : fs.WellFormed) {above : List Location} {d below : Location}
    (h : fs.Enters root above d below) : ∀ k ∈ above, (fs.get? k).isSome := by
  induction h with
  | root => simp
  | directory _ hget ih =>
    exact List.forall_mem_cons.2
      ⟨Option.isSome_of_eq_some (hwf.parent (Option.isSome_of_eq_some hget)), ih⟩
  | link _ hget _ _ _ ih =>
    exact List.forall_mem_cons.2
      ⟨Option.isSome_of_eq_some (hwf.parent (Option.isSome_of_eq_some hget)), ih⟩

/-- The stretches of a walk: `start` is where the one begins that it is in, and `starts` are where
those before it began. None begins where another has, and each has no more directories than there
can stand one below the other. -/
theorem Enters.exists_starts (hwf : fs.WellFormed) {above : List Location} {d below : Location}
    (h : fs.Enters root above d below) :
    ∃ start starts, (start :: starts).Nodup ∧ starts ⊆ above ∧ start ∈ d :: above ∧
      above.length ≤ starts.length * (fs.entries.length + 1) + d.length := by
  induction h with
  | @root d => exact ⟨d, [], by simp, by simp, by simp, by simp⟩
  | @directory above d below n _ _ ih =>
    obtain ⟨start, starts, hnodup, hstarts, hstart, hlength⟩ := ih
    refine ⟨start, starts, hnodup, fun k hk => List.mem_cons_of_mem d (hstarts hk),
      List.mem_cons_of_mem _ hstart, ?_⟩
    simp only [List.length_cons]
    omega
  | @link above d below n t k _ hget _ _ hnew ih =>
    obtain ⟨start, starts, hnodup, hstarts, hstart, hlength⟩ := ih
    have hsub : start :: starts ⊆ d :: above :=
      List.cons_subset.2 ⟨hstart, fun k hk => List.mem_cons_of_mem d (hstarts hk)⟩
    have hd := length_le_entries hwf
      (Option.isSome_of_eq_some (hwf.parent (Option.isSome_of_eq_some hget)))
    refine ⟨k, start :: starts, List.nodup_cons.2 ⟨fun hk => hnew (hsub hk), hnodup⟩, hsub,
      by simp, ?_⟩
    simp only [List.length_cons, Nat.succ_mul]
    omega

/-- However the links lie, a walk has no more directories open than a number that the entries of
the file system give. -/
theorem Enters.length_le (hwf : fs.WellFormed) {above : List Location} {d below : Location}
    (h : fs.Enters root above d below) :
    above.length ≤ (fs.entries.length + 1) * (fs.entries.length + 1) := by
  cases above with
  | nil => exact Nat.zero_le _
  | cons d' above =>
    have hsome := h.isSome_above hwf
    have hparent : ∃ below', fs.Enters root above d' below' := by
      cases h with
      | directory h _ => exact ⟨_, h⟩
      | link h _ _ _ _ => exact ⟨_, h⟩
    obtain ⟨below', h'⟩ := hparent
    obtain ⟨start, starts, hnodup, hstarts, hstart, hlength⟩ := h'.exists_starts hwf
    have hcount := length_le_of_nodup hnodup fun k hk => by
      rcases List.mem_cons.1 hk with rfl | hk
      · exact hsome _ hstart
      · exact hsome _ (List.mem_cons_of_mem _ (hstarts hk))
    have hd := length_le_entries hwf (hsome d' (by simp))
    rw [List.length_cons] at hcount ⊢
    have hmul : starts.length * (fs.entries.length + 1) ≤
        fs.entries.length * (fs.entries.length + 1) :=
      Nat.mul_le_mul_right _ (by omega)
    rw [Nat.succ_mul]
    omega

/-! ## What an entry counts as -/

theorem status_of_locate {p : Path} {l : Location} (h : fs.locate p = .ok l) :
    fs.status p = .ok (fs.entryAt l) := by
  rw [status, h]
  rfl

theorem isDirectory_iff_entry {e : Entry} : e.isDirectory ↔ e = .directory := by
  cases e <;> simp [Entry.isDirectory]

theorem list_of_locate {p : Path} {l : Location} (h : fs.locate p = .ok l)
    (hd : fs.entryAt l = .directory) : fs.list p = .ok (l, fs.names l) :=
  list_eq_ok_iff.2 ⟨h, isDirectory_iff_entry.2 hd, rfl⟩

/-- The path of what is no link leads to it. -/
theorem locate_join {p : Path} {d : Location} {n : Name} {e : Entry} (hp : fs.locate p = .ok d)
    (hd : fs.get? d = some .directory) (hn : LegalName n) (he : fs.get? (n :: d) = some e)
    (hlink : e.isLink = false) (hfit : (p.join n).size ≤ maxPathSize) :
    fs.locate (p.join n) = .ok (n :: d) := by
  obtain ⟨hc, m, hm⟩ := leadsTo_of_locate hp
  have hc' := Path.check_join (Path.check_eq_ok_iff.1 hc).1 hn.ne_empty hn.nul_free
  rw [if_pos hfit] at hc'
  rw [locate_eq_ok_iff, resolve_join hm hn.ne_empty hc']
  exact follow_name .target hm.pos (canEnter_of_directory hd) hn he hlink

theorem meet_link {opened : List Location} {d : Location} {n : Name} {path t : Path}
    (h : fs.get? (n :: d) = some (.link t)) :
    fs.meet true opened d n path =
      match fs.locate path with
      | .error x => .error x
      | .ok k =>
        if fs.entryAt k = .directory ∧ k ∈ opened then .error .linkToAncestor
        else .ok (fs.entryAt k).kind := by
  rw [meet, h]
  cases fs.locate path with
  | error x => rfl
  | ok k =>
    simp only [if_true, bind, Except.bind, Bool.and_eq_true, List.contains_iff_mem,
      isDirectory_iff_entry]
    split <;> rfl

/-- What the walk goes into: a directory, or over a link one that is not open. -/
theorem meet_eq_directory_iff {opened : List Location} {d : Location} {n : Name} {path : Path}
    {e : Entry} (he : fs.get? (n :: d) = some e) :
    fs.meet true opened d n path = .ok .directory ↔
      e = .directory ∨ ∃ t k, e = .link t ∧ fs.locate path = .ok k ∧
        fs.entryAt k = .directory ∧ k ∉ opened := by
  cases hlink : e.isLink with
  | true =>
    cases e with
    | link t =>
      rw [meet_link he]
      cases fs.locate path with
      | error x => simp
      | ok k =>
        by_cases hloop : fs.entryAt k = .directory ∧ k ∈ opened
        · simp [hloop]
        · simp only [if_neg hloop, Except.ok.injEq, kind_eq_directory]
          simp only [not_and] at hloop
          constructor
          · intro hdir
            exact .inr ⟨t, k, rfl, rfl, hdir, hloop hdir⟩
          · rintro (h | ⟨t', k', -, rfl, hdir, -⟩)
            · cases h
            · exact hdir
    | _ => cases hlink
  | false =>
    rw [meet_of_not_link he hlink, Except.ok.injEq, kind_eq_directory]
    refine ⟨.inl, ?_⟩
    rintro (h | ⟨t, k, rfl, -⟩)
    · exact h
    · cases hlink

/-- The walk goes on at what can be copied. -/
theorem Sound.exists_kind {opened : List Location} {d : Location} {n : Name} {path : Path}
    {e : Entry} (h : fs.Sound opened path e) (he : fs.get? (n :: d) = some e) :
    ∃ kind, fs.meet true opened d n path = .ok kind := by
  cases e with
  | link t =>
    obtain ⟨k, hk, ⟨hdir, hnew⟩ | ⟨b, hb⟩⟩ := h
    · exact ⟨_, (meet_eq_directory_iff he).2 (.inr ⟨t, k, rfl, hk, hdir, hnew⟩)⟩
    · rw [meet_link he]
      simp [hk, hb]
  | _ => exact ⟨_, meet_of_not_link he rfl⟩

/-! ## The walk that the copying takes -/

section Walk

variable (hwf : fs.WellFormed)

include hwf

/-- What is listed leads on. -/
theorem Opens.enters {inside : List Location} {dir : Path} {below d : Location}
    {names : List Name} (ho : fs.Opens true root inside dir below)
    (hl : fs.list dir = .ok (d, names)) : fs.Enters root inside d below := by
  induction ho generalizing d names with
  | root _ =>
    obtain ⟨hlocate, hdir, -⟩ := list_eq_ok_iff.1 hl
    exact .root hlocate (isDirectory_iff_entry.1 hdir)
  | @child inside dir below d₀ names₀ n ho hl₀ hn hm ih =>
    obtain ⟨hlocate, hdir, -⟩ := list_eq_ok_iff.1 hl
    obtain ⟨hthere, hparent, hlegal⟩ := get?_of_list hwf hl₀ hn
    obtain ⟨e, he⟩ := Option.isSome_iff_exists.1 hthere
    have hbefore := ih hl₀
    rcases (meet_eq_directory_iff he).1 hm with rfl | ⟨t, k, rfl, hk, hkdir, hnew⟩
    · have hfit := (Path.check_eq_ok_iff.1 (check_of_list hl)).2.2
      have hself := locate_join (list_eq_ok_iff.1 hl₀).1 hparent hlegal he rfl hfit
      obtain rfl : n :: d₀ = d := Except.ok.inj (hself.symm.trans hlocate)
      exact .directory hbefore he
    · obtain rfl : k = d := Except.ok.inj (hk.symm.trans hlocate)
      rw [ho.path_eq] at hlocate
      exact .link hbefore he hlocate hkdir hnew

theorem Opens.comes {inside : List Location} {dir : Path} {below d : Location}
    {names : List Name} {n : Name} (ho : fs.Opens true root inside dir below)
    (hl : fs.list dir = .ok (d, names)) (hn : n ∈ names) :
    ∃ e, fs.get? (n :: d) = some e ∧ fs.Comes root (d :: inside) (n :: below) e := by
  obtain ⟨e, he⟩ := Option.isSome_iff_exists.1 (get?_of_list hwf hl hn).1
  exact ⟨e, he, .entry (ho.enters hwf hl) he⟩

theorem Enters.legal {above : List Location} {d below : Location}
    (h : fs.Enters root above d below) : ∀ n ∈ below, LegalName n := by
  induction h with
  | root => simp
  | directory _ hget ih =>
    exact List.forall_mem_cons.2 ⟨hwf.legal (Option.isSome_of_eq_some hget), ih⟩
  | link _ hget _ _ _ ih =>
    exact List.forall_mem_cons.2 ⟨hwf.legal (Option.isSome_of_eq_some hget), ih⟩

/-- All that is met can be copied, and no path is too long for it. -/
def AllSound (fs : FileSystem) (root dest : Path) : Prop :=
  ∀ opened k e, fs.Comes root opened k e → fs.Sound opened (root.joinAll k) e ∧
    (root.joinAll k).size ≤ maxPathSize ∧ (dest.joinAll k).size ≤ maxPathSize

variable {dest : Path}

section Sound

variable (hall : fs.AllSound root dest)

include hall

/-- Where the walk goes it finds a directory. -/
theorem Opens.listed {inside : List Location} {dir : Path} {below : Location}
    (ho : fs.Opens true root inside dir below) : ∃ d, fs.list dir = .ok (d, fs.names d) := by
  cases ho with
  | root hroot =>
    rw [status] at hroot
    cases hl : fs.locate root with
    | error x => simp [hl, Except.map] at hroot
    | ok d => exact ⟨d, list_of_locate hl (by simpa [hl, Except.map] using hroot)⟩
  | @child inside dir below d names n ho hl hn hm =>
    obtain ⟨-, hparent, hlegal⟩ := get?_of_list hwf hl hn
    obtain ⟨e, he, hcomes⟩ := ho.comes hwf hl hn
    obtain ⟨-, hfit, -⟩ := hall _ _ _ hcomes
    rw [Path.joinAll_cons, ← ho.path_eq] at hfit
    rcases (meet_eq_directory_iff he).1 hm with rfl | ⟨t, k, -, hk, hkdir, -⟩
    · have hself := locate_join (list_eq_ok_iff.1 hl).1 hparent hlegal he rfl hfit
      exact ⟨_, list_of_locate hself (by simp [entryAt, he])⟩
    · exact ⟨k, list_of_locate hk hkdir⟩

theorem copyable_of_allSound (hroot : fs.status root = .ok .directory) :
    fs.Copyable dest root := by
  intro s hs
  cases (mem_walk_iff hwf hroot).1 hs with
  | unlisted ho hl =>
    obtain ⟨d, hd⟩ := ho.listed hwf hall
    simp [hl] at hd
  | @refused inside dir below d names n x ho hl hn hm =>
    obtain ⟨e, he, hcomes⟩ := ho.comes hwf hl hn
    obtain ⟨hsound, -⟩ := hall _ _ _ hcomes
    rw [Path.joinAll_cons, ← ho.path_eq] at hsound
    obtain ⟨kind, hkind⟩ := hsound.exists_kind he
    simp [hm] at hkind
  | @visited inside dir below d names n kind ho hl hn hm =>
    obtain ⟨-, hparent, hlegal⟩ := get?_of_list hwf hl hn
    obtain ⟨e, he, hcomes⟩ := ho.comes hwf hl hn
    obtain ⟨hsound, hfit, hcopy⟩ := hall _ _ _ hcomes
    rw [Path.joinAll_cons, ← ho.path_eq] at hsound hfit
    have hshort : ¬ (dest.joinAll (n :: below)).size > maxPathSize := Nat.not_lt_of_le hcopy
    by_cases hkind : kind = .directory
    · subst hkind
      rw [copy?, if_neg hshort]
      rfl
    · have hfile : ∃ b, fs.status (dir.join n) = .ok (.file b) := by
        cases e with
        | directory =>
          exact absurd (Except.ok.inj (hm.symm.trans (meet_of_not_link he rfl))) hkind
        | file b =>
          have hself := locate_join (list_eq_ok_iff.1 hl).1 hparent hlegal he rfl hfit
          exact ⟨b, by rw [status_of_locate hself, entryAt, he, Option.getD_some]⟩
        | link t =>
          obtain ⟨k, hk, ⟨hdir, hnew⟩ | ⟨b, hb⟩⟩ := hsound
          · have hmeet := (meet_eq_directory_iff he).2 (.inr ⟨t, k, rfl, hk, hdir, hnew⟩)
            exact absurd (Except.ok.inj (hm.symm.trans hmeet)) hkind
          · exact ⟨b, by rw [status_of_locate hk, hb]⟩
        | pipe => exact hsound.elim
        | socket => exact hsound.elim
      obtain ⟨b, hb⟩ := hfile
      rw [copy?_of_ne_directory hkind, if_neg hshort, hb]
      rfl

end Sound

section Copyable

variable (hroot : fs.status root = .ok .directory) (hall : fs.Copyable dest root)

include hroot hall

/-- The copying goes wherever the walk over links does. -/
theorem Enters.opens {above : List Location} {d below : Location}
    (h : fs.Enters root above d below) :
    fs.Opens true root above (root.joinAll below) below ∧
      fs.list (root.joinAll below) = .ok (d, fs.names d) := by
  induction h with
  | root hlocate hdir => exact ⟨.root hroot, list_of_locate hlocate hdir⟩
  | @directory above d below n _ hget ih =>
    obtain ⟨ho, hl⟩ := ih
    have hn := (mem_names fs d n).2 (Option.isSome_of_eq_some hget)
    have hm : fs.meet true (d :: above) d n ((root.joinAll below).join n) = .ok .directory :=
      (meet_eq_directory_iff hget).2 (.inl rfl)
    have hchild := Opens.child ho hl hn hm
    refine ⟨hchild, ?_⟩
    cases hsub : fs.list (root.joinAll (n :: below)) with
    | error x => exact absurd (.unlisted hchild hsub) (not_meets_failed hwf hroot hall _ _)
    | ok y =>
      obtain ⟨-, hparent, hlegal⟩ := get?_of_list hwf hl hn
      have hfit := (Path.check_eq_ok_iff.1 (check_of_list hsub)).2.2
      have hself := locate_join (list_eq_ok_iff.1 hl).1 hparent hlegal hget rfl hfit
      rw [← hsub]
      exact list_of_locate hself (by simp [entryAt, hget])
  | @link above d below n t k _ hget hk hdir hnew ih =>
    obtain ⟨ho, hl⟩ := ih
    have hn := (mem_names fs d n).2 (Option.isSome_of_eq_some hget)
    have hm : fs.meet true (d :: above) d n ((root.joinAll below).join n) = .ok .directory :=
      (meet_eq_directory_iff hget).2 (.inr ⟨t, k, rfl, hk, hdir, hnew⟩)
    exact ⟨.child ho hl hn hm, list_of_locate hk hdir⟩

/-- What is met is put into the copy as what its path leads to. -/
theorem Comes.copied {opened : List Location} {k : Location} {e : Entry}
    (h : fs.Comes root opened k e) :
    fs.Sound opened (root.joinAll k) e ∧ ∃ x, fs.status (root.joinAll k) = .ok x ∧
      (k, x) ∈ fs.copies dest (fs.walk true root) := by
  cases h with
  | @entry above d below n e hent he =>
    obtain ⟨ho, hl⟩ := hent.opens hwf hroot hall
    have hn := (mem_names fs d n).2 (Option.isSome_of_eq_some he)
    obtain ⟨-, hparent, hlegal⟩ := get?_of_list hwf hl hn
    rw [Path.joinAll_cons]
    cases hm : fs.meet true (d :: above) d n ((root.joinAll below).join n) with
    | error x => exact absurd (.refused ho hl hn hm) (not_meets_failed hwf hroot hall _ _)
    | ok kind =>
      have hmeets := Meets.visited ho hl hn hm
      have hmem := (mem_walk_iff hwf hroot).2 hmeets
      obtain ⟨⟨k, x⟩, hcopy⟩ := Option.isSome_iff_exists.1 (hall _ hmem)
      obtain ⟨rfl, hx⟩ := copy?_eq_some hcopy
      have hcopied : (n :: below, x) ∈ fs.copies dest (fs.walk true root) :=
        List.mem_filterMap.2 ⟨_, hmem, hcopy⟩
      rcases hx with ⟨hkind, rfl⟩ | ⟨hkind, hstatus, b, rfl⟩
      · obtain rfl : kind = .directory := hkind
        have hstatus := status_of_visited hwf hroot hall hmeets rfl
        refine ⟨?_, _, hstatus, hcopied⟩
        rcases (meet_eq_directory_iff he).1 hm with rfl | ⟨t, k, rfl, hk, hdir, hnew⟩
        · trivial
        · exact ⟨k, hk, .inl ⟨hdir, hnew⟩⟩
      · refine ⟨?_, _, hstatus, hcopied⟩
        have hfit := (Path.check_eq_ok_iff.1 (check_of_status hstatus)).2.2
        -- what is no link stands where its path leads
        have hself : e.isLink = false → e = .file b := by
          intro hlink
          have hlocate := locate_join (list_eq_ok_iff.1 hl).1 hparent hlegal he hlink hfit
          simpa [status_of_locate hlocate, entryAt, he] using hstatus
        cases e with
        | directory => trivial
        | file b => trivial
        | link t =>
          rw [status] at hstatus
          cases hk : fs.locate ((root.joinAll below).join n) with
          | error x => simp [hk, Except.map] at hstatus
          | ok k => exact ⟨k, hk, .inr ⟨b, by simpa [hk, Except.map] using hstatus⟩⟩
        | pipe => cases hself rfl
        | socket => cases hself rfl

theorem allSound_of_copyable : fs.AllSound root dest := by
  intro opened k e h
  obtain ⟨hsound, x, hstatus, hcopied⟩ := h.copied hwf hroot hall
  refine ⟨hsound, (Path.check_eq_ok_iff.1 (check_of_status hstatus)).2.2, ?_⟩
  obtain ⟨s, -, hcopy⟩ := List.mem_filterMap.1 hcopied
  obtain ⟨v, rfl, rfl⟩ := below_of_copy? hcopy
  by_contra hlong
  rw [copy?, if_pos (by omega)] at hcopy
  cases hcopy

/-- The copy holds what the walk meets, each as what its path leads to. -/
theorem mem_copies_iff_comes {k : Location} {x : Entry} (hne : k ≠ []) :
    (k, x) ∈ fs.copies dest (fs.walk true root) ↔
      (∃ opened e, fs.Comes root opened k e) ∧ fs.status (root.joinAll k) = .ok x := by
  rw [copies, mem_copies_iff hwf hroot hall hne]
  constructor
  · rintro ⟨hlegal, hstatus⟩
    refine ⟨?_, hstatus⟩
    have hmeets := (meets_of_status hwf hroot hall hne hlegal hstatus).1
    generalize hv : (⟨k, root.joinAll k, x.kind⟩ : Visit) = v at hmeets
    cases hmeets with
    | @visited inside dir below d names n kind ho hl hn hm =>
      obtain ⟨e, -, hcomes⟩ := ho.comes hwf hl hn
      obtain ⟨rfl, -, -⟩ : k = n :: below ∧ root.joinAll k = dir.join n ∧ x.kind = kind := by
        simpa using hv
      exact ⟨_, e, hcomes⟩
  · rintro ⟨⟨opened, e, h⟩, hstatus⟩
    refine ⟨?_, hstatus⟩
    cases h with
    | entry hent he =>
      exact List.forall_mem_cons.2 ⟨hwf.legal (Option.isSome_of_eq_some he), hent.legal hwf⟩

end Copyable

/-- The walk can be copied to its end exactly if all that is met can be copied. -/
theorem copyable_iff (hroot : fs.status root = .ok .directory) :
    fs.Copyable dest root ↔ fs.AllSound root dest :=
  ⟨allSound_of_copyable hwf hroot, fun hall => copyable_of_allSound hwf hall hroot⟩

end Walk

end FileSystem

end Stencil
