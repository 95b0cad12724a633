import Stencil.Proofs.LinkedWalk

/-!
Copying a template that holds links.

The copying never waits where the walk meets no pipe (`materialize_returns`). Main statement: it
comes to its end exactly if all that the walk meets can be copied, and then the destination holds
what the walk has met, each as what its path leads to (`materialize_unfolds`).
-/

namespace Stencil

open FileSystem Run

namespace FileSystem

variable {fs gs : FileSystem}

/-! ## Calls that do not wait -/

theorem ne_waiting_of_isOfPath {e : SystemError} (h : e.isOfPath) : e ≠ .waiting := by
  rintro rfl
  cases h

theorem list_error {p : Path} {e : SystemError} (h : fs.list p = .error e) : e.isOfPath := by
  rw [list] at h
  cases hl : fs.locate p with
  | error x =>
    obtain rfl : x = e := by simpa [hl, bind, Except.bind] using h
    exact locate_error hl
  | ok l =>
    simp only [hl, bind, Except.bind] at h
    split at h
    · cases h
    · exact Except.error.inj h ▸ rfl

theorem meet_error {opened : List Location} {d : Location} {n : Name} {path : Path}
    {e : SystemError} (h : fs.meet true opened d n path = .error e) : e ≠ .waiting := by
  cases hget : fs.get? (n :: d) with
  | none => simp [meet, hget, pure, Except.pure] at h
  | some x =>
    cases hlink : x.isLink with
    | false => simp [meet_of_not_link hget hlink] at h
    | true =>
      cases x with
      | link t =>
        rw [meet_link hget] at h
        split at h
        · rename_i y hl
          exact Except.error.inj h ▸ ne_waiting_of_isOfPath (locate_error hl)
        · split at h
          · obtain rfl := Except.error.inj h
            simp
          · cases h
      | _ => cases hlink

theorem createDirectory_error {p : Path} {e : SystemError} (h : fs.createDirectory p = .error e) :
    e ≠ .waiting := by
  rw [createDirectory, create] at h
  cases hr : fs.resolve .entry p p.components with
  | error x =>
    obtain rfl : x = e := by simpa [hr, bind, Except.bind] using h
    exact ne_waiting_of_isOfPath (resolve_error hr)
  | ok place =>
    cases place with
    | found l =>
      simp only [hr, bind, Except.bind] at h
      obtain rfl := Except.error.inj h
      simp
    | vacant d n =>
      simp only [hr, bind, Except.bind, add] at h
      split at h
      · cases h
      · obtain rfl := Except.error.inj h
        simp

theorem createUpwards_error {root : Path} {cs : List String} {e : SystemError}
    (h : fs.createUpwards root cs = .error e) : e ≠ .waiting := by
  induction cs generalizing e with
  | nil => cases h
  | cons c above ih =>
    rw [createUpwards] at h
    split at h
    · cases h
    · cases hup : fs.createUpwards root above with
      | error x =>
        obtain rfl : x = e := by simpa [hup, bind, Except.bind] using h
        exact ih hup
      | ok gs =>
        simp only [hup, bind, Except.bind] at h
        exact createDirectory_error h
    · rename_i hmake
      split at h
      · cases h
      · exact Except.error.inj h ▸ createDirectory_error hmake

theorem createDirectories_error {p : Path} {e : SystemError}
    (h : fs.createDirectories p = .error e) : e ≠ .waiting := by
  rw [createDirectories] at h
  split at h
  · cases h
  · cases hc : p.check with
    | error x =>
      obtain rfl : x = e := by simpa [hc, bind, Except.bind] using h
      exact ne_waiting_of_isOfPath (check_error hc)
    | ok u =>
      simp only [hc, bind, Except.bind] at h
      exact createUpwards_error h

variable {dest : Path} {l : Location}

/-- Below the new directory there is no pipe to wait for. -/
theorem Grown.write_error (h : fs.Grown dest l gs) {r : Location} {n : Name}
    (hr : gs.get? (r ++ l) = some .directory) (hn : LegalName n) {b : ByteArray} {e : SystemError}
    (hwrite : gs.write (dest.joinAll (n :: r)) b = .error e) : e ≠ .waiting := by
  cases hc : (dest.joinAll (n :: r)).check with
  | error x =>
    rw [write, resolve, hc] at hwrite
    obtain rfl : x = e := Except.error.inj hwrite
    exact ne_waiting_of_isOfPath (check_error hc)
  | ok u =>
    rw [write, h.resolve_below hr hn .file hc, placeBelow] at hwrite
    cases hget : gs.get? (n :: (r ++ l)) with
    | none => simp [hget, bind, Except.bind, add, hr] at hwrite
    | some x =>
      rcases h.plain (List.cons_ne_nil n r) hget with rfl | ⟨b', rfl⟩
      · obtain rfl : SystemError.isADirectory = e := by
          simpa [hget, bind, Except.bind, entryAt, throw, throwThe, MonadExceptOf.throw]
            using hwrite
        simp
      · simp [hget, bind, Except.bind, entryAt, pure, Except.pure] at hwrite

theorem Grown.copyFile_error (h : fs.Grown dest l gs) {r : Location} {n : Name}
    (hr : gs.get? (r ++ l) = some .directory) (hn : LegalName n) {source : Path}
    (hpipe : gs.status source ≠ .ok .pipe) {e : SystemError}
    (hcopy : gs.copyFile source (dest.joinAll (n :: r)) = .error e) : e ≠ .waiting := by
  rw [copyFile] at hcopy
  cases hs : gs.status source with
  | error x =>
    obtain rfl : x = e := by simpa [hs, bind, Except.bind] using hcopy
    rw [status] at hs
    cases hl : gs.locate source with
    | error y =>
      obtain rfl : y = x := by simpa [hl, Except.map] using hs
      exact ne_waiting_of_isOfPath (locate_error hl)
    | ok k => simp [hl, Except.map] at hs
  | ok x =>
    simp only [hs, bind, Except.bind] at hcopy
    cases x with
    | file b => exact h.write_error hr hn hcopy
    | pipe => exact absurd hs hpipe
    | _ =>
      obtain rfl := Except.error.inj hcopy
      simp

end FileSystem

/-! ## The copying does not wait -/

/-- The entries of a directory are copied one after the other, none of them in vain. -/
theorem forM_returns {fs : FileSystem} {dest : Path} {l k : Location} {names : List Name}
    {f : Name → Run Unit} {w : World} (hg : fs.Grown dest l w.files)
    (hdir : w.files.get? (k ++ l) = some .directory)
    (h : ∀ m ∈ names, ∀ w : World, fs.Grown dest l w.files →
      w.files.get? (k ++ l) = some .directory →
      Leaves (f m) w (fun w' => Later fs dest l w.files w'.files) ∧
        Ends (f m) w (fun _ _ => True) fun e _ => e.cause? ≠ some .waiting) :
    Ends (names.forM f) w (fun _ _ => True) fun e _ => e.cause? ≠ some .waiting := by
  refine (ends_forM (I := fun w' => Later fs dest l w.files w'.files) (fun m hm w₁ h₁ => ?_)
    (Later.refl hg)).imp (fun _ _ _ => trivial) fun _ _ he => he
  obtain ⟨hlater, hreturns⟩ := h m hm w₁ h₁.grown (h₁.directories hdir)
  refine (Ends.and hlater hreturns).imp ?_ ?_
  · rintro _ w₂ ⟨h₂, -⟩
    exact h₁.trans h₂
  · rintro e w₂ ⟨-, he⟩
    exact he

section Returns

variable {fs : FileSystem} {dest template : Path} {l : Location} (hwf : fs.WellFormed)
  (hsite : fs.site? dest = some l) (hroot : fs.status template = .ok .directory)
  (hreach : ¬ fs.Reaches template l)
  (hpipe : ∀ s, fs.Meets true template s → fs.status s.path ≠ .ok .pipe)

include hwf hsite hroot hreach hpipe

theorem copyEntry_returns {depth : Nat} {inside : List Location} {dir : Path}
    {below d : Location} {names : List Name} {n : Name} {w : World}
    (ho : fs.Opens true template inside dir below) (hlist : fs.list dir = .ok (d, names))
    (hn : n ∈ names) (hg : fs.Grown dest l w.files)
    (hdir : w.files.get? (below ++ l) = some .directory) :
    Ends (copyEntry dest depth (d :: inside) d dir below n) w (fun _ _ => True)
      fun e _ => e.cause? ≠ some .waiting := by
  induction depth generalizing inside dir below d names n w with
  | zero => simp [copyEntry, readingEntry, ends_throw, Failure.cause?]
  | succ depth ih =>
    obtain ⟨hmeet, hstatus, hlist'⟩ := meet_of_grown hwf hsite hroot hreach hg ho hlist hn
    have hlegal := (get?_of_list hwf hlist hn).2.2
    rw [copyEntry, ends_bind, ends_look, hmeet]
    cases hm : fs.meet true (d :: inside) d n (dir.join n) with
    | error x => simpa [readingEntry, Failure.cause?] using meet_error hm
    | ok kind =>
      have hcopy : Ends (do
            Run.change (·.copyFile (dir.join n) (dest.joinAll (n :: below)))
              (.copyFailed dest ("copying " ++ (Location.toPath (n :: below)).toString))
            Run.emit (.copied (Location.toPath (n :: below)))) w (fun _ _ => True)
          fun e _ => e.cause? ≠ some .waiting := by
        have hnot := hpipe _ (.visited ho hlist hn hm)
        rw [Step.path, ← hstatus] at hnot
        simp only [ends_bind, ends_emit, ends_change]
        cases hc : w.files.copyFile (dir.join n) (dest.joinAll (n :: below)) with
        | ok gs => trivial
        | error x => simpa [Failure.cause?] using hg.copyFile_error hdir hlegal hnot hc
      cases kind with
      | directory =>
        have hopens := Opens.child ho hlist hn hm
        have hmake := createDirectories_later hg hdir hlegal
          (.copyFailed dest ("creating directory " ++ (dest.joinAll (n :: below)).toString))
        simp only [ends_bind, ends_get, hlist']
        rw [ends_change] at hmake ⊢
        cases hc : w.files.createDirectories (dest.joinAll (n :: below)) with
        | error x => simpa [Failure.cause?] using createDirectories_error hc
        | ok gs =>
          simp only [hc] at hmake
          obtain ⟨hlater, hself⟩ := hmake
          simp only [ends_look]
          cases hsub : fs.list (dir.join n) with
          | error x =>
            simpa [readingEntry, Failure.cause?] using ne_waiting_of_isOfPath (list_error hsub)
          | ok y =>
            refine forM_returns (k := n :: below) hlater.grown hself fun m hm' w₁ hg₁ hself₁ => ?_
            have hlegal' := (get?_of_list hwf hsub hm').2.2
            exact ⟨copyEntry_later hg₁ hself₁ hlegal', ih hopens hsub hm' hg₁ hself₁⟩
      | file => exact hcopy
      | other => exact hcopy

theorem copyTemplate_returns {w : World} (hw : w.files = fs.set l .directory) :
    Ends (copyTemplate template dest) w (fun _ _ => True)
      fun e _ => e.cause? ≠ some .waiting := by
  obtain ⟨-, -, hnone, -, hlegal⟩ := site_spec hwf hsite
  have hg : fs.Grown dest l w.files := hw ▸ grown_created hwf hsite
  obtain ⟨havoid, hparent⟩ := avoids_of_not_reaches hreach (p := template) List.mem_cons_self
  rw [copyTemplate, ends_bind, ends_look,
    list_of_avoids hg.same hwf hnone (empty_not_mem_of_legal hlegal) havoid hparent]
  cases hlist : fs.list template with
  | error x =>
    simpa [readingEntry, Failure.cause?] using ne_waiting_of_isOfPath (list_error hlist)
  | ok y =>
    refine forM_returns (k := []) hg hg.root fun n hn w₁ hg₁ hdir₁ => ?_
    have hlegal' := (get?_of_list hwf hlist hn).2.2
    exact ⟨copyEntry_later hg₁ hdir₁ hlegal',
      copyEntry_returns hwf hsite hroot hreach hpipe (.root hroot) hlist hn hg₁ hdir₁⟩

end Returns

/-! ## The whole copy -/

/-- In `gs` a directory stands at `l` that holds what the walk through `template` meets in `fs`,
each at its place and as what its path leads to: a directory or a file. All else is as in `fs`. -/
structure Unfolds (fs : FileSystem) (template : Path) (l : Location) (gs : FileSystem) : Prop where
  same : SameOff l fs gs
  root : gs.get? l = some .directory
  tree : ∀ {k e}, k ≠ [] → (gs.get? (k ++ l) = some e ↔
    (∃ opened x, fs.Comes template opened k x) ∧ fs.status (template.joinAll k) = .ok e)
  plain : ∀ {k e}, k ≠ [] → gs.get? (k ++ l) = some e → e = .directory ∨ ∃ b, e = .file b

variable {w : World} {request : Request} {template base : Path} {l : Location}

/-- The template is copied over links exactly if all that the walk meets can be. -/
theorem materialize_unfolds_ends (hwf : w.files.WellFormed) (hroot : w.files.isDirectory template)
    (hsite : w.files.site? (destinationOf base request.name) = some l)
    (hreach : ¬ w.files.Reaches template l) :
    Ends (materialize request template base) w
      (fun dest w' => dest = destinationOf base request.name ∧
        w.files.AllSound template dest ∧ Unfolds w.files template l w'.files)
      fun _ _ => ¬ w.files.AllSound template (destinationOf base request.name) := by
  have hstatus := isDirectory_iff.1 hroot
  refine ends_materialize_of_site hroot hsite fun w₁ hw₁ => ?_
  refine (copyTemplate_ends hwf hsite hstatus hreach hw₁).imp ?_ ?_
  · rintro _ w₂ ⟨hgrown, hcopies⟩
    have hall := hcopies.isSome
    have hholds := holds_of_copies hgrown hcopies (nodup_walk w.files true template)
    refine ⟨rfl, (copyable_iff hwf hstatus).1 hall, hholds.same, hholds.root, ?_, hgrown.plain⟩
    intro k e hk
    rw [hholds.below hk, mem_copies_iff_comes hwf hstatus hall hk]
  · rintro e w₂ ⟨-, ⟨done, s, rest, hwalk, hs, -⟩, -⟩ hsound
    have hall := (copyable_iff hwf hstatus).2 hsound s (by simp [hwalk])
    simp [hs] at hall

/-- The walk meets no pipe, and none behind a link. -/
def FileSystem.PipeFree (fs : FileSystem) (template : Path) : Prop :=
  ∀ opened k e, fs.Comes template opened k e → fs.status (template.joinAll k) ≠ .ok .pipe

theorem FileSystem.PipeFree.status_ne {fs : FileSystem} (hwf : fs.WellFormed)
    (hpipe : fs.PipeFree template) {s : Step} (h : fs.Meets true template s) :
    fs.status s.path ≠ .ok .pipe := by
  have hmet : ∀ {inside dir below d names n}, fs.Opens true template inside dir below →
      fs.list dir = .ok (d, names) → n ∈ names → fs.status (dir.join n) ≠ .ok .pipe := by
    intro inside dir below d names n ho hl hn
    obtain ⟨e, -, hcomes⟩ := ho.comes hwf hl hn
    rw [ho.path_eq, ← Path.joinAll_cons]
    exact hpipe _ _ _ hcomes
  cases h with
  | unlisted ho _ =>
    cases ho with
    | root hroot => simp [Step.path, hroot]
    | child ho hl hn _ => exact hmet ho hl hn
  | refused ho hl hn _ => exact hmet ho hl hn
  | visited ho hl hn _ => exact hmet ho hl hn

theorem materialize_returns (hwf : w.files.WellFormed) (hroot : w.files.isDirectory template)
    (hsite : w.files.site? (destinationOf base request.name) = some l)
    (hreach : ¬ w.files.Reaches template l) (hpipe : w.files.PipeFree template) :
    Ends (materialize request template base) w (fun _ _ => True)
      fun e _ => e.cause? ≠ some .waiting := by
  have hstatus := isDirectory_iff.1 hroot
  exact ends_materialize_of_site hroot hsite fun w₁ hw₁ =>
    copyTemplate_returns hwf hsite hstatus hreach (fun s hs => hpipe.status_ne hwf hs) hw₁

/-- However the links of a template lie, the walk through it has only so many directories open, and
the copying waits for nothing but pipes. It returns exactly if every link that it meets leads to a
file, or to a directory that is not open, and it meets no socket, where no path is too long; then
the destination holds the walk unfolded. -/
theorem materialize_unfolds (hwf : w.files.WellFormed) (hroot : w.files.isDirectory template)
    (hsite : w.files.site? (destinationOf base request.name) = some l)
    (hreach : ¬ w.files.Reaches template l) :
    (∀ above d below, w.files.Enters template above d below →
      above.length ≤ (w.files.entries.length + 1) * (w.files.entries.length + 1)) ∧
    (w.files.PipeFree template → ∀ e w', materialize request template base w = .error e w' →
      e.cause? ≠ some .waiting) ∧
    ((∃ dest w', materialize request template base w = .ok dest w') ↔
      w.files.AllSound template (destinationOf base request.name)) ∧
    ∀ dest w', materialize request template base w = .ok dest w' →
      dest = destinationOf base request.name ∧ Unfolds w.files template l w'.files := by
  have hends := materialize_unfolds_ends hwf hroot hsite hreach
  refine ⟨fun above d below h => h.length_le hwf, fun hpipe e w' hrun => ?_, ⟨?_, ?_⟩, ?_⟩
  · exact (materialize_returns hwf hroot hsite hreach hpipe).of_error hrun
  · rintro ⟨dest, w', hrun⟩
    obtain ⟨rfl, hsound, -⟩ := hends.of_ok hrun
    exact hsound
  · intro hsound
    cases hrun : materialize request template base w with
    | ok dest w' => exact ⟨dest, w', rfl⟩
    | error e w' => exact absurd hsound (hends.of_error hrun)
  · intro dest w' hrun
    obtain ⟨hdest, -, hunfolds⟩ := hends.of_ok hrun
    exact ⟨hdest, hunfolds⟩

/-- The sample with a second link, which leads to the first. -/
def relinkedFiles : FileSystem := sampleFiles.set ["again", "app"] (.link ⟨["more"]⟩)

/-- A directory behind two links is copied for each of them. -/
theorem materialize_unfolds_chained :
    ∃ w', materialize sampleRequest ⟨["app"]⟩ ⟨["base"]⟩ { files := relinkedFiles } =
        .ok ⟨["base", "my-app"]⟩ w' ∧
      relinkedFiles.AllSound ⟨["app"]⟩ ⟨["base", "my-app"]⟩ ∧
      Unfolds relinkedFiles ⟨["app"]⟩ ["my-app", "base"] w'.files := by
  have hwf : relinkedFiles.WellFormed := by decide
  have hroot : relinkedFiles.isDirectory ⟨["app"]⟩ := by decide +kernel
  have hsite : relinkedFiles.site? (destinationOf ⟨["base"]⟩ sampleRequest.name) =
      some ["my-app", "base"] := by decide +kernel
  have hreach : ¬ relinkedFiles.Reaches ⟨["app"]⟩ ["my-app", "base"] := by decide +kernel
  obtain ⟨-, -, hiff, hunfolds⟩ := materialize_unfolds (w := { files := relinkedFiles }) hwf
    hroot hsite hreach
  have hrun := eq_ok_of_value? (x := materialize sampleRequest ⟨["app"]⟩ ⟨["base"]⟩)
    (w := { files := relinkedFiles }) (a := ⟨["base", "my-app"]⟩) (by decide +kernel)
  exact ⟨_, hrun, hiff.1 ⟨_, _, hrun⟩, (hunfolds _ _ hrun).2⟩

end Stencil
