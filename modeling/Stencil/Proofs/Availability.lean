import Stencil.Proofs.CopiedTree
import Stencil.Proofs.Interview

/-!
Names that are available, and directories that can be made.

Whether something stands at a path is looked up in one way when a name is asked for and in another
when its directory is made; the two agree (`occupied_join_iff`), and in a directory that is there
only lengths can speak against a free name (`createDirectory_of_free`). No later step of a run
comes upon the directory again (`failsOnly_scaffold`). Main statement: `isAvailable_decides`.
-/

namespace Stencil

open Run

namespace FileSystem

variable {fs : FileSystem}

/-! ## Looking and making -/

theorem createDirectory_eq_exists_iff {p : Path} :
    fs.createDirectory p = .error .alreadyExists ↔
      ∃ l, fs.resolve .entry p p.components = .ok (.found l) := by
  rw [createDirectory, create]
  cases hr : fs.resolve .entry p p.components with
  | error e =>
    have he := resolve_error hr
    simp only [bind, Except.bind, Except.error.injEq, reduceCtorEq, exists_false, iff_false]
    rintro rfl
    cases he
  | ok place =>
    cases place with
    | found l => simp [bind, Except.bind, throw, throwThe, MonadExceptOf.throw]
    | vacant d n =>
      simp only [bind, Except.bind, add]
      split <;> simp

theorem occupied_iff {p : Path} :
    fs.occupied p ↔ ∃ l, fs.resolve .entry p p.steps = .ok (.found l) := by
  simp only [occupied, linkStatus, locateLink, bind, Except.bind]
  cases fs.resolve .entry p p.steps with
  | error e => simp [Except.map, Except.isOk, Except.toBool]
  | ok place =>
    cases place <;> simp [Except.map, Except.isOk, Except.toBool, pure, Except.pure, throw,
      throwThe, MonadExceptOf.throw]

/-- A name is taken where its directory cannot be made because something is there. -/
theorem occupied_join_iff {base : Path} {n : Name} (hn : n ≠ "") :
    fs.occupied (base.join n) ↔ fs.createDirectory (base.join n) = .error .alreadyExists := by
  rw [occupied_iff, createDirectory_eq_exists_iff, Path.steps_join base hn,
    Path.components_join base hn]

theorem createDirectory_of_check {p : Path} {e : SystemError} (h : p.check = .error e) :
    fs.createDirectory p = .error e := by
  simp [createDirectory, create, resolve, h, bind, Except.bind]

/-- Following a name in a directory that is there, to what stands at it. -/
theorem resolve_name {base : Path} {m : Nat} {d : Location} {n : Name} (hn : n ≠ "")
    (hbase : fs.LeadsTo base m d) (hc : (base.join n).check = .ok ()) :
    fs.resolve .entry (base.join n) (base.join n).components = fs.follow .entry m d [n] := by
  rw [← resolve_join hbase hn hc, Path.steps_join base hn, Path.components_join base hn]

theorem follow_long_name {aim : Aim} {m : Nat} {d : Location} {n : Name} (hm : 0 < m)
    (hd : fs.get? d = some .directory) (hn : n ≠ "" ∧ n ≠ "." ∧ n ≠ "..")
    (hlong : maxNameSize < n.utf8ByteSize) :
    fs.follow aim m d [n] = .error .nameTooLong := by
  obtain ⟨k, rfl⟩ : ∃ k, m = k + 1 := ⟨m - 1, by omega⟩
  have hadv : fs.advance aim d [n] = .failed .nameTooLong := by
    rw [advance]
    simp [canEnter_of_directory hd, hn, hlong, refusal, hd]
  rw [follow, hadv]

/-- In a directory that is there, only lengths can speak against a name that is free. -/
theorem createDirectory_of_free {base : Path} {d : Location} {n : Name}
    (hbase : fs.locate base = .ok d) (hd : fs.get? d = some .directory)
    (hn : n ≠ "" ∧ n ≠ "." ∧ n ≠ "..") (hnul : '\x00' ∉ n.toList)
    (hfree : ¬ fs.occupied (base.join n)) :
    fs.createDirectory (base.join n) =
      if n.utf8ByteSize ≤ maxNameSize ∧ (base.join n).size ≤ maxPathSize then
        .ok (fs.set (n :: d) .directory)
      else .error .nameTooLong := by
  obtain ⟨hcheck, m, hleads⟩ := leadsTo_of_locate hbase
  have hc := Path.check_join (Path.check_eq_ok_iff.1 hcheck).1 hn.1 hnul
  by_cases hfit : (base.join n).size ≤ maxPathSize
  · rw [if_pos hfit] at hc
    have hresolve := resolve_name hn.1 hleads hc
    by_cases hshort : n.utf8ByteSize ≤ maxNameSize
    · have hlegal : LegalName n := ⟨hn.1, hn.2.1, hn.2.2, hshort, hnul⟩
      have hnone : fs.get? (n :: d) = none := by
        cases hget : fs.get? (n :: d) with
        | none => rfl
        | some e =>
          -- what stands there would be found
          refine absurd (occupied_iff.2 ⟨n :: d, ?_⟩) hfree
          rw [Path.steps_join base hn.1, ← Path.components_join base hn.1, hresolve]
          obtain ⟨k, rfl⟩ : ∃ k, m = k + 1 := ⟨m - 1, by have := hleads.pos; omega⟩
          rw [follow, advance_name .entry (canEnter_of_directory hd) hlegal, hget]
          cases e <;> rfl
      rw [follow_name_vacant .entry hleads.pos (canEnter_of_directory hd) hlegal hnone]
        at hresolve
      rw [if_pos ⟨hshort, hfit⟩, createDirectory, create, hresolve]
      simp [bind, Except.bind, add, hd]
    · rw [follow_long_name hleads.pos hd hn (Nat.lt_of_not_le hshort)] at hresolve
      rw [if_neg fun h => hshort h.1, createDirectory, create, hresolve]
      rfl
  · rw [if_neg hfit] at hc
    rw [if_neg fun h => hfit h.2, createDirectory_of_check hc]

end FileSystem

/-! ## The directory of a name -/

theorem isAvailable_eq_false_iff {fs : FileSystem} {base : Path} {name : String}
    (h : dashCase name ≠ "") :
    fs.isAvailable base name = false ↔
      fs.createDirectory (destinationOf base name) = .error .alreadyExists := by
  rw [destinationOf, ← FileSystem.occupied_join_iff h]
  simp [FileSystem.isAvailable, h, destinationOf]

theorem free_of_isAvailable {fs : FileSystem} {base : Path} {name : String}
    (h : fs.isAvailable base name) :
    dashCase name ≠ "" ∧ ¬ fs.occupied (destinationOf base name) := by
  simpa [FileSystem.isAvailable] using h

/-! ## What the steps of a run can fail with -/

theorem failsOnly_copyEntry {dest : Path} (depth : Nat) (inside : List Location) (d : Location)
    (dir : Path) (below : Location) (n : Name) :
    FailsOnly (copyEntry dest depth inside d dir below n) (CopyFailure dest) := by
  have hfails : ∀ context x, CopyFailure dest (.copyFailed dest context x) :=
    fun context x => ⟨context, x, rfl⟩
  induction depth generalizing inside d dir below n with
  | zero => exact failsOnly_throw (hfails _ _)
  | succ depth ih =>
    rw [copyEntry]
    refine (failsOnly_look (hfails _)).bind fun kind => ?_
    cases kind with
    | directory =>
      refine failsOnly_get.bind fun w => (failsOnly_change (hfails _)).bind fun _ => ?_
      refine (failsOnly_look (hfails _)).bind fun listing => ?_
      exact failsOnly_forM fun m _ => ih _ _ _ _ m
    | _ => exact (failsOnly_change (hfails _)).bind fun _ => failsOnly_emit _

theorem failsOnly_copyTemplate (template dest : Path) :
    FailsOnly (copyTemplate template dest) (CopyFailure dest) := by
  rw [copyTemplate]
  refine (failsOnly_look fun e => ⟨_, e, rfl⟩).bind fun listing => ?_
  exact failsOnly_forM fun n _ => failsOnly_copyEntry _ _ _ _ _ n

/-- A directory was in the way of a new one. -/
def Failure.isDestinationExists : Failure → Bool
  | .destinationExists _ => true
  | _ => false

theorem Failure.isDestinationExists_iff {e : Failure} :
    e.isDestinationExists ↔ ∃ p, e = .destinationExists p := by
  cases e <;> simp [isDestinationExists]

theorem failsOnly_writeDescriptor (request : Request) (root : Path) :
    FailsOnly (writeDescriptor request root) (¬ ·.isDestinationExists) := by
  have hfails : ∀ context x, ¬ (Failure.system context x).isDestinationExists := by
    simp [Failure.isDestinationExists]
  rw [writeDescriptor]
  refine failsOnly_get.bind fun w => ?_
  split
  · refine (failsOnly_emit _).bind fun _ => ?_
    exact (failsOnly_change (hfails _)).bind fun _ => failsOnly_pure _
  · exact (failsOnly_change (hfails _)).bind fun _ => failsOnly_pure _

theorem failsOnly_addStep {root : Path} {bindings : Bindings} {policy : Policy} (plan : Plan)
    (step : Step) :
    FailsOnly (plan.addStep root bindings policy step) (¬ ·.isDestinationExists) := by
  cases step with
  | failed p e => exact failsOnly_throw (by simp [Failure.isDestinationExists])
  | visit v =>
    rw [Plan.addStep]
    split
    · rw [Plan.addFile]
      refine FailsOnly.bind (failsOnly_look ?_ |>.bind ?_) ?_
      · simp [Failure.isDestinationExists]
      · exact fun _ => failsOnly_pure _
      · intro text
        split
        · exact (failsOnly_emit _).bind fun _ => failsOnly_pure _
        · split
          · exact failsOnly_throw (by simp [Failure.isDestinationExists])
          · split
            · exact failsOnly_pure _
            · exact (failsOnly_emit _).bind fun _ => failsOnly_pure _
    · exact failsOnly_pure _

theorem failsOnly_fillDirectory (root : Path) (bindings : Bindings) (policy : Policy) :
    FailsOnly (fillDirectory root bindings policy) (¬ ·.isDestinationExists) := by
  rw [fillDirectory, planFilling]
  refine (failsOnly_get.bind fun w => failsOnly_foldlM failsOnly_addStep _).bind fun plan => ?_
  rw [Plan.execute]
  refine (failsOnly_forM fun r _ => failsOnly_change ?_).bind fun _ => failsOnly_pure _
  simp [Failure.isDestinationExists]

variable {w : World} {request : Request} {base : Path}

theorem failure?_createDestination {dest : Path} {fits : Prop} [Decidable fits] {gs : FileSystem}
    (h : w.files.createDirectory dest = if fits then .ok gs else .error .nameTooLong) :
    (createDestination dest).failure? w = if fits then none
      else some (.system ("creating project directory " ++ dest.toString) .nameTooLong) := by
  have hends : Ends (createDestination dest) w _ _ := createDestination_ends
  rw [failure?]
  cases hrun : createDestination dest w with
  | ok u w' =>
    obtain ⟨l, hsite, -⟩ := hends.of_ok hrun
    rw [FileSystem.createDirectory_of_site hsite] at h
    split at h
    · rename_i hfits
      exact (if_pos hfits).symm
    · cases h
  | error e w' =>
    split at h
    · obtain ⟨-, ⟨hmake, -⟩ | ⟨x, hmake, -⟩⟩ := hends.of_error hrun <;> simp [h] at hmake
    · rename_i hfits
      rw [if_neg hfits]
      obtain ⟨-, ⟨hmake, -⟩ | ⟨x, hmake, -, rfl⟩⟩ := hends.of_error hrun
      · simp [h] at hmake
      · rw [Except.error.inj (h.symm.trans hmake)]

/-- Whatever comes behind the making of the directory never finds it in its way. -/
theorem materialize_ends (template : Path) :
    Ends (materialize request template base) w
      (fun _ _ => w.files.createDirectory (destinationOf base request.name) ≠
        .error .alreadyExists)
      fun e _ => e.isDestinationExists ↔ w.files.isDirectory template ∧
        w.files.createDirectory (destinationOf base request.name) = .error .alreadyExists := by
  rw [ends_materialize]
  split
  · rename_i hroot
    refine createDestination_ends.imp ?_ ?_
    · rintro _ w₁ ⟨l, hsite, -⟩
      rw [FileSystem.createDirectory_of_site hsite]
      refine (failsOnly_copyTemplate _ _ w₁).imp (fun _ _ _ => by simp) ?_
      rintro e w₂ ⟨context, x, rfl⟩
      simp [Failure.isDestinationExists]
    · rintro e w₁ ⟨-, ⟨hmake, rfl⟩ | ⟨x, hmake, hx, rfl⟩⟩
      · simp [Failure.isDestinationExists, hroot, hmake]
      · simp [Failure.isDestinationExists, hmake, hx]
  · rename_i hroot
    simp [Failure.isDestinationExists, hroot]

theorem scaffold_of_available (options : Options)
    (h : w.files.isAvailable options.base request.name) :
    Ends (scaffold request options) w (fun _ _ => True) fun e _ => ¬ e.isDestinationExists := by
  obtain ⟨hdash, hfree⟩ := free_of_isAvailable h
  rw [scaffold]
  simp only [ends_bind, ends_emit]
  refine (materialize_ends options.template).imp ?_ ?_
  · intro dest w₁ _
    refine (failsOnly_writeDescriptor request dest _).imp (fun bindings w₂ _ => ?_) fun _ _ he => he
    refine (failsOnly_fillDirectory dest bindings options.policy _).imp (fun _ _ _ => ?_)
      fun _ _ he => he
    exact trivial
  · intro e w₁ he hexists
    rw [destinationOf, FileSystem.occupied_join_iff hdash] at hfree
    exact hfree (he.1 hexists).2

namespace Wizard

/-! ## The interview and what comes behind it -/

/-- The answers up to the first that is acceptable. -/
theorem exists_turned (fs : FileSystem) (base : Path) (answers : List String) :
    ∃ turned rest, answers = turned ++ rest ∧ (∀ a ∈ turned, ¬ Acceptable fs base a) ∧
      ∀ name ∈ rest.head?, Acceptable fs base name := by
  induction answers with
  | nil => exact ⟨[], [], rfl, by simp, by simp⟩
  | cons answer answers ih =>
    by_cases hok : Acceptable fs base answer
    · exact ⟨[], answer :: answers, rfl, by simp, by simpa using hok⟩
    · obtain ⟨turned, rest, rfl, hnot, hname⟩ := ih
      exact ⟨answer :: turned, rest, rfl, List.forall_mem_cons.2 ⟨hok, hnot⟩, hname⟩

/-- The interview changes no file, and the name that it ends with is available. -/
theorem collect_ends (base : Path) (defaults : Defaults) (w : World) :
    Ends (collect base defaults) w
      (fun request w' => w'.files = w.files ∧ w.files.isAvailable base request.name)
      fun e _ => e = .cancelled := by
  obtain ⟨turned, rest, h, hnot, hname⟩ := exists_turned w.files base w.answers
  have hrun := collect_of_turned h hnot hname defaults
  rw [Ends, hrun]
  rcases rest with _ | ⟨name, _ | ⟨version, _ | ⟨author, _ | ⟨email, left⟩⟩⟩⟩
  · rfl
  · rfl
  · rfl
  · rfl
  · exact ⟨rfl, isAvailable_iff.2 (hname name rfl)⟩

theorem print_ends {line : String} {ok : Unit → World → Prop}
    {failed : Failure → World → Prop} :
    Ends (Run.print line) w ok failed ↔ ok () { w with printed := w.printed ++ line ++ "\n" } :=
  Iff.rfl

theorem printSection_ends (heading : String) (lines : List String) (w : World)
    (failed : Failure → World → Prop) :
    Ends (printSection heading lines) w (fun _ w' => w'.files = w.files) failed := by
  rw [printSection, ends_bind, print_ends]
  exact ends_forM (I := fun w' => w'.files = w.files) (fun line _ w₁ h₁ => h₁) rfl

theorem run_ends (config : Config) (shipped base : Path) (w : World) :
    Ends (run config shipped base) w (fun _ _ => True) fun e _ => ¬ e.isDestinationExists := by
  rw [run, ends_bind]
  refine (printSection_ends _ _ _ _).imp (fun _ w₁ h₁ => ?_) fun _ _ he => he
  rw [ends_bind]
  refine (collect_ends base config.defaults w₁).imp ?_ ?_
  · rintro request w₂ ⟨h₂, havail⟩
    rw [ends_bind]
    refine (printSection_ends _ _ _ _).imp (fun _ w₃ h₃ => ?_) fun _ _ he => he
    rw [← h₂, ← h₃] at havail
    rw [ends_bind]
    refine (scaffold_of_available (config.options shipped base) havail).imp
      (fun project w₄ _ => ?_) fun _ _ he => he
    simp only [ends_bind, print_ends, ends_pure]
    exact (printSection_ends _ _ _ _).imp (fun _ _ _ => trivial) fun _ _ he => he
  · rintro e w₂ rfl
    simp [Failure.isDestinationExists]

/-- A name is available, where its template is a directory, exactly if making the project does not
find its directory in the way; no interview ends in a project whose directory is in the way; and in
a directory that is there, only its lengths can speak against the directory of the project. -/
theorem isAvailable_decides (base : Path) (w : World) :
    (∀ request template, dashCase request.name ≠ "" → w.files.isDirectory template →
      (w.files.isAvailable base request.name = false ↔
        ∃ p w', materialize request template base w = .error (.destinationExists p) w')) ∧
    (∀ config shipped p w', run config shipped base w ≠ .error (.destinationExists p) w') ∧
    ∀ defaults request w' d, collect base defaults w = .ok request w' →
      w.files.locate base = .ok d → w.files.get? d = some .directory →
      (createDestination (destinationOf base request.name)).failure? w' =
        if (dashCase request.name).utf8ByteSize ≤ maxNameSize ∧
            (destinationOf base request.name).size ≤ maxPathSize then none
        else some (.system
          ("creating project directory " ++ (destinationOf base request.name).toString)
          .nameTooLong) := by
  refine ⟨fun request template hdash hroot => ?_, fun config shipped p w' hrun => ?_,
    fun defaults request w' d hrun hbase hd => ?_⟩
  · have hends : Ends (materialize request template base) w _ _ := materialize_ends template
    rw [isAvailable_eq_false_iff hdash]
    constructor
    · intro hmake
      cases hrun : materialize request template base w with
      | ok dest w' => exact absurd hmake (hends.of_ok hrun)
      | error e w' =>
        obtain ⟨p, rfl⟩ := Failure.isDestinationExists_iff.1
          ((hends.of_error hrun).2 ⟨hroot, hmake⟩)
        exact ⟨p, w', rfl⟩
    · rintro ⟨p, w', hrun⟩
      exact ((hends.of_error hrun).1 rfl).2
  · exact (run_ends config shipped base w).of_error hrun rfl
  · obtain ⟨hfiles, havail⟩ := (collect_ends base defaults w).of_ok hrun
    obtain ⟨hdash, hfree⟩ := free_of_isAvailable havail
    obtain ⟨hn, hnul⟩ := dashCase_spec hdash
    have hmake := FileSystem.createDirectory_of_free hbase hd hn hnul hfree
    rw [← hfiles] at hmake
    exact failure?_createDestination hmake

/-- The sample with a link in the place of the first project that leads nowhere, and answers for
two projects. -/
def takenWorld : World where
  files := sampleFiles.set ["my-app", "base"] (.link ⟨["nowhere"]⟩)
  answers := ["My App", "Other", "1.0", "", "a@b"]

/-- The link makes the name unavailable, although it leads nowhere; the next name is free. -/
theorem isAvailable_decides_taken :
    (takenWorld.files.isAvailable ⟨["base"]⟩ "My App" = false ∧
      ∃ p w', materialize sampleRequest ⟨["app"]⟩ ⟨["base"]⟩ takenWorld =
        .error (.destinationExists p) w') ∧
    (∀ p w', run {} ⟨["app"]⟩ ⟨["base"]⟩ takenWorld ≠ .error (.destinationExists p) w') ∧
    ∃ w', collect ⟨["base"]⟩ ⟨"0.0.1", "Ada", ""⟩ takenWorld = .ok ⟨"Other", "1.0", "Ada", "a@b"⟩ w' ∧
      (createDestination ⟨["base", "other"]⟩).failure? w' = none := by
  obtain ⟨htaken, hrun, hfree⟩ := isAvailable_decides ⟨["base"]⟩ takenWorld
  have hdash : dashCase sampleRequest.name ≠ "" := by decide +kernel
  have hroot : takenWorld.files.isDirectory ⟨["app"]⟩ := by decide +kernel
  have havail : takenWorld.files.isAvailable ⟨["base"]⟩ sampleRequest.name = false := by
    decide +kernel
  have hcollect := eq_ok_of_value? (x := collect ⟨["base"]⟩ ⟨"0.0.1", "Ada", ""⟩)
    (w := takenWorld) (a := ⟨"Other", "1.0", "Ada", "a@b"⟩) (by decide +kernel)
  have hbase : takenWorld.files.locate ⟨["base"]⟩ = .ok ["base"] := by decide +kernel
  have hmade := hfree _ _ _ _ hcollect hbase (by decide +kernel)
  have hdest : destinationOf ⟨["base"]⟩ "Other" = ⟨["base", "other"]⟩ := by decide +kernel
  have hfits : (dashCase "Other").utf8ByteSize ≤ maxNameSize ∧
      (⟨["base", "other"]⟩ : Path).size ≤ maxPathSize := by decide +kernel
  rw [hdest, if_pos hfits] at hmade
  exact ⟨⟨havail, (htaken sampleRequest ⟨["app"]⟩ hdash hroot).1 havail⟩, hrun {} ⟨["app"]⟩, _,
    hcollect, hmade⟩

end Wizard

end Stencil
