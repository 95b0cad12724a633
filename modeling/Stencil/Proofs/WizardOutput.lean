import Stencil.Proofs.AppendOnly
import Stencil.Proofs.Availability
import Stencil.Proofs.DirectoryName
import Stencil.Proofs.EntriesBelow
import Stencil.Proofs.FinishedProject

/-!
What the wizard prints.

Nothing is printed by the interview and by the making of a project, so that the text is put together
from what the wizard itself prints (`run_eq`). Main statement: each part is printed exactly if what
it speaks of has come about, and the numbers count the files of the project (`run_tells`).
-/

namespace Stencil

open FileSystem

namespace Run

variable {α β : Type}

/-- However the run ends, it prints nothing. -/
def Silent (x : Run α) : Prop := ∀ w, (x.after w).printed = w.printed

theorem silent_pure (a : α) : Silent (pure a) := fun _ => rfl

theorem silent_throw (e : Failure) : Silent (throw e : Run α) := fun _ => rfl

theorem silent_get : Silent (get : Run World) := fun _ => rfl

theorem silent_emit (e : Event) : Silent (emit e) := fun _ => rfl

theorem Silent.bind {x : Run β} {f : β → Run α} (hx : Silent x) (hf : ∀ b, Silent (f b)) :
    Silent (x >>= f) := by
  intro w
  have hfirst := hx w
  rw [after] at hfirst ⊢
  cases h : x w with
  | ok b w' =>
    rw [h] at hfirst
    rw [bind_of_ok h]
    exact (hf b w').trans hfirst
  | error e w' =>
    rw [h] at hfirst
    rw [bind_of_error h]
    exact hfirst

theorem silent_look {call : FileSystem → Except SystemError α} {failure : SystemError → Failure} :
    Silent (look call failure) := by
  refine silent_get.bind fun w => ?_
  cases call w.files with
  | ok a => exact silent_pure a
  | error e => exact silent_throw _

theorem silent_change {call : FileSystem → Except SystemError FileSystem}
    {failure : SystemError → Failure} : Silent (change call failure) :=
  silent_look.bind fun _ _ => rfl

theorem silent_forM {l : List β} {f : β → Run Unit} (h : ∀ b ∈ l, Silent (f b)) :
    Silent (l.forM f) := by
  induction l with
  | nil => exact silent_pure ()
  | cons b l ih =>
    obtain ⟨hb, hl⟩ := List.forall_mem_cons.1 h
    exact hb.bind fun _ => ih hl

theorem silent_foldlM {l : List β} {f : α → β → Run α} (h : ∀ a b, Silent (f a b)) (a : α) :
    Silent (l.foldlM f a) := by
  induction l generalizing a with
  | nil => exact silent_pure a
  | cons b l ih =>
    rw [List.foldlM_cons]
    exact (h a b).bind ih

theorem Silent.of_ok {x : Run α} (h : Silent x) {w w' : World} {a : α} (hx : x w = .ok a w') :
    w'.printed = w.printed := by
  rw [eq_after_of_ok hx, h w]

theorem Silent.of_error {x : Run α} (h : Silent x) {w w' : World} {e : Failure}
    (hx : x w = .error e w') : w'.printed = w.printed := by
  have hw := h w
  rwa [after, hx] at hw

/-- A run of two parts that returns has gone through both. -/
theorem exists_of_bind_ok {x : Run β} {f : β → Run α} {a : α} {w w' : World}
    (h : (x >>= f) w = .ok a w') : ∃ b w₁, x w = .ok b w₁ ∧ f b w₁ = .ok a w' := by
  cases hx : x w with
  | ok b w₁ => exact ⟨b, w₁, rfl, (bind_of_ok hx).symm.trans h⟩
  | error e w₁ =>
    rw [bind_of_error hx] at h
    cases h

end Run

open Run

/-! ## Making a project -/

theorem silent_copyEntry (dest : Path) (depth : Nat) (inside : List Location) (d : Location)
    (dir : Path) (below : Location) (n : Name) :
    Silent (copyEntry dest depth inside d dir below n) := by
  induction depth generalizing inside d dir below n with
  | zero => exact silent_throw _
  | succ depth ih =>
    rw [copyEntry]
    refine silent_look.bind fun kind => ?_
    have hfile : ∀ failure : SystemError → Failure,
        Silent (do
          Run.change (·.copyFile (dir.join n) (dest.joinAll (n :: below))) failure
          Run.emit (.copied (Location.toPath (n :: below)))) :=
      fun _ => silent_change.bind fun _ => silent_emit _
    cases kind with
    | directory =>
      refine silent_get.bind fun w => silent_change.bind fun _ => silent_look.bind fun x => ?_
      exact silent_forM fun m _ => ih _ _ _ _ m
    | file => exact hfile _
    | other => exact hfile _

theorem silent_materialize (request : Request) (template base : Path) :
    Silent (materialize request template base) := by
  have hcreate : ∀ dest, Silent (createDestination dest) := fun dest =>
    silent_change.bind fun _ => silent_emit _
  have hcopy : ∀ dest, Silent (copyTemplate template dest) := fun dest =>
    silent_look.bind fun x => silent_forM fun n _ => silent_copyEntry dest _ _ _ _ _ n
  rw [materialize]
  refine silent_get.bind fun w => ?_
  split
  · exact (hcreate _).bind fun _ => (hcopy _).bind fun _ => silent_pure _
  · exact (silent_throw _).bind fun _ => (hcreate _).bind fun _ => (hcopy _).bind fun _ =>
      silent_pure _

theorem silent_writeDescriptor (request : Request) (root : Path) :
    Silent (writeDescriptor request root) := by
  rw [writeDescriptor]
  refine silent_get.bind fun w => ?_
  split
  · exact (silent_emit _).bind fun _ => silent_change.bind fun _ => silent_pure _
  · exact silent_change.bind fun _ => silent_pure _

theorem silent_addStep (root : Path) (bindings : Bindings) (policy : Policy) (plan : Plan)
    (step : Step) : Silent (plan.addStep root bindings policy step) := by
  cases step with
  | failed p e => exact silent_throw _
  | visit v =>
    rw [Plan.addStep]
    split
    · rw [Plan.addFile]
      refine (silent_look.bind fun _ => silent_pure _).bind fun text? => ?_
      split
      · exact (silent_emit _).bind fun _ => silent_pure _
      · split
        · exact silent_throw _
        · split
          · exact silent_pure _
          · exact (silent_emit _).bind fun _ => silent_pure _
    · exact silent_pure _

theorem silent_fillDirectory (root : Path) (bindings : Bindings) (policy : Policy) :
    Silent (fillDirectory root bindings policy) := by
  rw [fillDirectory, planFilling]
  refine (silent_get.bind fun w => silent_foldlM (silent_addStep root bindings policy) _).bind
    fun plan => ?_
  exact (silent_forM fun r _ => silent_change).bind fun _ => silent_pure _

theorem silent_scaffold (request : Request) (options : Options) :
    Silent (scaffold request options) := by
  rw [scaffold]
  refine (silent_emit _).bind fun _ => (silent_materialize _ _ _).bind fun dest => ?_
  refine (silent_emit _).bind fun _ => (silent_writeDescriptor _ _).bind fun bindings => ?_
  exact (silent_emit _).bind fun _ => (silent_fillDirectory _ _ _).bind fun _ => silent_pure _

/-- The copy of the template with the descriptor, before anything is filled in. -/
def draft (request : Request) (options : Options) : Run (Path × Bindings) := do
  Run.emit (.copyingTemplate options.template)
  let destination ← materialize request options.template options.base
  Run.emit .writingDescriptor
  let bindings ← writeDescriptor request destination
  return (destination, bindings)

theorem scaffold_eq (request : Request) (options : Options) :
    scaffold request options = (do
      let made ← draft request options
      Run.emit (.substituting options.policy)
      let report ← fillDirectory made.1 made.2 options.policy
      return ⟨made.1, made.2, report⟩) := by
  simp only [scaffold, draft, bind_assoc, pure_bind]

variable {w w' : World} {request : Request} {options : Options}

theorem draft_ends (hwf : w.files.WellFormed) (request : Request) (options : Options) :
    Ends (draft request options) w
      (fun made w' => made.1 = destinationOf options.base request.name ∧
        ∃ l, w.files.Grown made.1 l w'.files)
      fun _ _ => True := by
  rw [draft]
  simp only [ends_bind, ends_emit, ends_pure, ends_materialize]
  split
  · refine createDestination_ends.imp ?_ fun _ _ _ => trivial
    rintro _ w₁ ⟨l, hsite, hfiles⟩
    have hgrown := grown_created hwf hsite
    rw [← hfiles] at hgrown
    refine (copyTemplate_later hgrown).imp ?_ fun _ _ _ => trivial
    intro _ w₂ h₂
    have hgrown₂ : w.files.Grown (destinationOf options.base request.name) l
        { w₂ with log := w₂.log ++ [Event.writingDescriptor] }.files := h₂.grown
    refine (writeDescriptor_ends hgrown₂).imp ?_ fun _ _ _ => trivial
    rintro bindings w₃ ⟨-, h₃, -⟩
    exact ⟨trivial, l, h₃.grown⟩
  · trivial

/-! ## Counting files -/

/-- How many files stand below a location. -/
def FileSystem.fileCount (fs : FileSystem) (l : Location) : Nat :=
  (fs.below l).countP fun x => x.2.kind = .file

/-- How many of them have bytes that they did not have in `old`. -/
def FileSystem.changedCount (fs old : FileSystem) (l : Location) : Nat :=
  (fs.below l).countP fun x => x.2.kind = .file && old.get? (x.1 ++ l) ≠ some x.2

theorem kind_eq_file {e : Entry} : e.kind = .file ↔ ∃ b, e = .file b := by
  cases e <;> simp [Entry.kind]

section

variable {mid gs : FileSystem} {l : Location} {bindings : Bindings} {policy : Policy}
  {report : Report} (h : FilledIn bindings policy l mid gs report)

include h

theorem FilledIn.exists_file_iff {k : Location} :
    (∃ b, mid.get? (k ++ l) = some (.file b)) ↔ ∃ b, gs.get? (k ++ l) = some (.file b) := by
  rw [h.get?_eq]
  cases mid.get? (k ++ l) with
  | none => simp
  | some e => cases e <;> simp [Entry.filled]

/-- The report counts the files. -/
theorem FilledIn.fileCount_eq (hroot : gs.get? l = some .directory) :
    report.filled.length + (report.unchanged.length + report.skipped.length) = gs.fileCount l := by
  have hcount := gs.length_eq_countP l (fun x => x.2.kind = .file) h.nodup
    fun k => by
      rw [h.mem_report, h.exists_file_iff]
      simp only [decide_eq_true_eq, kind_eq_file]
      constructor
      · rintro ⟨b, hb⟩
        refine ⟨?_, _, hb, b, rfl⟩
        rintro rfl
        simp [hroot] at hb
      · rintro ⟨-, e, he, b, rfl⟩
        exact ⟨b, he⟩
  rw [fileCount, ← hcount, List.length_append, List.length_append, Nat.add_assoc]

theorem FilledIn.changedCount_eq (hroot : gs.get? l = some .directory) :
    report.filled.length = gs.changedCount mid l := by
  have hnodup : report.filled.Nodup := by
    have hall := h.nodup
    rw [List.append_assoc] at hall
    exact hall.of_append_left
  refine gs.length_eq_countP l _ hnodup fun k => ?_
  simp only [h.filled, Bool.and_eq_true, decide_eq_true_eq, kind_eq_file]
  constructor
  · rintro ⟨b, hb, hne⟩
    have hb' := h.file hb
    refine ⟨?_, _, hb', ⟨_, rfl⟩, ?_⟩
    · rintro rfl
      simp [hroot] at hb'
    · rw [hb]
      simpa [eq_comm] using hne
  · rintro ⟨-, e, he, ⟨c, rfl⟩, hne⟩
    obtain ⟨b, hb⟩ := h.exists_file_iff.2 ⟨c, he⟩
    have hc := (h.file hb).symm.trans he
    refine ⟨b, hb, fun hsame => hne ?_⟩
    rw [hb, ← hc, hsame]

end

/-- The report of a project counts the files below its directory, and those that filling in has
made others than the draft. -/
theorem scaffold_counts {project : Project} (hwf : w.files.WellFormed)
    (h : scaffold request options w = .ok project w') :
    ∃ l w₁, draft request options w = .ok (project.destination, project.bindings) w₁ ∧
      project.destination = destinationOf options.base request.name ∧
      w'.files.locate project.destination = .ok l ∧
      project.report.filled.length +
          (project.report.unchanged.length + project.report.skipped.length) =
        w'.files.fileCount l ∧
      project.report.filled.length = w'.files.changedCount w₁.files l := by
  rw [scaffold_eq] at h
  obtain ⟨⟨dest, bindings⟩, w₁, hdraft, h⟩ := exists_of_bind_ok h
  obtain ⟨hdest, l, hgrown⟩ := (draft_ends hwf request options).of_ok hdraft
  obtain ⟨-, -, ⟨⟩, h⟩ := exists_of_bind_ok h
  obtain ⟨report, w₂, hfill, h⟩ := exists_of_bind_ok h
  obtain ⟨rfl, rfl⟩ : ⟨dest, bindings, report⟩ = project ∧ w₂ = w' := by
    cases h
    exact ⟨rfl, rfl⟩
  have hgrown₁ : w.files.Grown dest l
      { w₁ with log := w₁.log ++ [Event.substituting options.policy] }.files := hgrown
  obtain ⟨hlater, hfilled⟩ := (fillDirectory_ends hgrown₁).of_ok hfill
  have hroot := hlater.grown.root
  exact ⟨l, w₁, hdraft, hdest, hlater.grown.locate_root, hfilled.fileCount_eq hroot,
    hfilled.changedCount_eq hroot⟩

/-! ## The printed path -/

namespace Path

theorem exists_pieces_join (p : Path) (n : String) :
    ∃ before, (p.join n).pieces = before ++ [n] := by
  obtain ⟨before, -, h⟩ | ⟨-, h⟩ := pieces_join p n
  · exact ⟨before, h⟩
  · exact ⟨p.pieces, h⟩

/-- The name is all that stands behind the last slash of a path that has been joined with it. -/
theorem getLast?_components_written (p : Path) {n : String} (hn : n ≠ "")
    (hslash : '/' ∉ n.toList) :
    (ofString (p.join n).toString).components.getLast? = some n := by
  obtain ⟨before, hpieces⟩ := exists_pieces_join p n
  have hwritten : ∃ front, (ofString (p.join n).toString).pieces = front ++ [n] := by
    rw [show p.join n = ⟨before ++ [n]⟩ from congrArg mk hpieces, ofString, cut_eq_splitOn]
    cases before with
    | nil =>
      refine ⟨[], ?_⟩
      rw [List.nil_append, toList_toString_cons, slashed, List.flatMap_nil, List.append_nil,
        List.splitOn_eq_singleton hslash, List.map_singleton, String.ofList_toList]
    | cons x xs =>
      refine ⟨((x.toList ++ slashed xs).splitOn '/').map String.ofList, ?_⟩
      have hlast : x.toList ++ slashed (xs ++ [n]) = x.toList ++ slashed xs ++ '/' :: n.toList := by
        simp [slashed]
      rw [List.cons_append, toList_toString_cons, hlast, List.splitOn_append_cons_self,
        List.splitOn_eq_singleton hslash, List.map_append, List.map_singleton,
        String.ofList_toList]
  obtain ⟨front, hfront⟩ := hwritten
  rw [components, hfront, List.filter_append, List.filter_cons_of_pos (by simpa using hn),
    List.filter_nil, List.getLast?_concat]

end Path

namespace Wizard

/-! ## What is printed -/

/-- Lines, indented. -/
def indented : List String → String
  | [] => ""
  | line :: lines => "  " ++ line ++ "\n" ++ indented lines

/-- A heading behind an empty line, and lines below it. -/
def sectionText (heading : String) (lines : List String) : String :=
  "\n" ++ heading ++ "\n" ++ indented lines

def welcome : String := sectionText "Create new project" [
  "Welcome to the project wizard to create a new sipa project!",
  "Answer the questions wisely!"]

def creating : String := sectionText "Creating project ..." []

/-- The directory of the project, the numbers of files and how to go on. -/
def success (destination : Path) (fitted left : Nat) (directory : String) : String :=
  "  Project dir " ++ destination.toString ++ "\n" ++
  ("  " ++ (toString fitted ++ " files fitted, " ++ toString left ++ " left as is") ++ "\n") ++
  sectionText "Ready to start!" [
    "Hey, your basic project has been created, it's time to have fun again!",
    "",
    "To start the development server, cd " ++ directory
      ++ " into your project directory and run sipa server."]

end Wizard

/-- The world after a text has been printed. -/
def World.printing (w : World) (text : String) : World := { w with printed := w.printed ++ text }

theorem World.printing_printing (w : World) (s t : String) :
    (w.printing s).printing t = w.printing (s ++ t) := by
  simp only [printing, String.append_assoc]

namespace Wizard

theorem print_eq (line : String) (w : World) :
    Run.print line w = .ok () (w.printing (line ++ "\n")) := by
  rw [World.printing, ← String.append_assoc]
  rfl

theorem forM_print (lines : List String) (w : World) :
    (lines.forM fun line => Run.print ("  " ++ line)) w = .ok () (w.printing (indented lines)) := by
  induction lines generalizing w with
  | nil =>
    rw [indented, World.printing, String.append_empty]
    rfl
  | cons line lines ih =>
    have hrest := ih (w.printing ("  " ++ line ++ "\n"))
    rw [World.printing_printing] at hrest
    exact (bind_of_ok (print_eq ("  " ++ line) w)).trans hrest

theorem printSection_eq (heading : String) (lines : List String) (w : World) :
    printSection heading lines w = .ok () (w.printing (sectionText heading lines)) := by
  rw [printSection, bind_of_ok (print_eq _ _), forM_print, World.printing_printing]
  rfl

theorem printSuccess_eq (project : Project) (directory : String) (w : World) :
    (do
      Run.print ("  Project dir " ++ project.destination.toString)
      Run.print ("  " ++ summaryLine project.report)
      printSection "Ready to start!" [
        "Hey, your basic project has been created, it's time to have fun again!",
        "",
        startLine directory]
      return project) w =
      .ok project (w.printing (success project.destination project.report.filled.length
        (project.report.unchanged.length + project.report.skipped.length) directory)) := by
  refine (bind_of_ok (print_eq _ _)).trans ?_
  refine (bind_of_ok (print_eq _ _)).trans ?_
  refine (bind_of_ok (printSection_eq _ _ _)).trans ?_
  simp only [World.printing_printing]
  rfl

/-- The wizard prints between its stages, and each stage decides whether there is another one. -/
theorem run_eq (config : Config) (shipped base : Path) (w : World) :
    run config shipped base w =
      match collect base config.defaults (w.printing welcome) with
      | .error e w₁ => .error e w₁
      | .ok request w₁ =>
        match scaffold request (config.options shipped base) (w₁.printing creating) with
        | .error e w₂ => .error e w₂
        | .ok project w₂ => .ok project (w₂.printing (success project.destination
          project.report.filled.length
          (project.report.unchanged.length + project.report.skipped.length)
          request.directoryName)) := by
  rw [run, bind_of_ok (printSection_eq _ _ _), ← welcome]
  cases hcollect : collect base config.defaults (w.printing welcome) with
  | error e w₁ => exact bind_of_error hcollect
  | ok request w₁ =>
    rw [bind_of_ok hcollect, bind_of_ok (printSection_eq _ _ _), ← creating]
    cases hscaffold : scaffold request (config.options shipped base) (w₁.printing creating) with
    | error e w₂ => simpa only [hscaffold] using bind_of_error hscaffold
    | ok project w₂ =>
      simpa only [hscaffold] using (bind_of_ok hscaffold).trans (printSuccess_eq project _ w₂)

theorem silent_collect (base : Path) (defaults : Defaults) : Silent (collect base defaults) := by
  intro w
  obtain ⟨turned, rest, h, hnot, hname⟩ := exists_turned w.files base w.answers
  have hrun := collect_of_turned h hnot hname defaults
  rw [after, hrun]
  rcases rest with _ | ⟨name, _ | ⟨version, _ | ⟨author, _ | ⟨email, left⟩⟩⟩⟩ <;> rfl

/-- The printed text tells how far the run has come: without an answer to every question it is the
welcome; the second heading comes with the request, and all the rest with the project. The numbers
add up to the files of the project, the first of them being the number of those that differ from
the draft, and the directory to go to is the last component of the path printed before. -/
theorem run_tells (config : Config) (shipped base : Path) (w : World) (hwf : w.files.WellFormed) :
    (∀ e w₁, collect base config.defaults (w.printing welcome) = .error e w₁ →
      run config shipped base w = .error e w₁ ∧ w₁.printed = w.printed ++ welcome) ∧
    ∀ request w₁, collect base config.defaults (w.printing welcome) = .ok request w₁ →
      (∀ e w', run config shipped base w = .error e w' →
        w'.printed = w.printed ++ welcome ++ creating) ∧
      ∀ project w', run config shipped base w = .ok project w' →
        ∃ fitted left l made,
          w'.printed = w.printed ++ welcome ++ creating ++
            success project.destination fitted left request.directoryName ∧
          draft request (config.options shipped base) (w₁.printing creating) =
            .ok (project.destination, project.bindings) made ∧
          w'.files.locate project.destination = .ok l ∧
          fitted + left = w'.files.fileCount l ∧
          fitted = w'.files.changedCount made.files l ∧
          (Path.ofString project.destination.toString).components.getLast? =
            some request.directoryName := by
  constructor
  · intro e w₁ hcollect
    refine ⟨?_, (silent_collect base config.defaults).of_error hcollect⟩
    rw [run_eq, hcollect]
  · intro request w₁ hcollect
    have hprinted : w₁.printed = w.printed ++ welcome :=
      (silent_collect base config.defaults).of_ok hcollect
    have hsilent := silent_scaffold request (config.options shipped base)
    rw [run_eq, hcollect]
    constructor
    · intro e w' herror
      cases hscaffold : scaffold request (config.options shipped base) (w₁.printing creating) with
      | error e' w₂ =>
        simp only [hscaffold] at herror
        obtain ⟨rfl, rfl⟩ := herror
        rw [hsilent.of_error hscaffold, World.printing, hprinted]
      | ok project w₂ => simp [hscaffold] at herror
    · intro project w' hok
      cases hscaffold : scaffold request (config.options shipped base) (w₁.printing creating) with
      | error e w₂ => simp [hscaffold] at hok
      | ok made w₂ =>
        simp only [hscaffold] at hok
        obtain ⟨rfl, rfl⟩ := hok
        obtain ⟨hfiles, havail⟩ := (collect_ends base config.defaults _).of_ok hcollect
        have hwf₁ : (w₁.printing creating).files.WellFormed := by
          rw [World.printing, hfiles]
          exact hwf
        obtain ⟨l, draft, hdraft, hdest, hlocate, hcount, hchanged⟩ :=
          scaffold_counts hwf₁ hscaffold
        have hprinted₂ : w₂.printed = w.printed ++ welcome ++ creating := by
          rw [hsilent.of_ok hscaffold, World.printing, hprinted]
        have hlast := Path.getLast?_components_written base (free_of_isAvailable havail).1
          (not_mem_dashCase (by decide) (by decide) request.name)
        refine ⟨_, _, l, draft, ?_, hdraft, hlocate, hcount, hchanged, ?_⟩
        · rw [World.printing, hprinted₂]
        · rw [hdest]
          exact hlast

/-- A user who answers every question. -/
def answeredWorld : World where
  files := sampleFiles
  answers := ["My App", "1.0", "Ada", "a@b"]

/-- One of the files has been filled in; another one and the descriptor stay as they were made. -/
theorem run_tells_finished :
    sampleFiles.WellFormed ∧ ∃ project w',
      run {} ⟨["app"]⟩ ⟨["base"]⟩ answeredWorld = .ok project w' ∧
      w'.printed = "" ++ welcome ++ creating ++ success ⟨["base", "my-app"]⟩ 1 2 "my-app" ∧
      w'.files.fileCount ["my-app", "base"] = 3 := by
  have hwf : sampleFiles.WellFormed := by decide
  have hcollect := eq_ok_of_value? (x := collect ⟨["base"]⟩ {})
    (w := answeredWorld.printing welcome) (a := ⟨"My App", "1.0", "Ada", "a@b"⟩) (by decide +kernel)
  obtain ⟨hvalue, hplace, hthree⟩ :
      (run {} ⟨["app"]⟩ ⟨["base"]⟩).value? answeredWorld = some ⟨⟨["base", "my-app"]⟩,
          sampleRequest.bindings, ⟨[["readme"]], [["notes", "more"], ["package.json"]], []⟩⟩ ∧
        ((run {} ⟨["app"]⟩ ⟨["base"]⟩).after answeredWorld).files.locate ⟨["base", "my-app"]⟩ =
          .ok ["my-app", "base"] ∧
        ((run {} ⟨["app"]⟩ ⟨["base"]⟩).after answeredWorld).files.fileCount ["my-app", "base"] =
          3 := by decide +kernel
  have hrun := eq_ok_of_value? hvalue
  obtain ⟨fitted, left, l, made, hprinted, hdraft, hlocate, hsum, hfitted, -⟩ :=
    ((run_tells {} ⟨["app"]⟩ ⟨["base"]⟩ answeredWorld hwf).2 _ _ hcollect).2 _ _ hrun
  obtain rfl : l = ["my-app", "base"] := Except.ok.inj (hlocate.symm.trans hplace)
  obtain rfl : fitted = 1 := by
    rw [hfitted, eq_after_of_ok hdraft]
    decide +kernel
  obtain rfl : left = 2 := by omega
  have hname : dashCase "My App" = "my-app" := by decide +kernel
  rw [Request.directoryName, hname] at hprinted
  exact ⟨hwf, _, _, hrun, hprinted, hthree⟩

end Wizard

end Stencil
