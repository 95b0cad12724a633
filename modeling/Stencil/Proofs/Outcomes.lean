import Stencil.Proofs.Substituting
import Stencil.Proofs.TemplateTree

/-!
How making a project ends.

`Made` says what a run leaves behind that returns, and `Aftermath` what one leaves behind that
fails. Main statement: nothing else can happen (`scaffold_ends`), and for a missing template the
failure is decided before anything is made (`scaffold_failure`).
-/

namespace Stencil

open FileSystem Run

/-- The files are those of `fs`, with a directory at `l` that holds these entries and no others. -/
structure Holds (fs : FileSystem) (l : Location) (entries : List (Location × Entry))
    (gs : FileSystem) : Prop where
  same : SameOff l fs gs
  root : gs.get? l = some .directory
  below : ∀ {r e}, r ≠ [] → (gs.get? (r ++ l) = some e ↔ (r, e) ∈ entries)

/-- The entries with the descriptor of a request among them, in place of one that is there. -/
def withDescriptor (request : Request) (entries : List (Location × Entry)) :
    List (Location × Entry) :=
  ([Descriptor.fileName], .file (Descriptor.ofRequest request).render.toUTF8) ::
    entries.filter (·.1 ≠ [Descriptor.fileName])

/-- What the steps of a walk put into the destination. -/
def FileSystem.copies (fs : FileSystem) (dest : Path) (steps : List Step) :
    List (Location × Entry) := steps.filterMap (fs.copy? dest)

/-- Every step of the walk through the template can be copied. -/
def FileSystem.Copyable (fs : FileSystem) (dest template : Path) : Prop :=
  ∀ s ∈ fs.walk true template, (fs.copy? dest s).isSome

/-- What a failure leaves of the files `fs`. -/
inductive Aftermath (fs : FileSystem) (request : Request) (options : Options) (dest : Path) :
    Failure → FileSystem → Prop
  | templateMissing : ¬ fs.isDirectory options.template →
      Aftermath fs request options dest (.templateMissing options.template) fs
  | destinationExists : fs.isDirectory options.template →
      fs.createDirectory dest = .error .alreadyExists →
      Aftermath fs request options dest (.destinationExists dest) fs
  | notCreated {cause} : fs.isDirectory options.template →
      fs.createDirectory dest = .error cause → cause ≠ .alreadyExists →
      Aftermath fs request options dest
        (.system ("creating project directory " ++ dest.toString) cause) fs
  /-- The copies of what comes before the first entry that cannot be copied. -/
  | copyFailed {l done s rest context cause gs} : fs.isDirectory options.template →
      fs.site? dest = some l → fs.walk true options.template = done ++ s :: rest →
      (∀ t ∈ done, (fs.copy? dest t).isSome) → fs.copy? dest s = none →
      Holds fs l (fs.copies dest done) gs →
      Aftermath fs request options dest (.copyFailed dest context cause) gs
  /-- The whole copy. A directory stands where the descriptor is to be written. -/
  | unwritten {l cause gs} : fs.isDirectory options.template →
      fs.site? dest = some l → fs.Copyable dest options.template →
      fs.isDirectory (options.template.join Descriptor.fileName) ∨
        maxPathSize < (dest.join Descriptor.fileName).size →
      Holds fs l (fs.copies dest (fs.walk true options.template)) gs →
      Aftermath fs request options dest
        (.system ("writing " ++ (dest.join Descriptor.fileName).toString) cause) gs
  /-- The whole copy with the descriptor, and nothing filled in. -/
  | unresolved {l k b text name gs} : fs.isDirectory options.template →
      fs.site? dest = some l → fs.Copyable dest options.template → options.policy = .fail →
      gs.get? (k ++ l) = some (.file b) → textOf? b = some text →
      substitute text (Descriptor.ofRequest request).bindings .fail = .error name →
      Holds fs l (withDescriptor request (fs.copies dest (fs.walk true options.template))) gs →
      Aftermath fs request options dest (.unresolved (dest.joinAll k) name) gs

/-- What a run that returns has made of the files `fs`. -/
structure Made (fs : FileSystem) (request : Request) (options : Options) (project : Project)
    (gs : FileSystem) : Prop where
  template : fs.isDirectory options.template
  destination : project.destination = destinationOf options.base request.name
  bindings : project.bindings = (Descriptor.ofRequest request).bindings
  copyable : fs.Copyable project.destination options.template
  files : ∃ l mid, fs.site? project.destination = some l ∧ fs.Grown project.destination l gs ∧
    Holds fs l
      (withDescriptor request (fs.copies project.destination (fs.walk true options.template))) mid ∧
    FilledIn project.bindings options.policy l mid gs project.report

section Copy

variable {fs gs : FileSystem} {dest : Path} {l : Location} {steps : List Step}

theorem FileSystem.Copies.isSome (h : fs.Copies dest l gs steps gs') :
    ∀ s ∈ steps, (fs.copy? dest s).isSome := by
  induction h with
  | nil => simp
  | cons hs _ ih => exact List.forall_mem_cons.2 ⟨Option.isSome_of_eq_some hs, ih⟩

theorem holds_of_copies (hgrown : fs.Grown dest l gs)
    (hcopies : fs.Copies dest l (fs.set l .directory) steps gs)
    (hnodup : (steps.filterMap Step.below?).Nodup) : Holds fs l (fs.copies dest steps) gs := by
  obtain ⟨-, hl, hnone, -, -⟩ := site_spec hgrown.old hgrown.site
  refine ⟨hgrown.same, hgrown.root, fun {r e} hr => ?_⟩
  rw [hcopies.get?_iff hl hnodup, get?_created_below hgrown.old hl hnone hr]
  simp [copies]

theorem Holds.described {entries : List (Location × Entry)} (h : Holds fs l entries gs)
    (request : Request) :
    Holds fs l (withDescriptor request entries)
      (gs.set (Descriptor.fileName :: l)
        (.file (Descriptor.ofRequest request).render.toUTF8)) := by
  have hsuf : l <:+ Descriptor.fileName :: l := List.suffix_cons _ _
  refine ⟨h.same.set hsuf (by simp) _, ?_, fun {r e} hr => ?_⟩
  · have hne : l ≠ Descriptor.fileName :: l := fun heq =>
      absurd (congrArg List.length heq) (by simp)
    rw [get?_set _ (by simp), if_neg hne, h.root]
  · rw [get?_set _ (by simp), withDescriptor]
    by_cases hfile : r = [Descriptor.fileName]
    · subst hfile
      simp [eq_comm]
    · have hne : r ++ l ≠ Descriptor.fileName :: l := fun heq =>
        hfile (List.append_cancel_right (heq : r ++ l = [Descriptor.fileName] ++ l))
      rw [if_neg hne, h.below hr]
      simp [hfile]

end Copy

/-! ## The whole run -/

variable {w : World} {request : Request} {options : Options}

theorem unwritten_cause {fs gs : FileSystem} {dest template : Path} {l : Location}
    (hwf : fs.WellFormed) (hroot : fs.isDirectory template) (hall : fs.Copyable dest template)
    (hholds : Holds fs l (fs.copies dest (fs.walk true template)) gs)
    (h : gs.get? (Descriptor.fileName :: l) = some .directory) :
    fs.isDirectory (template.join Descriptor.fileName) := by
  have hmem := (hholds.below (List.cons_ne_nil Descriptor.fileName [])).1 h
  rw [copies, mem_copies_iff hwf (isDirectory_iff.1 hroot) hall (by simp)] at hmem
  exact isDirectory_iff.2 hmem.2

theorem unresolved_aftermath {fs gs : FileSystem} {dest : Path} {l : Location} {e : Failure}
    (hroot : fs.isDirectory options.template) (hsite : fs.site? dest = some l)
    (hall : fs.Copyable dest options.template)
    (hholds : Holds fs l
      (withDescriptor request (fs.copies dest (fs.walk true options.template))) gs)
    (h : RefusedBelow (Descriptor.ofRequest request).bindings options.policy dest l gs e) :
    Aftermath fs request options dest e gs := by
  obtain ⟨k, b, name, hb, hfate, rfl⟩ := h
  rw [fate] at hfate
  cases htext : textOf? b with
  | none => simp [htext] at hfate
  | some text =>
    cases hsub : substitute text (Descriptor.ofRequest request).bindings options.policy with
    | ok result => simp [htext, hsub] at hfate
    | error name' =>
      obtain rfl : name' = name := by simpa [htext, hsub] using hfate
      have hpolicy := (substitute_eq_error_iff.1 hsub).1
      rw [hpolicy] at hsub
      exact .unresolved hroot hsite hall hpolicy hb htext hsub hholds

theorem scaffold_ends (hwf : w.files.WellFormed)
    (hreach : ∀ l, w.files.site? (destinationOf options.base request.name) = some l →
      ¬ w.files.Reaches options.template l) :
    Ends (scaffold request options) w
      (fun project w' => Made w.files request options project w'.files)
      fun e w' => Aftermath w.files request options (destinationOf options.base request.name) e
        w'.files := by
  rw [scaffold]
  simp only [ends_bind, ends_emit, ends_pure, ends_materialize]
  generalize hdest : destinationOf options.base request.name = dest at *
  split
  · rename_i hroot
    refine createDestination_ends.imp ?_ ?_
    · rintro _ w₁ ⟨l, hsite, hw₁⟩
      have hnodup := nodup_walk w.files true options.template
      refine (copyTemplate_ends hwf hsite (isDirectory_iff.1 hroot) (hreach l hsite) hw₁).imp ?_ ?_
      · rintro _ w₂ ⟨hgrown₂, hcopies⟩
        have hall := hcopies.isSome
        have hholds₂ := holds_of_copies hgrown₂ hcopies hnodup
        have hgrown₂' : w.files.Grown dest l
            { w₂ with log := w₂.log ++ [Event.writingDescriptor] }.files := hgrown₂
        refine (writeDescriptor_ends hgrown₂').imp ?_ ?_
        · rintro bindings w₃ ⟨rfl, hlater₃, hw₃⟩
          have hholds₃ := hholds₂.described request
          have hgrown₃ : w.files.Grown dest l
              { w₃ with log := w₃.log ++ [Event.substituting options.policy] }.files :=
            hlater₃.grown
          refine (fillDirectory_ends hgrown₃).imp ?_ ?_
          · rintro report w₄ ⟨hlater₄, hfilled⟩
            exact ⟨hroot, hdest.symm, rfl, hall, l, _, hsite, hlater₄.grown, hholds₃,
              hw₃ ▸ hfilled⟩
          · rintro e w₄ ⟨hw₄, hrefused⟩
            rw [hw₄]
            exact unresolved_aftermath hroot hsite hall (hw₃ ▸ hholds₃) hrefused
        · rintro e w₃ ⟨hw₃, ⟨x, rfl⟩, hcause⟩
          have hcause' : w.files.isDirectory (options.template.join Descriptor.fileName) ∨
              maxPathSize < (dest.join Descriptor.fileName).size :=
            hcause.symm.imp_left (unwritten_cause hwf hroot hall hholds₂)
          rw [hw₃]
          exact .unwritten hroot hsite hall hcause' hholds₂
      · rintro e w₂ ⟨hgrown₂, ⟨done, s, rest, hwalk, hs, hdone⟩, context, cause, rfl⟩
        rw [hwalk, List.filterMap_append] at hnodup
        exact .copyFailed hroot hsite hwalk hdone.isSome hs
          (holds_of_copies hgrown₂ hdone hnodup.of_append_left)
    · rintro e w₁ ⟨hw₁, ⟨hmake, rfl⟩ | ⟨x, hmake, hx, rfl⟩⟩
      · rw [hw₁]
        exact .destinationExists hroot hmake
      · rw [hw₁]
        exact .notCreated hroot hmake hx
  · rename_i hroot
    exact .templateMissing hroot

theorem sample_not_reached {policy : Policy} (l : Location)
    (h : sampleFiles.site? (destinationOf (sampleOptions policy).base sampleRequest.name) =
      some l) :
    ¬ sampleFiles.Reaches (sampleOptions policy).template l := by
  have hsite : sampleFiles.site? (destinationOf ⟨["base"]⟩ "My App") = some ["my-app", "base"] := by
    decide +kernel
  obtain rfl : ["my-app", "base"] = l := Option.some.inj (hsite.symm.trans h)
  show ¬ sampleFiles.Reaches ⟨["app"]⟩ ["my-app", "base"]
  decide +kernel

theorem scaffold_of_missing (h : ¬ w.files.isDirectory options.template) :
    ∃ w', scaffold request options w = .error (.templateMissing options.template) w' := by
  have hends : Ends (scaffold request options) w (fun _ _ => False)
      fun e _ => e = .templateMissing options.template := by
    rw [scaffold]
    simp only [ends_bind, ends_emit, ends_materialize, if_neg h]
  cases hrun : scaffold request options w with
  | ok project w' => exact absurd (hends.of_ok hrun) id
  | error e w' => exact ⟨w', by rw [hends.of_error hrun]⟩

theorem Aftermath.missing {fs gs : FileSystem} {dest p : Path}
    (h : Aftermath fs request options dest (.templateMissing p) gs) :
    ¬ fs.isDirectory options.template := by
  cases h with
  | templateMissing h => exact h

/-- A missing template is found out before anything else, and whatever failure a run ends with, it
leaves what `Aftermath` says. -/
theorem scaffold_failure (hwf : w.files.WellFormed)
    (hreach : ∀ l, w.files.site? (destinationOf options.base request.name) = some l →
      ¬ w.files.Reaches options.template l) :
    ((∃ w', scaffold request options w = .error (.templateMissing options.template) w') ↔
        ¬ w.files.isDirectory options.template) ∧
      ∀ e w', scaffold request options w = .error e w' →
        Aftermath w.files request options (destinationOf options.base request.name) e w'.files := by
  have hafter : ∀ e w', scaffold request options w = .error e w' →
      Aftermath w.files request options (destinationOf options.base request.name) e w'.files :=
    fun e w' hrun => (scaffold_ends hwf hreach).of_error hrun
  refine ⟨⟨?_, scaffold_of_missing⟩, hafter⟩
  rintro ⟨w', hrun⟩
  exact (hafter _ _ hrun).missing

/-- The file behind the link asks for a name that has no value. -/
theorem scaffold_failure_unresolved :
    ∃ w', scaffold sampleRequest (sampleOptions .fail) { files := sampleFiles } =
        .error (.unresolved ⟨["base", "my-app", "more", "notes"]⟩ "owner") w' ∧
      Aftermath sampleFiles sampleRequest (sampleOptions .fail) ⟨["base", "my-app"]⟩
        (.unresolved ⟨["base", "my-app", "more", "notes"]⟩ "owner") w'.files := by
  have hwf : sampleFiles.WellFormed := by decide
  have hrun := eq_error_of_failure? (x := scaffold sampleRequest (sampleOptions .fail))
    (w := { files := sampleFiles })
    (e := .unresolved ⟨["base", "my-app", "more", "notes"]⟩ "owner") (by decide +kernel)
  exact ⟨_, hrun, (scaffold_failure (w := { files := sampleFiles }) hwf sample_not_reached).2 _ _
    hrun⟩

end Stencil
