import Stencil.Proofs.Outcomes

/-!
What a finished project holds.

The files of a project are a function of the template and the request: `source?` says what stands
at a place of the template, links followed and the descriptor of the request put in, and the
project has there what it becomes by filling in. Main statement: `scaffold_finished`.
-/

namespace Stencil

open FileSystem Run

/-- What a project is made from at a place below its root: the descriptor of the request, and else
what a path below the template leads to. -/
def source? (fs : FileSystem) (template : Path) (request : Request) (k : Location) :
    Option Entry :=
  if k = [Descriptor.fileName] then
    some (.file (Descriptor.ofRequest request).render.toUTF8)
  else if ∀ n ∈ k, LegalName n then (fs.status (template.joinAll k)).toOption
  else none

/-- What becomes of an entry. -/
def Entry.filled (bindings : Bindings) (policy : Policy) : Entry → Entry
  | .file bytes => .file (filledBytes bindings policy bytes)
  | e => e

/-- The variables of a request. -/
def Request.bindings (r : Request) : Bindings :=
  .ofList [("version", r.version), ("project_name", dashCase r.name)]

/-- The project of a request stands at `l` in `gs`, made from the files `fs`. -/
structure Finished (fs : FileSystem) (request : Request) (options : Options) (report : Report)
    (l : Location) (gs : FileSystem) : Prop where
  /-- Its place was vacant, and the path of the destination leads there. -/
  vacant : fs.get? l = none
  located : gs.locate (destinationOf options.base request.name) = .ok l
  root : gs.get? l = some .directory
  outside : ∀ k, ¬ l <:+ k → gs.get? k = fs.get? k
  /-- Its tree is that of the template, filled in. -/
  tree : ∀ k, k ≠ [] → gs.get? (k ++ l) =
    (source? fs options.template request k).map (Entry.filled request.bindings options.policy)
  plain : ∀ k e, k ≠ [] → source? fs options.template request k = some e →
    e = .directory ∨ ∃ b, e = .file b
  resolved : ∀ k b text, k ≠ [] → source? fs options.template request k = some (.file b) →
    textOf? b = some text → ∃ result, substitute text request.bindings options.policy = .ok result ∧
      gs.get? (k ++ l) = some (.file result.toUTF8)
  untouched : ∀ k b, k ≠ [] → source? fs options.template request k = some (.file b) →
    textOf? b = none → gs.get? (k ++ l) = some (.file b)
  /-- The report names every file once, and says which have become others. -/
  reported_once : (report.filled ++ report.unchanged ++ report.skipped).Nodup
  reported : ∀ k, k ∈ report.filled ++ report.unchanged ++ report.skipped ↔
    k ≠ [] ∧ ∃ b, source? fs options.template request k = some (.file b)
  rewritten : ∀ k, k ∈ report.filled ↔
    k ≠ [] ∧ ∃ b, source? fs options.template request k = some (.file b) ∧
      gs.get? (k ++ l) ≠ some (.file b)

theorem bindings_ofRequest (request : Request) :
    (Descriptor.ofRequest request).bindings = request.bindings := rfl

section

variable {fs mid gs : FileSystem} {request : Request} {options : Options} {dest : Path}
  {l : Location}

/-- Before anything is filled in, the copy with the descriptor holds the sources. -/
theorem Holds.get?_eq_source (hwf : fs.WellFormed) (hroot : fs.isDirectory options.template)
    (hall : fs.Copyable dest options.template)
    (h : Holds fs l
      (withDescriptor request (fs.copies dest (fs.walk true options.template))) mid)
    {k : Location} (hk : k ≠ []) :
    mid.get? (k ++ l) = source? fs options.template request k := by
  have hmem : ∀ e, mid.get? (k ++ l) = some e ↔
      source? fs options.template request k = some e := by
    intro e
    rw [h.below hk, source?, withDescriptor]
    by_cases hfile : k = [Descriptor.fileName]
    · subst hfile
      simp [eq_comm]
    · have hcopies := mem_copies_iff hwf (isDirectory_iff.1 hroot) hall (e := e) hk
      rw [if_neg hfile, copies]
      by_cases hlegal : ∀ n ∈ k, LegalName n
      · rw [if_pos hlegal]
        have hcopies' : (k, e) ∈ (fs.walk true options.template).filterMap (fs.copy? dest) ↔
            fs.status (options.template.joinAll k) = .ok e := by
          rw [hcopies]
          exact and_iff_right hlegal
        cases hstatus : fs.status (options.template.joinAll k) <;>
          simp [hfile, hcopies', hstatus, Except.toOption]
      · rw [if_neg hlegal]
        simp [hfile, hcopies, hlegal]
  exact Option.ext hmem

variable {bindings : Bindings} {policy : Policy} {report : Report}

theorem FilledIn.get?_eq (h : FilledIn bindings policy l mid gs report) (k : Location) :
    gs.get? (k ++ l) = (mid.get? (k ++ l)).map (Entry.filled bindings policy) := by
  cases hk : mid.get? (k ++ l) with
  | none => rw [h.other (by simp [hk]), hk, Option.map_none]
  | some e =>
    cases e with
    | file b => rw [h.file hk, Option.map_some, Entry.filled]
    | _ =>
      rw [h.other (by simp [hk]), hk]
      rfl

theorem FilledIn.mem_report (h : FilledIn bindings policy l mid gs report) {k : Location} :
    k ∈ report.filled ++ report.unchanged ++ report.skipped ↔
      ∃ b, mid.get? (k ++ l) = some (.file b) := by
  rw [List.mem_append, List.mem_append, h.filled, h.unchanged, h.skipped]
  constructor
  · rintro ((⟨b, hb, -⟩ | ⟨b, hb, -⟩) | ⟨b, hb, -⟩) <;> exact ⟨b, hb⟩
  · rintro ⟨b, hb⟩
    by_cases htext : textOf? b = none
    · exact .inr ⟨b, hb, htext⟩
    · by_cases hsame : filledBytes bindings policy b = b
      · exact .inl (.inr ⟨b, hb, htext, hsame⟩)
      · exact .inl (.inl ⟨b, hb, hsame⟩)

theorem finished_of_made {project : Project} (hwf : fs.WellFormed)
    (h : Made fs request options project gs) :
    ∃ l, fs.site? (destinationOf options.base request.name) = some l ∧
      Finished fs request options project.report l gs := by
  obtain ⟨hroot, hdest, hbindings, hall, l, mid, hsite, hgrown, hholds, hfilled⟩ := h
  rw [hbindings, bindings_ofRequest] at hfilled
  rw [hdest] at hall hsite hgrown hholds
  have hsource : ∀ {k}, k ≠ [] → mid.get? (k ++ l) = source? fs options.template request k :=
    fun hk => hholds.get?_eq_source hwf hroot hall hk
  have htree : ∀ k, k ≠ [] → gs.get? (k ++ l) =
      (source? fs options.template request k).map
        (Entry.filled request.bindings options.policy) := by
    intro k hk
    rw [← hsource hk]
    exact hfilled.get?_eq k
  -- the root of the project is no file
  have hfile : ∀ k, (∃ b, mid.get? (k ++ l) = some (.file b)) ↔
      k ≠ [] ∧ ∃ b, source? fs options.template request k = some (.file b) := by
    intro k
    by_cases hk : k = []
    · subst hk
      simp [hholds.root]
    · rw [hsource hk, and_iff_right hk]
  refine ⟨l, hsite, (site_spec hwf hsite).2.2.1, hgrown.locate_root, hgrown.root,
    fun k hk => hgrown.same.outside hk, htree, ?_, ?_, ?_, hfilled.nodup, ?_, ?_⟩
  · intro k e hk he
    have hget := htree k hk
    rw [he] at hget
    cases e with
    | directory => exact .inl rfl
    | file b => exact .inr ⟨b, rfl⟩
    | _ => simpa [Entry.filled] using hgrown.plain hk hget
  · intro k b text hk hb htext
    exact hfilled.text ((hsource hk).trans hb) htext
  · intro k b hk hb htext
    rw [hfilled.file ((hsource hk).trans hb), filledBytes]
    simp only [htext]
  · intro k
    rw [hfilled.mem_report, hfile]
  · intro k
    rw [hfilled.filled]
    constructor
    · rintro ⟨b, hb, hne⟩
      obtain ⟨hk, -⟩ := (hfile k).1 ⟨b, hb⟩
      refine ⟨hk, b, (hsource hk).symm.trans hb, ?_⟩
      rw [hfilled.file hb]
      simpa using hne
    · rintro ⟨hk, b, hb, hne⟩
      have hb' := (hsource hk).trans hb
      refine ⟨b, hb', fun hsame => hne ?_⟩
      rw [hfilled.file hb', hsame]

/-- A run that returns has made the project of the request, at the path it was to stand at, from a
template whose walk does not reach that place. -/
theorem scaffold_finished {w w' : World} {project : Project} (hwf : w.files.WellFormed)
    (hreach : ∀ l, w.files.site? (destinationOf options.base request.name) = some l →
      ¬ w.files.Reaches options.template l)
    (h : scaffold request options w = .ok project w') :
    project.destination = destinationOf options.base request.name ∧
      project.bindings = request.bindings ∧
      ∃ l, w.files.site? (destinationOf options.base request.name) = some l ∧
        Finished w.files request options project.report l w'.files := by
  have hmade := (scaffold_ends hwf hreach).of_ok h
  exact ⟨hmade.destination, hmade.bindings, finished_of_made hwf hmade⟩

/-- The file behind the link is copied, and the name that has no value stays as it is. -/
theorem scaffold_finished_sample :
    ∃ w', scaffold sampleRequest (sampleOptions .keep) { files := sampleFiles } =
        .ok ⟨⟨["base", "my-app"]⟩, sampleRequest.bindings,
          ⟨[["readme"]], [["notes", "more"], ["package.json"]], []⟩⟩ w' ∧
      ∃ l, Finished sampleFiles sampleRequest (sampleOptions .keep)
        ⟨[["readme"]], [["notes", "more"], ["package.json"]], []⟩ l w'.files := by
  have hwf : sampleFiles.WellFormed := by decide
  have hrun := eq_ok_of_value? (x := scaffold sampleRequest (sampleOptions .keep))
    (w := { files := sampleFiles })
    (a := ⟨⟨["base", "my-app"]⟩, sampleRequest.bindings,
      ⟨[["readme"]], [["notes", "more"], ["package.json"]], []⟩⟩) (by decide +kernel)
  obtain ⟨-, -, l, -, hfinished⟩ := scaffold_finished hwf sample_not_reached hrun
  exact ⟨_, hrun, l, hfinished⟩

end

end Stencil
