import Stencil.Scaffold
import Stencil.Proofs.FilledTree

/-!
Making projects never takes anything away.

A run of `scaffold` leaves the files as they were or grown at the site of its destination
(`scaffold_grows`). Main statement: however many projects are made one after the other, and
however each of them ends, what was there stays as it was, and what is new is a directory or a file
in the directory of the project (`scaffoldAll_adds`).
-/

namespace Stencil

open FileSystem Run

variable {w : World}

theorem ends_materialize {request : Request} {template base : Path} {ok : Path → World → Prop}
    {failed : Failure → World → Prop} :
    Ends (materialize request template base) w ok failed ↔
      if w.files.isDirectory template then
        Ends (createDestination (destinationOf base request.name)) w
          (fun _ w' => Ends (copyTemplate template (destinationOf base request.name)) w'
            (fun _ => ok (destinationOf base request.name)) failed) failed
      else failed (.templateMissing template) w := by
  rw [materialize]
  simp only [ends_bind, ends_get]
  split
  · simp only [ends_bind, ends_pure]
  · simp only [ends_bind, ends_throw]

/-- Where there is a site, the directory is made, and only the copying decides. -/
theorem ends_materialize_of_site {request : Request} {template base : Path} {l : Location}
    {ok : Path → World → Prop} {failed : Failure → World → Prop}
    (hroot : w.files.isDirectory template)
    (hsite : w.files.site? (destinationOf base request.name) = some l)
    (h : ∀ w₁ : World, w₁.files = w.files.set l .directory →
      Ends (copyTemplate template (destinationOf base request.name)) w₁
        (fun _ => ok (destinationOf base request.name)) failed) :
    Ends (materialize request template base) w ok failed := by
  rw [ends_materialize, if_pos hroot]
  refine createDestination_ends.imp ?_ ?_
  · rintro _ w₁ ⟨l', hsite', hw₁⟩
    obtain rfl : l = l' := Option.some.inj (hsite.symm.trans hsite')
    exact h w₁ hw₁
  · rintro e w₁ ⟨-, ⟨hmake, -⟩ | ⟨x, hmake, -⟩⟩
    · simp [createDirectory_of_site hsite] at hmake
    · simp [createDirectory_of_site hsite] at hmake

/-- A run that returns has written the descriptor into a new directory and filled the files in; one
that ends early leaves a part of the directory behind, or nothing. -/
theorem scaffold_grows (hwf : w.files.WellFormed) (request : Request) (options : Options) :
    Ends (scaffold request options) w
      (fun project w' => project.destination = destinationOf options.base request.name ∧
        ∃ l mid, w.files.Grown project.destination l w'.files ∧
          mid.get? (Descriptor.fileName :: l) =
            some (.file (Descriptor.ofRequest request).render.toUTF8) ∧
          FilledIn (Descriptor.ofRequest request).bindings options.policy l mid w'.files
            project.report)
      fun _ w' => w'.files = w.files ∨
        ∃ l, w.files.Grown (destinationOf options.base request.name) l w'.files := by
  rw [scaffold]
  simp only [ends_bind, ends_emit, ends_pure, ends_materialize]
  split
  · refine createDestination_ends.imp ?_ fun _ _ h => .inl h.1
    rintro _ w₁ ⟨l, hsite, hfiles⟩
    have hgrown := grown_created hwf hsite
    rw [← hfiles] at hgrown
    refine (copyTemplate_later hgrown).imp ?_ fun _ _ h => .inr ⟨l, h.grown⟩
    intro _ w₂ h₂
    have hgrown₂ : w.files.Grown (destinationOf options.base request.name) l
        { w₂ with log := w₂.log ++ [Event.writingDescriptor] }.files := h₂.grown
    refine (writeDescriptor_ends hgrown₂).imp ?_ ?_
    · rintro bindings w₃ ⟨rfl, h₃, hw₃⟩
      have hgrown₃ : w.files.Grown (destinationOf options.base request.name) l
          { w₃ with log := w₃.log ++ [Event.substituting options.policy] }.files := h₃.grown
      refine (fillDirectory_ends hgrown₃).imp ?_ ?_
      · rintro report w₄ ⟨h₄, hfilled⟩
        refine ⟨trivial, l, _, h₄.grown, ?_, hfilled⟩
        rw [hw₃, get?_set _ (List.cons_ne_nil _ _), if_pos rfl]
      · rintro e w₄ ⟨hfiles₄, -⟩
        exact .inr ⟨l, hfiles₄ ▸ hgrown₃⟩
    · rintro e w₃ ⟨hfiles₃, -⟩
      exact .inr ⟨l, hfiles₃ ▸ hgrown₂⟩
  · exact .inl trivial

theorem scaffold_leaves (hwf : w.files.WellFormed) (request : Request) (options : Options) :
    Leaves (scaffold request options) w fun w' =>
      w'.files = w.files ∨
        ∃ l, w.files.Grown (destinationOf options.base request.name) l w'.files := by
  refine (scaffold_grows hwf request options).imp ?_ fun _ _ h => h
  rintro project w' ⟨hdest, l, -, hgrown, -⟩
  exact .inr ⟨l, hdest ▸ hgrown⟩

/-- `gs` holds what `fs` holds, and besides only directories and files at `dest` and below. -/
structure Adds (dest : Path) (fs gs : FileSystem) : Prop where
  kept : ∀ {k e}, fs.get? k = some e → gs.get? k = some e
  plain : ∀ {k e}, fs.get? k = none → gs.get? k = some e → e = .directory ∨ ∃ b, e = .file b
  placed : ∀ {k e}, fs.get? k = none → gs.get? k = some e →
    ∃ l, gs.locate dest = .ok l ∧ fs.get? l = none ∧ l <:+ k

theorem FileSystem.Grown.adds {fs gs : FileSystem} {dest : Path} {l : Location}
    (h : fs.Grown dest l gs) : Adds dest fs gs := by
  obtain ⟨-, -, hnone, -, -⟩ := site_spec h.old h.site
  have hbelow : ∀ {k e}, fs.get? k = none → gs.get? k = some e → l <:+ k := by
    intro k e hk he
    by_contra hlk
    rw [h.same.outside hlk, hk] at he
    simp at he
  refine ⟨fun {k e} he => ?_, fun {k e} hk he => ?_, fun {k e} hk he => ?_⟩
  · have hlk : ¬ l <:+ k := h.old.not_suffix hnone (Option.isSome_of_eq_some he)
    rw [h.same.outside hlk, he]
  · obtain ⟨r, rfl⟩ := hbelow hk he
    by_cases hr : r = []
    · subst hr
      exact .inl (Option.some.inj (he.symm.trans h.root))
    · exact h.plain hr he
  · exact ⟨l, h.locate_root, hnone, hbelow hk he⟩

theorem scaffold_after (hwf : w.files.WellFormed) (request : Request) (options : Options) :
    ((scaffold request options).after w).files.WellFormed ∧
      Adds (destinationOf options.base request.name) w.files
        ((scaffold request options).after w).files := by
  have h := scaffold_leaves hwf request options
  rw [leaves_iff] at h
  rcases h with hsame | ⟨l, hgrown⟩
  · rw [hsame]
    refine ⟨hwf, id, ?_, ?_⟩
    · intro k e hk he
      simp [hk] at he
    · intro k e hk he
      simp [hk] at he
  · exact ⟨hgrown.wellFormed, hgrown.adds⟩

/-- The world after several projects have been asked for. -/
def scaffoldAll (calls : List (Request × Options)) (w : World) : World :=
  calls.foldl (fun w call => (scaffold call.1 call.2).after w) w

theorem scaffoldAll_append (earlier later : List (Request × Options)) (w : World) :
    scaffoldAll (earlier ++ later) w = scaffoldAll later (scaffoldAll earlier w) :=
  List.foldl_append

theorem wellFormed_scaffoldAll (hwf : w.files.WellFormed) (calls : List (Request × Options)) :
    (scaffoldAll calls w).files.WellFormed := by
  induction calls generalizing w with
  | nil => exact hwf
  | cons call calls ih => exact ih (scaffold_after hwf call.1 call.2).1

theorem kept_scaffoldAll (hwf : w.files.WellFormed) (calls : List (Request × Options))
    {k : Location} {e : Entry} (he : w.files.get? k = some e) :
    (scaffoldAll calls w).files.get? k = some e := by
  induction calls generalizing w with
  | nil => exact he
  | cons call calls ih =>
    obtain ⟨hwf', hadds⟩ := scaffold_after hwf call.1 call.2
    exact ih hwf' (hadds.kept he)

/-- Projects may be made one after the other, whatever they are and however each attempt ends: each
attempt keeps all that it finds and adds only directories and files, at its destination or below,
and what stood there at first is there to the last. -/
theorem scaffoldAll_adds (hwf : w.files.WellFormed) (earlier : List (Request × Options))
    (call : Request × Options) (later : List (Request × Options)) :
    Adds (destinationOf call.2.base call.1.name) (scaffoldAll earlier w).files
        (scaffoldAll (earlier ++ [call]) w).files ∧
      ∀ k e, (scaffoldAll earlier w).files.get? k = some e →
        (scaffoldAll (earlier ++ call :: later) w).files.get? k = some e := by
  have hearlier := wellFormed_scaffoldAll hwf earlier
  refine ⟨?_, fun k e he => ?_⟩
  · rw [scaffoldAll_append]
    exact (scaffold_after hearlier call.1 call.2).2
  · have hkept := kept_scaffoldAll hearlier (call :: later) he
    rwa [← scaffoldAll_append] at hkept

/-- A template with two files to fill in, one of them behind a link, and a directory for
projects. -/
def sampleFiles : FileSystem where
  entries := [
    (["app"], .directory),
    (["base"], .directory),
    (["lib"], .directory),
    (["readme", "app"], .file "{{project_name}}".toUTF8),
    (["more", "app"], .link ⟨["..", "lib"]⟩),
    (["notes", "lib"], .file "{{ owner }}".toUTF8)]
  workingDirectory := []

def sampleRequest : Request := ⟨"My App", "1.0", "Ada", "a@b"⟩

def sampleOptions (policy : Policy) : Options := ⟨⟨["app"]⟩, ⟨["base"]⟩, policy⟩

/-- The second project is made within the template of the first. -/
theorem scaffoldAll_adds_inside :
    sampleFiles.WellFormed ∧
      Adds ⟨["app", "my-app"]⟩
        (scaffoldAll [(sampleRequest, sampleOptions .keep)] { files := sampleFiles }).files
        (scaffoldAll [(sampleRequest, sampleOptions .keep),
          (sampleRequest, ⟨⟨["app"]⟩, ⟨["app"]⟩, .fail⟩)] { files := sampleFiles }).files := by
  have hwf : sampleFiles.WellFormed := by decide
  exact ⟨hwf, (scaffoldAll_adds (w := { files := sampleFiles }) hwf
    [(sampleRequest, sampleOptions .keep)] (sampleRequest, ⟨⟨["app"]⟩, ⟨["app"]⟩, .fail⟩) []).1⟩

end Stencil
