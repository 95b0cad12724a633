import Stencil.Proofs.FirstFailure

/-!
What filling in changes.

Main statement: filling in the files below a directory comes to an end, and if it is not refused,
each text there holds its text filled in and nothing else has changed (`fillDirectory_frame`).
-/

namespace Stencil

open FileSystem Run

/-- `gs` is `fs` with the texts below `l` filled in, and in nothing else do they differ. -/
structure TextsFilled (bindings : Bindings) (policy : Policy) (l : Location)
    (fs gs : FileSystem) : Prop where
  text : ∀ {k b text}, fs.get? (k ++ l) = some (.file b) → textOf? b = some text →
    ∃ result, substitute text bindings policy = .ok result ∧
      gs.get? (k ++ l) = some (.file result.toUTF8)
  bytes : ∀ {k b}, fs.get? (k ++ l) = some (.file b) → textOf? b = none →
    gs.get? (k ++ l) = some (.file b)
  /-- A location without a file below `l` keeps what it has, also if it has nothing. -/
  other : ∀ {j}, (∀ k b, k ++ l = j → fs.get? j ≠ some (.file b)) → gs.get? j = fs.get? j
  shape : SameShape fs gs

variable {bindings : Bindings} {policy : Policy} {fs gs : FileSystem} {root : Path} {l : Location}
  {e : Failure} {w : World}

theorem textsFilled_of_filledIn {report : Report} (hover : Overwritten l fs gs)
    (hfilled : FilledIn bindings policy l fs gs report) :
    TextsFilled bindings policy l fs gs := by
  refine ⟨hfilled.text, fun {k b} hb htext => ?_, fun {j} hj => ?_, hover.shape⟩
  · rw [hfilled.file hb, filledBytes]
    simp only [htext]
  · by_cases hbelow : l <:+ j
    · obtain ⟨k, rfl⟩ := hbelow
      exact hfilled.other fun b => hj k b rfl
    · exact hover.off.outside hbelow

theorem textsFilled_of_absent (habsent : ∀ r, fs.get? (r ++ l) = none) :
    TextsFilled bindings policy l fs fs := by
  refine ⟨fun {k b text} hb => ?_, fun {k b} hb => ?_, fun _ => rfl, SameShape.refl fs⟩
  · simp [habsent] at hb
  · simp [habsent] at hb

/-- No call waits for something else to happen. -/
theorem Offends.cause_ne_waiting {k : Location} (h : Offends fs root l bindings policy k e) :
    e.cause? ≠ some .waiting := by
  cases h <;> simp [Failure.cause?]

/-- Filling in the files below a directory comes to an end. If it is refused, nothing has changed,
and if it is not, only the texts below the directory have. -/
theorem fillDirectory_frame (hwf : w.files.WellFormed) (hroot : w.files.isDirectory root)
    (bindings : Bindings) (policy : Policy) :
    ∃ l, w.files.locate root = .ok l ∧
      (∀ report w', fillDirectory root bindings policy w = .ok report w' →
        TextsFilled bindings policy l w.files w'.files) ∧
      ∀ e w', fillDirectory root bindings policy w = .error e w' →
        e.cause? ≠ some .waiting ∧ w'.files = w.files := by
  obtain ⟨l, hlocate, h | ⟨hwalk, habsent⟩⟩ := rooted_or_empty hwf hroot
  · have hspec := fillDirectory_spec h bindings policy
    refine ⟨l, hlocate, fun report w' hrun => ?_, fun e w' hrun => ?_⟩
    · obtain ⟨hover, hfilled, -⟩ := hspec.of_ok hrun
      exact textsFilled_of_filledIn hover hfilled
    · obtain ⟨hfiles, he⟩ := hspec.of_error hrun
      obtain ⟨k, hk, -⟩ := first_offends h he
      exact ⟨hk.cause_ne_waiting, hfiles⟩
  · have hempty := fillDirectory_of_walk_nil hwalk bindings policy
    refine ⟨l, hlocate, fun report w' hrun => ?_, fun e w' hrun => ?_⟩
    · rw [hempty] at hrun
      cases hrun
      exact textsFilled_of_absent habsent
    · simp [hempty] at hrun

/-- A directory behind a link, with entries of every kind. -/
def mixedFiles : FileSystem where
  entries := [
    (["top"], .link ⟨["d"]⟩),
    (["d"], .directory),
    (["text", "d"], .file "{{a}} and {{b}}".toUTF8),
    (["bytes", "d"], .file ⟨#[0]⟩),
    (["inside", "d"], .link ⟨["text"]⟩),
    (["outside", "d"], .link ⟨["..", "other"]⟩),
    (["loop", "d"], .link ⟨["loop"]⟩),
    (["gone", "d"], .link ⟨["nowhere"]⟩),
    (["pipe", "d"], .pipe),
    (["socket", "d"], .socket),
    (["other"], .directory),
    (["text", "other"], .file "{{a}}".toUTF8)]
  workingDirectory := []

theorem fillDirectory_frame_mixed :
    mixedFiles.WellFormed ∧ mixedFiles.isDirectory ⟨["top"]⟩ ∧
      ∃ w', fillDirectory ⟨["top"]⟩ ⟨[("a", "x")], by decide⟩ .keep { files := mixedFiles } =
          .ok ⟨[["text"]], [], [["bytes"]]⟩ w' ∧
        TextsFilled ⟨[("a", "x")], by decide⟩ .keep ["d"] mixedFiles w'.files := by
  have hwf : mixedFiles.WellFormed := by decide
  have hroot : mixedFiles.isDirectory ⟨["top"]⟩ := by decide +kernel
  have hlocated : (mixedFiles.locate ⟨["top"]⟩).toOption = some ["d"] := by decide +kernel
  obtain ⟨l, hlocate, hok, -⟩ := fillDirectory_frame (w := { files := mixedFiles }) hwf hroot
    ⟨[("a", "x")], by decide⟩ .keep
  obtain rfl : ["d"] = l := by
    rw [show mixedFiles.locate ⟨["top"]⟩ = .ok l from hlocate] at hlocated
    exact (Option.some.inj hlocated).symm
  have hrun := eq_ok_of_value? (w := { files := mixedFiles })
    (x := fillDirectory ⟨["top"]⟩ ⟨[("a", "x")], by decide⟩ .keep)
    (a := ⟨[["text"]], [], [["bytes"]]⟩) (by decide +kernel)
  exact ⟨hwf, hroot, _, hrun, hok _ _ hrun⟩

end Stencil
