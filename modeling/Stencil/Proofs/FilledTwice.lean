import Stencil.Proofs.FirstFailure
import Stencil.Proofs.SettledText

/-!
Filling in the files below a directory twice.

Main statement: where the first run was not refused, neither is the second one, and it fills in
exactly the texts in which the values of the first run have completed a placeholder. None can, if
the bindings are settled, and then all files stay as they are (`fillDirectory_twice`).
-/

namespace Stencil

open FileSystem Run

variable {bindings : Bindings} {policy : Policy} {fs gs hs : FileSystem} {root : Path}
  {l : Location} {w w' : World} {report : Report}

/-! ## One file -/

theorem exists_fate_keep (bindings : Bindings) (b : ByteArray) :
    ∃ f, fate bindings .keep b = .ok f := by
  cases h : fate bindings .keep b with
  | ok f => exact ⟨f, rfl⟩
  | error name =>
    obtain ⟨text, -, hpolicy, -⟩ := fate_eq_error_iff.1 h
    cases hpolicy

theorem filledBytes_ne_iff {b : ByteArray} : filledBytes bindings .keep b ≠ b ↔
    ∃ text, textOf? b = some text ∧ substitute text bindings .keep ≠ .ok text := by
  rw [filledBytes]
  cases htext : textOf? b with
  | none => simp
  | some text =>
    obtain ⟨result, hresult⟩ := exists_substitute_keep text bindings
    simp only [hresult, Option.some.injEq, exists_eq_left', ne_eq, Except.ok.injEq,
      ← toUTF8_of_textOf? htext, String.toUTF8_eq_toByteArray, String.toByteArray_inj]

/-- What comes of the text of a file is a text that changes when it is filled in again. -/
def ChangesAgain (bindings : Bindings) (b : ByteArray) : Prop :=
  ∃ text result, textOf? b = some text ∧ substitute text bindings .keep = .ok result ∧
    textOf? result.toUTF8 = some result ∧ substitute result bindings .keep ≠ .ok result

theorem changesAgain_iff {b : ByteArray} : ChangesAgain bindings b ↔
    filledBytes bindings .keep (filledBytes bindings .keep b) ≠
      filledBytes bindings .keep b := by
  cases htext : textOf? b with
  | none =>
    have hsame : filledBytes bindings .keep b = b := by
      rw [filledBytes]
      simp only [htext]
    rw [hsame, hsame, ChangesAgain]
    simp [htext]
  | some text =>
    obtain ⟨result, hresult⟩ := exists_substitute_keep text bindings
    have hbytes : filledBytes bindings .keep b = result.toUTF8 := by
      rw [filledBytes]
      simp only [htext, hresult]
    rw [hbytes, filledBytes_ne_iff]
    constructor
    · rintro ⟨text', result', htext', hresult', hagain, hne⟩
      obtain rfl := Option.some.inj (htext.symm.trans htext')
      obtain rfl := Except.ok.inj (hresult.symm.trans hresult')
      exact ⟨result, hagain, hne⟩
    · rintro ⟨text', htext', hne⟩
      obtain rfl := String.toByteArray_inj.1 (toUTF8_of_textOf? htext')
      exact ⟨text, text', htext, hresult, htext', hne⟩

theorem not_changesAgain (h : bindings.Settled) (b : ByteArray) : ¬ ChangesAgain bindings b := by
  rintro ⟨text, result, -, hresult, -, hne⟩
  exact hne (substitute_settled h hresult)

/-! ## Two runs -/

theorem PathsFit.of_sameShape (h : PathsFit fs root l) (hshape : SameShape fs gs) :
    PathsFit gs root l := by
  intro r e he hkind
  rcases hshape.get?_cases (r ++ l) with heq | ⟨b, c, hb, -⟩
  · exact h r e (heq ▸ he) hkind
  · exact h r _ hb (by simp [Entry.kind])

/-- Where no path is too long, nothing keeps the files from being filled in. -/
theorem fillDirectory_keep (h : w.files.Rooted root l) (hfits : PathsFit w.files root l)
    (bindings : Bindings) :
    ∃ report w', fillDirectory root bindings .keep w = .ok report w' ∧
      Overwritten l w.files w'.files ∧ FilledIn bindings .keep l w.files w'.files report := by
  have hspec := fillDirectory_spec h bindings .keep
  cases hrun : fillDirectory root bindings .keep w with
  | ok report w' =>
    obtain ⟨hover, hfilled, -⟩ := hspec.of_ok hrun
    exact ⟨report, w', rfl, hover, hfilled⟩
  | error e w' =>
    obtain ⟨k, hk, -⟩ := first_offends h (hspec.of_error hrun).2
    exact absurd hk (not_offends (fun {_ b} _ => exists_fate_keep bindings b) hfits)

theorem FilledIn.file_iff (h : FilledIn bindings policy l fs gs report) {k : Location}
    {c : ByteArray} : gs.get? (k ++ l) = some (.file c) ↔
      ∃ b, fs.get? (k ++ l) = some (.file b) ∧ filledBytes bindings policy b = c := by
  constructor
  · intro hc
    by_cases hfile : ∃ b, fs.get? (k ++ l) = some (.file b)
    · obtain ⟨b, hb⟩ := hfile
      refine ⟨b, hb, ?_⟩
      simpa using (h.file hb).symm.trans hc
    · rw [h.other (not_exists.1 hfile)] at hc
      exact absurd ⟨c, hc⟩ hfile
  · rintro ⟨b, hb, rfl⟩
    exact h.file hb

/-- `fs` was filled in below `l` and is `gs`, which was filled in again and is `hs`: the second time
those files have changed whose text changes again, and no others. -/
structure FilledAgain (bindings : Bindings) (l : Location) (fs gs hs : FileSystem)
    (report : Report) : Prop where
  filled : ∀ {k}, k ∈ report.filled ↔ k ≠ [] ∧
    ∃ b, fs.get? (k ++ l) = some (.file b) ∧ ChangesAgain bindings b
  other : ∀ {j}, (∀ k ∈ report.filled, k ++ l ≠ j) → hs.get? j = gs.get? j

theorem filledAgain_of_filledIn {report' : Report} (hroot : fs.get? l = some .directory)
    (hfirst : FilledIn bindings .keep l fs gs report) (hover : Overwritten l gs hs)
    (hagain : FilledIn bindings .keep l gs hs report') :
    FilledAgain bindings l fs gs hs report' := by
  constructor
  · intro k
    rw [hagain.filled]
    constructor
    · rintro ⟨c, hc, hne⟩
      obtain ⟨b, hb, rfl⟩ := hfirst.file_iff.1 hc
      refine ⟨?_, b, hb, changesAgain_iff.2 hne⟩
      rintro rfl
      simp [hroot] at hb
    · rintro ⟨-, b, hb, hchanges⟩
      exact ⟨_, hfirst.file hb, changesAgain_iff.1 hchanges⟩
  · intro j hj
    by_cases hbelow : l <:+ j
    · obtain ⟨k, rfl⟩ := hbelow
      by_cases hfile : ∃ b, gs.get? (k ++ l) = some (.file b)
      · obtain ⟨b, hb⟩ := hfile
        have hsame : filledBytes bindings .keep b = b := by
          by_contra hne
          exact hj k (hagain.filled.2 ⟨b, hb, hne⟩) rfl
        rw [hagain.file hb, hsame, hb]
      · exact hagain.other (not_exists.1 hfile)
    · exact hover.off.outside hbelow

theorem FilledAgain.of_settled (h : FilledAgain bindings l fs gs hs report)
    (hbindings : bindings.Settled) : report.filled = [] ∧ ∀ j, hs.get? j = gs.get? j := by
  have hnone : report.filled = [] := by
    refine List.eq_nil_iff_forall_not_mem.2 fun k hk => ?_
    obtain ⟨-, b, -, hchanges⟩ := h.filled.1 hk
    exact not_changesAgain hbindings b hchanges
  refine ⟨hnone, fun j => h.other ?_⟩
  simp [hnone]

/-- Nothing is filled in below a root that leads nowhere. -/
theorem exists_status (hrun : fillDirectory root bindings policy w = .ok report w') :
    ∃ e, w.files.status root = .ok e := by
  cases hplan : planFilling root bindings policy w with
  | ok plan w₁ => exact exists_status_of_plan hplan
  | error e w₁ => simp [fillDirectory, bind, EStateM.bind, hplan] at hrun

/-- When the files below a root could be filled in, they can be filled in again. The second run
fills in those whose text changes again, and with settled bindings there are none. -/
theorem fillDirectory_twice (hwf : w.files.WellFormed)
    (hrun : fillDirectory root bindings .keep w = .ok report w') :
    ∃ l report' w'', w.files.locate root = .ok l ∧
      fillDirectory root bindings .keep w' = .ok report' w'' ∧
      FilledAgain bindings l w.files w'.files w''.files report' ∧
      (bindings.Settled → report'.filled = [] ∧ ∀ j, w''.files.get? j = w'.files.get? j) := by
  obtain ⟨e, hstatus⟩ := exists_status hrun
  obtain ⟨l, hlocate, h | ⟨hwalk, hbare⟩⟩ := rooted_or_bare hwf hstatus
  · obtain ⟨hover, hfilled, hfits⟩ := (fillDirectory_spec h bindings .keep).of_ok hrun
    obtain ⟨report', w'', hrun', hover', hfilled'⟩ :=
      fillDirectory_keep (h.overwritten hover) (hfits.of_sameShape hover.shape) bindings
    have hagain := filledAgain_of_filledIn h.directory hfilled hover' hfilled'
    exact ⟨l, report', w'', hlocate, hrun', hagain, hagain.of_settled⟩
  · have hnothing := fillDirectory_of_walk_nil hwalk bindings .keep
    rw [hnothing] at hrun
    cases hrun
    refine ⟨l, ⟨[], [], []⟩, w, hlocate, hnothing, ⟨fun {k} => ?_, fun _ => rfl⟩, fun _ => ?_⟩
    · constructor
      · exact fun hk => absurd hk List.not_mem_nil
      · rintro ⟨hk, b, hb, -⟩
        exact absurd hb (hbare k hk b)
    · exact ⟨rfl, fun _ => rfl⟩

/-- A text in which the value comes to stand in a placeholder, and one that keeps a placeholder. -/
def settledFiles : FileSystem where
  entries := [
    (["d"], .directory),
    (["inner", "d"], .file "{{ {{a}} }} {{a}}".toUTF8),
    (["kept", "d"], .file "{{b}}".toUTF8)]
  workingDirectory := []

/-- The value is no name, and the text stays. -/
theorem fillDirectory_twice_settled :
    settledFiles.WellFormed ∧ Bindings.Settled ⟨[("a", "x")], by decide⟩ ∧
      ∃ w', fillDirectory ⟨["d"]⟩ ⟨[("a", "x")], by decide⟩ .keep { files := settledFiles } =
          .ok ⟨[["inner"]], [["kept"]], []⟩ w' ∧
        ∃ report' w'', fillDirectory ⟨["d"]⟩ ⟨[("a", "x")], by decide⟩ .keep w' =
            .ok report' w'' ∧
          report'.filled = [] ∧ ∀ j, w''.files.get? j = w'.files.get? j := by
  have hwf : settledFiles.WellFormed := by decide
  have hsettled : Bindings.Settled ⟨[("a", "x")], by decide⟩ := by decide +kernel
  have hrun := eq_ok_of_value? (w := { files := settledFiles })
    (x := fillDirectory ⟨["d"]⟩ ⟨[("a", "x")], by decide⟩ .keep)
    (a := ⟨[["inner"]], [["kept"]], []⟩) (by decide +kernel)
  obtain ⟨l, report', w'', -, hagain, -, hsame⟩ :=
    fillDirectory_twice (w := { files := settledFiles }) hwf hrun
  exact ⟨hwf, hsettled, _, hrun, report', w'', hagain, hsame hsettled⟩

/-! ## A value that is a placeholder -/

/-- A value that is a placeholder of the other name. -/
def chained : Bindings := ⟨[("a", "{{b}}"), ("b", "x")], by decide⟩

def chainedFiles : FileSystem where
  entries := [(["r"], .directory), (["a.txt", "r"], .file "{{a}}".toUTF8)]
  workingDirectory := []

/-- The second run fills in what the first one has inserted. -/
theorem fillDirectory_twice_chained :
    chainedFiles.WellFormed ∧
      ∃ w' w'', fillDirectory ⟨["r"]⟩ chained .keep { files := chainedFiles } =
          .ok ⟨[["a.txt"]], [], []⟩ w' ∧
        fillDirectory ⟨["r"]⟩ chained .keep w' = .ok ⟨[["a.txt"]], [], []⟩ w'' ∧
        w''.files.get? ["a.txt", "r"] ≠ w'.files.get? ["a.txt", "r"] := by
  have hfirst := eq_ok_of_value? (w := { files := chainedFiles })
    (x := fillDirectory ⟨["r"]⟩ chained .keep) (a := ⟨[["a.txt"]], [], []⟩) (by decide +kernel)
  have hagain := eq_ok_of_value?
    (w := (fillDirectory ⟨["r"]⟩ chained .keep).after { files := chainedFiles })
    (x := fillDirectory ⟨["r"]⟩ chained .keep) (a := ⟨[["a.txt"]], [], []⟩) (by decide +kernel)
  exact ⟨by decide, _, _, hfirst, hagain, by decide +kernel⟩

end Stencil
