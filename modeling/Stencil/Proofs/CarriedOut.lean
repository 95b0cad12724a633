import Stencil.Proofs.FilledTree
import Stencil.Proofs.WrittenFile

/-!
Carrying out a plan.

On the files that it was made for, a plan is carried out in any order, with the same result
(`execute_perm`). Files that have changed since may lead elsewhere or be refused. Main statement:
whatever has become of them, the writes are made one after the other up to the first that is
refused, and nothing changes but the places to which their paths led (`execute_stale`).
-/

namespace Stencil

open FileSystem Run

variable {bindings : Bindings} {policy : Policy} {fs gs hs : FileSystem} {root : Path}
  {l : Location} {plan : Plan} {files : List FilledFile} {v w w' : World}

/-! ## In any order -/

theorem Writable.perm {files' : List FilledFile} (h : Writable fs root l files)
    (hperm : files'.Perm files) : Writable fs root l files' :=
  ⟨fun x hx => h.there x (hperm.mem_iff.1 hx), (hperm.map (·.file)).nodup_iff.2 h.nodup⟩

/-- What is there afterwards does not depend on the order. -/
theorem WrittenOver.get?_eq {files' : List FilledFile} (h : WrittenOver l files fs gs)
    (hperm : files'.Perm files) (h' : WrittenOver l files' fs hs) (k : Location) :
    hs.get? k = gs.get? k := by
  by_cases hbelow : l <:+ k
  · obtain ⟨r, rfl⟩ := hbelow
    by_cases hr : ∃ x ∈ files, x.file = r
    · obtain ⟨x, hx, rfl⟩ := hr
      rw [h.written x hx, h'.written x (hperm.mem_iff.2 hx)]
    · have hnot : ∀ x ∈ files, x.file ≠ r := fun x hx heq => hr ⟨x, hx, heq⟩
      rw [h.kept r hnot, h'.kept r fun x hx => hnot x (hperm.mem_iff.1 hx)]
  · rw [h.frame.off.outside hbelow, h'.frame.off.outside hbelow]

theorem exists_execute_of_writable (plan : Plan) (h : v.files.Rooted root l)
    (hfiles : Writable v.files root l plan.filled) :
    ∃ v', plan.execute root v =
        .ok ⟨plan.filled.map (·.file), plan.unchanged, plan.skipped⟩ v' ∧
      WrittenOver l plan.filled v.files v'.files := by
  have hends := execute_ends h hfiles
  cases hrun : plan.execute root v with
  | ok report v' =>
    obtain ⟨rfl, hover⟩ := hends.of_ok hrun
    exact ⟨v', rfl, hover⟩
  | error e v' => exact (hends.of_error hrun).elim

/-- Each order of the files in a plan can be carried out. -/
theorem exists_execute_of_perm (hwf : w.files.WellFormed)
    (hplan : planFilling root bindings policy w = .ok plan w') :
    ∃ l, ∀ files : List FilledFile, files.Perm plan.filled → ∀ v : World, v.files = w.files →
      ∃ v', Plan.execute root { plan with filled := files } v =
          .ok ⟨files.map (·.file), plan.unchanged, plan.skipped⟩ v' ∧
        WrittenOver l files w.files v'.files := by
  obtain ⟨-, xs, hxs, rfl⟩ := planFilling_ends.of_ok hplan
  obtain ⟨e, hstatus⟩ := exists_status_of_plan hplan
  obtain ⟨l, -, h | ⟨hwalk, -⟩⟩ := rooted_or_bare hwf hstatus
  · have hwritable :=
      (planFor_of_fates h hxs).writable (pathsFit_of_outcomes h (fates_eq_ok hxs).1)
    refine ⟨l, fun files hperm v hv => ?_⟩
    rw [← hv] at h hwritable ⊢
    exact exists_execute_of_writable _ h (hwritable.perm hperm)
  · -- there is nothing to write
    rw [hwalk] at hxs
    obtain rfl := Except.ok.inj hxs
    refine ⟨l, fun files hperm v hv => ⟨v, ?_⟩⟩
    obtain rfl := hperm.eq_nil
    exact ⟨rfl, hv ▸ ⟨Overwritten.refl l _, by simp, by simp⟩⟩

/-- The files of a plan can be written in any order, and the result is the same. -/
theorem execute_perm (hwf : w.files.WellFormed)
    (hplan : planFilling root bindings policy w = .ok plan w')
    (hperm : files.Perm plan.filled) (hv : v.files = w.files) :
    ∃ v₁ v₂,
      plan.execute root v =
        .ok ⟨plan.filled.map (·.file), plan.unchanged, plan.skipped⟩ v₁ ∧
      Plan.execute root { plan with filled := files } v =
        .ok ⟨files.map (·.file), plan.unchanged, plan.skipped⟩ v₂ ∧
      (∀ k, v₂.files.get? k = v₁.files.get? k) ∧
      v₂.files.workingDirectory = v₁.files.workingDirectory := by
  obtain ⟨l, hall⟩ := exists_execute_of_perm hwf hplan
  obtain ⟨v₁, hrun₁, hover₁⟩ := hall plan.filled (.refl _) v hv
  obtain ⟨v₂, hrun₂, hover₂⟩ := hall files hperm v hv
  refine ⟨v₁, v₂, hrun₁, hrun₂, hover₁.get?_eq hperm hover₂, ?_⟩
  rw [hover₁.frame.off.home, hover₂.frame.off.home]

/-- A file in a directory, one beside it whose name begins like the directory's, and a file to which
a link leads. -/
def severalFiles : FileSystem where
  entries := [
    (["d"], .directory),
    (["a", "d"], .directory),
    (["x", "a", "d"], .file "1 {{n}}".toUTF8),
    (["a.x", "d"], .file "2 {{n}}".toUTF8),
    (["b", "d"], .file "3 {{n}}".toUTF8),
    (["to b", "d"], .link ⟨["b"]⟩)]
  workingDirectory := []

def severalPlan : Plan :=
  ⟨[⟨["x", "a"], "1 x"⟩, ⟨["a.x"], "2 x"⟩, ⟨["b"], "3 x"⟩], [], []⟩

theorem execute_perm_reversed :
    severalFiles.WellFormed ∧
      (∃ w', planFilling ⟨["d"]⟩ ⟨[("n", "x")], by decide⟩ .keep { files := severalFiles } =
        .ok severalPlan w') ∧
      ∃ v₁ v₂, severalPlan.execute ⟨["d"]⟩ { files := severalFiles } =
          .ok ⟨[["x", "a"], ["a.x"], ["b"]], [], []⟩ v₁ ∧
        Plan.execute ⟨["d"]⟩ { severalPlan with filled := severalPlan.filled.reverse }
          { files := severalFiles } = .ok ⟨[["b"], ["a.x"], ["x", "a"]], [], []⟩ v₂ ∧
        (∀ k, v₂.files.get? k = v₁.files.get? k) ∧
        v₁.files.get? ["x", "a", "d"] = some (.file "1 x".toUTF8) := by
  have hwf : severalFiles.WellFormed := by decide
  have hplan := eq_ok_of_value? (w := { files := severalFiles })
    (x := planFilling ⟨["d"]⟩ ⟨[("n", "x")], by decide⟩ .keep) (a := severalPlan)
    (by decide +kernel)
  obtain ⟨v₁, v₂, hrun₁, hrun₂, hsame, -⟩ :=
    execute_perm (w := { files := severalFiles }) hwf hplan (List.reverse_perm _) rfl
  refine ⟨hwf, ⟨_, hplan⟩, v₁, v₂, hrun₁, hrun₂, hsame, ?_⟩
  rw [eq_after_of_ok hrun₁]
  decide +kernel

/-! ## On files that have changed -/

/-- The files are written one after the other, and no call is refused. -/
inductive Writes (root : Path) : FileSystem → List FilledFile → FileSystem → Prop
  | done {fs : FileSystem} : Writes root fs [] fs
  | write {fs gs hs : FileSystem} {x : FilledFile} {files : List FilledFile} :
      fs.write (root.joinAll x.file) x.text.toUTF8 = .ok gs →
      Writes root gs files hs → Writes root fs (x :: files) hs

/-- Only the places to which the paths lead in the beginning change. -/
theorem Writes.kept (h : Writes root fs files gs) {k : Location}
    (hk : ∀ x ∈ files, fs.target? (root.joinAll x.file) ≠ some k) : gs.get? k = fs.get? k := by
  induction h with
  | done => rfl
  | write hwrite _ ih =>
    obtain ⟨hx, hrest⟩ := List.forall_mem_cons.1 hk
    rw [ih fun y hy htarget => hrest y hy (target?_of_write hwrite htarget)]
    obtain ⟨j, htarget, hj, rfl, -⟩ := exists_target_of_write hwrite
    rw [get?_set _ hj, if_neg]
    rintro rfl
    exact hx htarget

theorem Writes.workingDirectory_eq (h : Writes root fs files gs) :
    gs.workingDirectory = fs.workingDirectory := by
  induction h with
  | done => rfl
  | write hwrite _ ih =>
    obtain ⟨j, -, -, rfl, -⟩ := exists_target_of_write hwrite
    exact ih

/-- `w'` is what the writes make of `w`: they change the files at the places to which their paths
lead in `w`, and nothing else. -/
structure CarriedOut (root : Path) (w : World) (files : List FilledFile) (w' : World) : Prop where
  writes : Writes root w.files files w'.files
  kept : ∀ k, (∀ x ∈ files, w.files.target? (root.joinAll x.file) ≠ some k) →
    w'.files.get? k = w.files.get? k
  home : w'.files.workingDirectory = w.files.workingDirectory
  rest : w' = { w with files := w'.files }

/-- The write of one of the files was refused, when those before it had been made. -/
def Stopped (root : Path) (w : World) (files : List FilledFile) (e : Failure) (w' : World) : Prop :=
  ∃ before x behind cause, files = before ++ x :: behind ∧ CarriedOut root w before w' ∧
    w'.files.write (root.joinAll x.file) x.text.toUTF8 = .error cause ∧ cause ≠ .waiting ∧
    e = .system ("writing " ++ (root.joinAll x.file).toString) cause

theorem carriedOut_nil (root : Path) (w : World) : CarriedOut root w [] w :=
  ⟨.done, fun _ _ => rfl, rfl, rfl⟩

theorem CarriedOut.cons {x : FilledFile}
    (hx : w.files.write (root.joinAll x.file) x.text.toUTF8 = .ok gs)
    (h : CarriedOut root { w with files := gs } files w') : CarriedOut root w (x :: files) w' := by
  have hwrites : Writes root w.files (x :: files) w'.files := .write hx h.writes
  exact ⟨hwrites, fun _ => hwrites.kept, hwrites.workingDirectory_eq, h.rest⟩

theorem writes_or_stopped
    (h : ∀ x ∈ files, w.files.status (root.joinAll x.file) ≠ .ok .pipe) :
    Ends (files.forM fun r =>
        let path := root.joinAll r.file
        Run.change (·.write path r.text.toUTF8) (.system ("writing " ++ path.toString))) w
      (fun _ w' => CarriedOut root w files w') (Stopped root w files) := by
  induction files generalizing w with
  | nil =>
    rw [ends_forM_nil]
    exact carriedOut_nil root w
  | cons x files ih =>
    obtain ⟨hx, hrest⟩ := List.forall_mem_cons.1 h
    rw [ends_forM_cons, ends_change]
    cases hwrite : w.files.write (root.joinAll x.file) x.text.toUTF8 with
    | error cause =>
      refine ⟨[], x, files, cause, rfl, carriedOut_nil root w, hwrite, ?_, rfl⟩
      rintro rfl
      exact hx (status_of_write_waiting hwrite)
    | ok gs =>
      have hrest' : ∀ y ∈ files, gs.status (root.joinAll y.file) ≠ .ok .pipe :=
        fun y hy hpipe => hrest y hy (status_pipe_of_write hwrite hpipe)
      refine (ih (w := { w with files := gs }) hrest').imp (fun _ w' => .cons hwrite) ?_
      rintro e w' ⟨before, y, behind, cause, rfl, hbefore, hy, hcause, he⟩
      exact ⟨x :: before, y, behind, cause, rfl, .cons hwrite hbefore, hy, hcause, he⟩

/-- Whatever files there are, the writes of a plan are made one after the other, up to the first
that is refused. -/
theorem execute_stale (root : Path) (plan : Plan) (w : World)
    (h : ∀ x ∈ plan.filled, w.files.status (root.joinAll x.file) ≠ .ok .pipe) :
    Ends (plan.execute root) w
      (fun report w' => report = ⟨plan.filled.map (·.file), plan.unchanged, plan.skipped⟩ ∧
        CarriedOut root w plan.filled w')
      (Stopped root w plan.filled) := by
  rw [Plan.execute, ends_bind]
  refine (writes_or_stopped h).imp ?_ fun _ _ => id
  intro _ w' hw
  rw [ends_pure]
  exact ⟨rfl, hw⟩

/-- The files when they were planned. -/
def plannedFiles : FileSystem where
  entries := [
    (["r"], .directory),
    (["a", "r"], .file "1 {{n}}".toUTF8),
    (["b", "r"], .file "2 {{n}}".toUTF8),
    (["c", "r"], .directory),
    (["x", "c", "r"], .file "3 {{n}}".toUTF8),
    (["d", "r"], .file "4 {{n}}".toUTF8)]
  workingDirectory := []

def stalePlan : Plan :=
  ⟨[⟨["a"], "1 x"⟩, ⟨["b"], "2 x"⟩, ⟨["x", "c"], "3 x"⟩, ⟨["d"], "4 x"⟩], [], []⟩

/-- The first file is gone, the second is a link to where it was, and the third a directory. -/
def changedFiles : FileSystem where
  entries := [
    (["r"], .directory),
    (["b", "r"], .link ⟨["a"]⟩),
    (["c", "r"], .directory),
    (["x", "c", "r"], .directory),
    (["d", "r"], .file "4 {{n}}".toUTF8)]
  workingDirectory := []

/-- The first write makes the file to which the link leads that the second one follows. -/
theorem execute_stale_linked :
    (∃ w', planFilling ⟨["r"]⟩ ⟨[("n", "x")], by decide⟩ .keep { files := plannedFiles } =
        .ok stalePlan w') ∧
      (∀ x ∈ stalePlan.filled, changedFiles.status (Path.joinAll ⟨["r"]⟩ x.file) ≠ .ok .pipe) ∧
      ∃ w', stalePlan.execute ⟨["r"]⟩ { files := changedFiles } =
          .error (.system "writing r/c/x" .isADirectory) w' ∧
        Stopped ⟨["r"]⟩ { files := changedFiles } stalePlan.filled
          (.system "writing r/c/x" .isADirectory) w' ∧
        w'.files.get? ["a", "r"] = some (.file "2 x".toUTF8) ∧
        w'.files.get? ["b", "r"] = some (.link ⟨["a"]⟩) ∧
        w'.files.get? ["d", "r"] = some (.file "4 {{n}}".toUTF8) := by
  have hplan := eq_ok_of_value? (w := { files := plannedFiles })
    (x := planFilling ⟨["r"]⟩ ⟨[("n", "x")], by decide⟩ .keep) (a := stalePlan) (by decide +kernel)
  have hpipe : ∀ x ∈ stalePlan.filled,
      changedFiles.status (Path.joinAll ⟨["r"]⟩ x.file) ≠ .ok .pipe := by
    decide +kernel
  have hrun := eq_error_of_failure? (w := { files := changedFiles })
    (x := stalePlan.execute ⟨["r"]⟩) (e := .system "writing r/c/x" .isADirectory)
    (by decide +kernel)
  have hstopped := (execute_stale ⟨["r"]⟩ stalePlan { files := changedFiles } hpipe).of_error hrun
  exact ⟨⟨_, hplan⟩, hpipe, _, hrun, hstopped, by decide +kernel, by decide +kernel,
    by decide +kernel⟩

end Stencil
