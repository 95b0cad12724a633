import Stencil.Scaffold
import Stencil.Proofs.Endings
import Stencil.Proofs.Growth

/-!
Making projects only adds to the files.

Whatever a run copies, writes or fills in, it does below the new directory, which holds no link on
which a call could leave it; `Later` is what each of the calls keeps.
-/

namespace Stencil

open FileSystem Run

/-- `gs'` comes after `gs` in a run that makes the project at `l`. -/
structure Later (fs : FileSystem) (dest : Path) (l : Location) (gs gs' : FileSystem) : Prop where
  grown : fs.Grown dest l gs'
  directories : ∀ {r}, gs.get? (r ++ l) = some .directory → gs'.get? (r ++ l) = some .directory

variable {fs gs gs' gs'' : FileSystem} {dest : Path} {l : Location}

theorem Later.refl (h : fs.Grown dest l gs) : Later fs dest l gs gs := ⟨h, id⟩

theorem Later.trans (h : Later fs dest l gs gs') (h' : Later fs dest l gs' gs'') :
    Later fs dest l gs gs'' :=
  ⟨h'.grown, fun hr => h'.directories (h.directories hr)⟩

theorem Later.set (h : fs.Grown dest l gs) {r : Location} {n : Name} {e : Entry}
    (hr : gs.get? (r ++ l) = some .directory) (hn : LegalName n)
    (hfit : (dest.joinAll (n :: r)).size ≤ maxPathSize)
    (hold : gs.get? (n :: (r ++ l)) ≠ some .directory)
    (he : e = .directory ∨ ∃ b, e = .file b) :
    Later fs dest l gs (gs.set (n :: (r ++ l)) e) := by
  refine ⟨h.set hr hn hfit hold he, fun {q} hq => ?_⟩
  have hne : q ++ l ≠ n :: (r ++ l) := by
    intro heq
    exact hold (heq ▸ hq)
  rw [get?_set gs (by simp), if_neg hne, hq]

theorem copyFile_of_file {source destination : Path} {b : ByteArray}
    (h : gs.status source = .ok (.file b)) :
    gs.copyFile source destination = gs.write destination b := by
  simp [copyFile, h, bind, Except.bind]

section Calls

variable {w : World} {r : Location} {n : Name} (h : fs.Grown dest l w.files)
  (hr : w.files.get? (r ++ l) = some .directory) (hn : LegalName n)

include h hr hn

theorem write_ends (b : ByteArray) (failure : SystemError → Failure) :
    Ends (Run.change (·.write (dest.joinAll (n :: r)) b) failure) w
      (fun _ w' => Later fs dest l w.files w'.files ∧
        w'.files = w.files.set (n :: (r ++ l)) (.file b))
      fun e w' => w'.files = w.files ∧ (∃ x, e = failure x) ∧
        (maxPathSize < (dest.joinAll (n :: r)).size ∨
          w.files.get? (n :: (r ++ l)) = some .directory) := by
  rw [ends_change]
  rcases h.write_below hr hn b with ⟨hfit, hold, hwrite⟩ | ⟨x, hwrite, hcause⟩
  · rw [hwrite]
    exact ⟨Later.set h hr hn hfit hold (.inr ⟨b, rfl⟩), rfl⟩
  · rw [hwrite]
    exact ⟨rfl, ⟨x, rfl⟩, hcause⟩

theorem copyFile_later (source : Path) (failure : SystemError → Failure) :
    Leaves (Run.change (·.copyFile source (dest.joinAll (n :: r))) failure) w fun w' =>
      Later fs dest l w.files w'.files := by
  rw [Leaves, ends_change]
  cases hstatus : w.files.status source with
  | error e =>
    simp only [copyFile, hstatus, bind, Except.bind]
    exact Later.refl h
  | ok e =>
    cases e with
    | file b =>
      have hwrite : Leaves (Run.change (·.write (dest.joinAll (n :: r)) b) failure) w fun w' =>
          Later fs dest l w.files w'.files := by
        refine (write_ends h hr hn b failure).imp ?_ ?_
        · rintro _ w' ⟨hlater, -⟩
          exact hlater
        · rintro e w' ⟨hfiles, -⟩
          rw [hfiles]
          exact Later.refl h
      rw [Leaves, ends_change] at hwrite
      rw [copyFile_of_file hstatus]
      exact hwrite
    | _ =>
      simp only [copyFile, hstatus, bind, Except.bind]
      exact Later.refl h

theorem createDirectories_later (failure : SystemError → Failure) :
    Ends (Run.change (·.createDirectories (dest.joinAll (n :: r))) failure) w
      (fun _ w' => Later fs dest l w.files w'.files ∧
        w'.files.get? (n :: (r ++ l)) = some .directory)
      fun _ w' => Later fs dest l w.files w'.files := by
  rw [ends_change]
  rcases h.createDirectories_below hr hn with ⟨hfit, hnone, hmake⟩ | ⟨hdir, hmake⟩ | ⟨e, hmake, -⟩
  · rw [hmake]
    have hlater := Later.set h hr hn hfit (by simp [hnone]) (.inl rfl)
    exact ⟨hlater, by rw [get?_set _ (by simp), if_pos rfl]⟩
  · rw [hmake]
    exact ⟨Later.refl h, hdir⟩
  · rw [hmake]
    exact Later.refl h

end Calls

theorem copyEntry_later {depth : Nat} {inside : List Location} {d below : Location} {dir : Path}
    {n : Name} {w : World} (h : fs.Grown dest l w.files)
    (hbelow : w.files.get? (below ++ l) = some .directory) (hn : LegalName n) :
    Leaves (copyEntry dest depth inside d dir below n) w fun w' =>
      Later fs dest l w.files w'.files := by
  induction depth generalizing inside d below dir n w with
  | zero => exact Later.refl h
  | succ depth ih =>
    rw [Leaves, copyEntry, ends_bind, ends_look]
    cases w.files.meet true inside d n (dir.join n) with
    | error e => exact Later.refl h
    | ok kind =>
      cases kind with
      | directory =>
        simp only [ends_bind, ends_get]
        refine (createDirectories_later h hbelow hn _).imp (fun _ w₁ h₁ => ?_) fun _ _ he => he
        obtain ⟨hlater, hdir⟩ := h₁
        rw [ends_look]
        cases hlist : w.files.list (dir.join n) with
        | error e => exact hlater
        | ok x =>
          -- the round of each name begins where the one before it ended
          refine (ends_forM (fun m hm w₂ h₂ => ?_) (Later.refl hlater.grown)).imp
            (fun _ _ h₃ => hlater.trans h₃) fun _ _ h₃ => hlater.trans h₃
          have hlegal := (get?_of_list h.wellFormed hlist hm).2.2
          exact (ih h₂.grown (h₂.directories (r := n :: below) hdir) hlegal).imp
            (fun _ _ h₃ => h₂.trans h₃) fun _ _ h₃ => h₂.trans h₃
      | _ =>
        simp only [ends_bind, ends_emit]
        exact copyFile_later h hbelow hn _ _

theorem copyTemplate_later {template : Path} {w : World} (h : fs.Grown dest l w.files) :
    Leaves (copyTemplate template dest) w fun w' => Later fs dest l w.files w'.files := by
  rw [Leaves, copyTemplate, ends_bind, ends_look]
  cases hlist : w.files.list template with
  | error e => exact Later.refl h
  | ok x =>
    refine ends_forM (fun n hn w₁ h₁ => ?_) (Later.refl h)
    have hlegal := (get?_of_list h.wellFormed hlist hn).2.2
    exact (copyEntry_later h₁.grown (h₁.directories (r := []) h.root) hlegal).imp
      (fun _ _ h₂ => h₁.trans h₂) fun _ _ h₂ => h₁.trans h₂

/-! ## The new directory and its descriptor -/

theorem createDestination_ends {w : World} :
    Ends (createDestination dest) w
      (fun _ w' => ∃ l, w.files.site? dest = some l ∧ w'.files = w.files.set l .directory)
      fun e w' => w'.files = w.files ∧
        ((w.files.createDirectory dest = .error .alreadyExists ∧ e = .destinationExists dest) ∨
          ∃ x, w.files.createDirectory dest = .error x ∧ x ≠ .alreadyExists ∧
            e = .system ("creating project directory " ++ dest.toString) x) := by
  rw [createDestination, ends_bind, ends_change]
  cases hmake : w.files.createDirectory dest with
  | ok gs =>
    simp only [ends_emit]
    exact site_of_createDirectory hmake
  | error x =>
    by_cases hx : x = .alreadyExists
    · simp only [if_pos hx]
      exact ⟨trivial, .inl ⟨by rw [hx], trivial⟩⟩
    · simp only [if_neg hx]
      exact ⟨trivial, .inr ⟨x, rfl, hx, rfl⟩⟩

theorem legalName_fileName : LegalName Descriptor.fileName := by decide

theorem writeDescriptor_ends {request : Request} {w : World} (h : fs.Grown dest l w.files) :
    Ends (writeDescriptor request dest) w
      (fun bindings w' => bindings = (Descriptor.ofRequest request).bindings ∧
        Later fs dest l w.files w'.files ∧
        w'.files = w.files.set (Descriptor.fileName :: l)
          (.file (Descriptor.ofRequest request).render.toUTF8))
      fun e w' => w'.files = w.files ∧
        (∃ x, e = .system ("writing " ++ (dest.join Descriptor.fileName).toString) x) ∧
        (maxPathSize < (dest.join Descriptor.fileName).size ∨
          w.files.get? (Descriptor.fileName :: l) = some .directory) := by
  have hwrite : ∀ w' : World, w'.files = w.files →
      Ends (Run.change (·.write (dest.join Descriptor.fileName)
          (Descriptor.ofRequest request).render.toUTF8)
        (.system ("writing " ++ (dest.join Descriptor.fileName).toString))) w'
        (fun _ w'' => Later fs dest l w.files w''.files ∧
          w''.files = w.files.set (Descriptor.fileName :: l)
            (.file (Descriptor.ofRequest request).render.toUTF8))
        fun e w'' => w''.files = w.files ∧
          (∃ x, e = .system ("writing " ++ (dest.join Descriptor.fileName).toString) x) ∧
          (maxPathSize < (dest.join Descriptor.fileName).size ∨
            w.files.get? (Descriptor.fileName :: l) = some .directory) := by
    intro w' hw'
    rw [← hw'] at h ⊢
    exact write_ends (r := []) h h.root legalName_fileName _ _
  rw [writeDescriptor]
  simp only [ends_bind, ends_get]
  split
  · simp only [ends_bind, ends_emit, ends_pure, true_and]
    refine hwrite _ ?_
    rfl
  · simp only [ends_bind, ends_pure, true_and]
    exact hwrite w rfl

end Stencil
