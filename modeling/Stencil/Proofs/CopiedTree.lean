import Stencil.Proofs.AppendOnly
import Stencil.Proofs.Trail

/-!
Copying a template that does not hold its destination.

`copy?` says what a step of the walk through the template puts into the destination, read off the
files as they were before. `Copies` does this for one step after the other. Main statement: the
copying does it for the steps of the walk up to the first for which it cannot be done, and then
stops (`copyTemplate_ends`).
-/

namespace Stencil

open FileSystem Run

namespace FileSystem

/-- What a step puts below `dest`, and where. -/
def copy? (fs : FileSystem) (dest : Path) : Step → Option (Location × Entry)
  | .failed _ _ => none
  | .visit v =>
    if (dest.joinAll v.below).size > maxPathSize then none
    else match v.kind with
      | .directory => some (v.below, .directory)
      | _ =>
        match fs.status v.path with
        | .ok (.file bytes) => some (v.below, .file bytes)
        | _ => none

/-- `gs'` is `gs` with all that the steps put below `l`. -/
inductive Copies (fs : FileSystem) (dest : Path) (l : Location) :
    FileSystem → List Step → FileSystem → Prop
  | nil (gs) : Copies fs dest l gs [] gs
  | cons {gs gs' s steps k e} : fs.copy? dest s = some (k, e) →
      Copies fs dest l (gs.set (k ++ l) e) steps gs' → Copies fs dest l gs (s :: steps) gs'

/-- `gs'` is `gs` with all that the steps put below `l`, up to the first that puts nothing. -/
def Stops (fs : FileSystem) (dest : Path) (l : Location) (gs : FileSystem) (steps : List Step)
    (gs' : FileSystem) : Prop :=
  ∃ done s rest, steps = done ++ s :: rest ∧ fs.copy? dest s = none ∧
    Copies fs dest l gs done gs'

variable {fs gs gs' gs'' : FileSystem} {dest : Path} {l : Location} {steps steps' : List Step}

theorem Copies.append (h : Copies fs dest l gs steps gs') (h' : Copies fs dest l gs' steps' gs'') :
    Copies fs dest l gs (steps ++ steps') gs'' := by
  induction h with
  | nil => exact h'
  | cons hs _ ih => exact .cons hs (ih h')

theorem Copies.stops (h : Copies fs dest l gs steps gs') (h' : Stops fs dest l gs' steps' gs'') :
    Stops fs dest l gs (steps ++ steps') gs'' := by
  obtain ⟨done, s, rest, rfl, hs, hdone⟩ := h'
  exact ⟨steps ++ done, s, rest, by simp, hs, h.append hdone⟩

theorem Stops.append (h : Stops fs dest l gs steps gs') (steps' : List Step) :
    Stops fs dest l gs (steps ++ steps') gs' := by
  obtain ⟨done, s, rest, rfl, hs, hdone⟩ := h
  exact ⟨done, s, rest ++ steps', by simp, hs, hdone⟩

theorem Stops.cons {s : Step} {k : Location} {e : Entry} (hs : fs.copy? dest s = some (k, e))
    (h : Stops fs dest l (gs.set (k ++ l) e) steps gs') : Stops fs dest l gs (s :: steps) gs' := by
  obtain ⟨done, t, rest, rfl, ht, hdone⟩ := h
  exact ⟨s :: done, t, rest, rfl, ht, .cons hs hdone⟩

theorem stops_at {s : Step} (hs : fs.copy? dest s = none) : Stops fs dest l gs (s :: steps) gs :=
  ⟨[], s, steps, rfl, hs, .nil gs⟩

theorem copy?_of_ne_directory {v : Visit} (h : v.kind ≠ .directory) :
    fs.copy? dest (.visit v) =
      if (dest.joinAll v.below).size > maxPathSize then none
      else match fs.status v.path with
        | .ok (.file bytes) => some (v.below, .file bytes)
        | _ => none := by
  rw [copy?]
  split
  · rfl
  · split
    · rename_i hkind
      exact absurd hkind h
    · rfl

/-- What a visit puts is a directory, or the file that its path leads to. -/
theorem copy?_eq_some {v : Visit} {k : Location} {e : Entry}
    (h : fs.copy? dest (.visit v) = some (k, e)) :
    k = v.below ∧ ((v.kind = .directory ∧ e = .directory) ∨
      (v.kind ≠ .directory ∧ fs.status v.path = .ok e ∧ ∃ b, e = .file b)) := by
  by_cases hkind : v.kind = .directory
  · rw [copy?, hkind] at h
    split at h
    · cases h
    · obtain ⟨rfl, rfl⟩ := Prod.mk.inj (Option.some.inj h)
      exact ⟨rfl, .inl ⟨hkind, rfl⟩⟩
  · rw [copy?_of_ne_directory hkind] at h
    split at h
    · cases h
    · split at h
      · rename_i b hb
        obtain ⟨rfl, rfl⟩ := Prod.mk.inj (Option.some.inj h)
        exact ⟨rfl, .inr ⟨hkind, hb, b, rfl⟩⟩
      · cases h

theorem copyFile_of_not_file {p : Path} (q : Path) (h : ¬ ∃ b, gs.status p = .ok (.file b)) :
    ∃ x, gs.copyFile p q = .error x := by
  rw [copyFile]
  cases hp : gs.status p with
  | error x => exact ⟨x, rfl⟩
  | ok e =>
    cases e with
    | file b => exact absurd ⟨b, hp⟩ h
    | _ => exact ⟨_, rfl⟩

theorem below_of_copy? {s : Step} {k : Location} {e : Entry}
    (h : fs.copy? dest s = some (k, e)) : ∃ v, s = .visit v ∧ v.below = k := by
  cases s with
  | failed p x => simp [copy?] at h
  | visit v =>
    refine ⟨v, rfl, ?_⟩
    rw [copy?] at h
    split at h
    · simp at h
    · split at h
      · exact congrArg Prod.fst (Option.some.inj h)
      · split at h
        · exact congrArg Prod.fst (Option.some.inj h)
        · simp at h

/-- What no step is about stays as it is. -/
theorem Copies.get?_of_absent (h : Copies fs dest l gs steps gs') (hl : l ≠ []) {k : Location}
    (hk : ∀ v, .visit v ∈ steps → v.below ++ l ≠ k) : gs'.get? k = gs.get? k := by
  induction h with
  | nil => rfl
  | cons hs _ ih =>
    obtain ⟨v, rfl, rfl⟩ := below_of_copy? hs
    rw [ih fun v' hv' => hk v' (List.mem_cons_of_mem _ hv'), get?_set _ (by simp [hl]),
      if_neg (hk v List.mem_cons_self).symm]

/-- Below `l` stands what the steps have put there, and what was there before. -/
theorem Copies.get?_iff (h : Copies fs dest l gs steps gs') (hl : l ≠ [])
    (hnodup : (steps.filterMap Step.below?).Nodup) {r : Location} {e : Entry} :
    gs'.get? (r ++ l) = some e ↔
      (r, e) ∈ steps.filterMap (fs.copy? dest) ∨
        (r ∉ steps.filterMap Step.below? ∧ gs.get? (r ++ l) = some e) := by
  induction h with
  | nil => simp
  | @cons gs gs' s steps k x hs hrest ih =>
    obtain ⟨v, rfl, rfl⟩ := below_of_copy? hs
    obtain ⟨hv, hnodup⟩ := List.nodup_cons.1
      (show (v.below :: steps.filterMap Step.below?).Nodup from hnodup)
    rw [ih hnodup, get?_set _ (by simp [hl]), List.filterMap_cons_some hs,
      List.filterMap_cons_some (show Step.below? (.visit v) = some v.below from rfl)]
    simp only [List.mem_cons, Prod.mk.injEq, not_or]
    by_cases hr : r = v.below
    · subst hr
      have hnot : (v.below, e) ∉ steps.filterMap (fs.copy? dest) := by
        intro hmem
        obtain ⟨s, hmem, hs'⟩ := List.mem_filterMap.1 hmem
        obtain ⟨v', rfl, hv'⟩ := below_of_copy? hs'
        exact hv (mem_below?.2 ⟨v', hmem, hv'⟩)
      simp [hnot, hv, eq_comm]
    · have hrl : r ++ l ≠ v.below ++ l := fun heq => hr (List.append_cancel_right heq)
      simp [hr, hrl]

end FileSystem

/-! ## The copying -/

/-- The copying says that it failed, and where it wrote to. -/
def CopyFailure (dest : Path) (e : Failure) : Prop :=
  ∃ context cause, e = .copyFailed dest context cause

/-- `x` does what the steps say, up to the first step for which it cannot be done. -/
def CopiesSteps (fs : FileSystem) (dest : Path) (l : Location) (x : Run Unit) (w : World)
    (steps : List Step) : Prop :=
  Ends x w (fun _ w' => fs.Copies dest l w.files steps w'.files)
    fun e w' => fs.Stops dest l w.files steps w'.files ∧ CopyFailure dest e

variable {fs : FileSystem} {dest : Path} {l : Location}

/-- The entries of a directory are copied one after the other. -/
theorem forM_copiesSteps {names : List Name} {f : Name → Run Unit} {g : Name → List Step}
    {below : Location} {w : World} (hl : l ≠ []) (hnodup : names.Nodup)
    (hbelow : ∀ n v, .visit v ∈ g n → (n :: below) <:+ v.below)
    (h : ∀ n ∈ names, ∀ w : World, fs.Grown dest l w.files →
      w.files.get? (below ++ l) = some .directory → w.files.get? (n :: (below ++ l)) = none →
      Leaves (f n) w (fun w' => Later fs dest l w.files w'.files) ∧
        CopiesSteps fs dest l (f n) w (g n))
    (hgrown : fs.Grown dest l w.files) (hdir : w.files.get? (below ++ l) = some .directory)
    (hnew : ∀ n ∈ names, w.files.get? (n :: (below ++ l)) = none) :
    CopiesSteps fs dest l (names.forM f) w (names.flatMap g) := by
  induction names generalizing w with
  | nil => exact .nil w.files
  | cons n names ih =>
    obtain ⟨hn, hnodup⟩ := List.nodup_cons.1 hnodup
    obtain ⟨hnone, hnew⟩ := List.forall_mem_cons.1 hnew
    obtain ⟨hfirst, hrest⟩ := List.forall_mem_cons.1 h
    obtain ⟨hlater, hcopies⟩ := hfirst w hgrown hdir hnone
    rw [CopiesSteps, ends_forM_cons, List.flatMap_cons]
    refine (Ends.and hlater hcopies).imp ?_ ?_
    · rintro _ w₁ ⟨hlater₁, hcopies₁⟩
      have hnew₁ : ∀ m ∈ names, w₁.files.get? (m :: (below ++ l)) = none := by
        intro m hm
        rw [hcopies₁.get?_of_absent hl, hnew m hm]
        intro v hv heq
        -- the steps for `n` are about places below `n`
        have hvbelow : v.below = m :: below :=
          List.append_cancel_right (heq : v.below ++ l = (m :: below) ++ l)
        have hsuf := hbelow n v hv
        rw [hvbelow] at hsuf
        obtain ⟨rfl, -⟩ := List.cons.inj (hsuf.eq_of_length (by simp))
        exact hn hm
      refine (ih hnodup hrest hlater₁.grown (hlater₁.directories hdir) hnew₁).imp ?_ ?_
      · intro _ w₂ hcopies₂
        exact hcopies₁.append hcopies₂
      · rintro e w₂ ⟨hstops, he⟩
        exact ⟨hcopies₁.stops hstops, he⟩
    · rintro e w₁ ⟨-, hstops, he⟩
      exact ⟨hstops.append _, he⟩

section Template

variable {template : Path} (hwf : fs.WellFormed) (hsite : fs.site? dest = some l)
  (hroot : fs.status template = .ok .directory) (hreach : ¬ fs.Reaches template l)

include hwf hsite hroot hreach

/-- The walk takes the same steps while the copy grows. -/
theorem meet_of_grown {gs : FileSystem} (hg : fs.Grown dest l gs) {inside : List Location}
    {dir : Path} {below d : Location} {names : List Name} {n : Name}
    (ho : fs.Opens true template inside dir below) (hlist : fs.list dir = .ok (d, names))
    (hn : n ∈ names) :
    gs.meet true (d :: inside) d n (dir.join n) = fs.meet true (d :: inside) d n (dir.join n) ∧
      gs.status (dir.join n) = fs.status (dir.join n) ∧
      gs.list (dir.join n) = fs.list (dir.join n) := by
  obtain ⟨-, -, hnone, -, hlegal⟩ := site_spec hwf hsite
  have hnamed := empty_not_mem_of_legal hlegal
  have hmeets : ∃ s : Step, fs.Meets true template s ∧ s.path = dir.join n := by
    cases hm : fs.meet true (d :: inside) d n (dir.join n) with
    | error e => exact ⟨_, .refused ho hlist hn hm, rfl⟩
    | ok kind => exact ⟨_, .visited ho hlist hn hm, rfl⟩
  obtain ⟨s, hs, hpath⟩ := hmeets
  obtain ⟨havoid, hparent⟩ := hs.avoids hreach hwf hroot
  rw [hpath] at havoid hparent
  have hthere := (get?_of_list hwf hlist hn).1
  exact ⟨meet_of_avoids hg.same hwf hnone hnamed havoid hthere,
    status_of_avoids hg.same hwf hnone hnamed havoid,
    list_of_avoids hg.same hwf hnone hnamed havoid hparent⟩

section Entry

variable {depth : Nat} {inside : List Location} {dir : Path} {below d : Location}
  {names : List Name} {n : Name} {w : World}
  (ho : fs.Opens true template inside dir below) (hlist : fs.list dir = .ok (d, names))
  (hn : n ∈ names) (hg : fs.Grown dest l w.files)
  (hdir : w.files.get? (below ++ l) = some .directory)
  (hnone : w.files.get? (n :: (below ++ l)) = none)

include ho hlist hn hg hdir hnone

theorem copyFile_copies {kind : Kind} (hkind : kind ≠ .directory)
    (hmeet : fs.meet true (d :: inside) d n (dir.join n) = .ok kind) :
    CopiesSteps fs dest l (copyEntry dest (depth + 1) (d :: inside) d dir below n) w
      [.visit ⟨n :: below, dir.join n, kind⟩] := by
  obtain ⟨hmeet', hstatus, -⟩ := meet_of_grown hwf hsite hroot hreach hg ho hlist hn
  have hlegal := (get?_of_list hwf hlist hn).2.2
  have hrun : Ends (do
        Run.change (·.copyFile (dir.join n) (dest.joinAll (n :: below)))
          (.copyFailed dest ("copying " ++ (Location.toPath (n :: below)).toString))
        Run.emit (.copied (Location.toPath (n :: below)))) w
      (fun _ w' => fs.Copies dest l w.files [.visit ⟨n :: below, dir.join n, kind⟩] w'.files)
      fun e w' => fs.Stops dest l w.files [.visit ⟨n :: below, dir.join n, kind⟩] w'.files ∧
        CopyFailure dest e := by
    simp only [ends_bind, ends_emit, ends_change]
    by_cases hfile : ∃ b, fs.status (dir.join n) = .ok (.file b)
    · obtain ⟨b, hb⟩ := hfile
      rw [copyFile_of_file (hstatus.trans hb)]
      rcases hg.write_below hdir hlegal b with ⟨hfit, -, hwrite⟩ | ⟨x, hwrite, hlong | hdir'⟩
      · rw [hwrite]
        refine .cons (k := n :: below) (e := .file b) ?_ (.nil _)
        rw [copy?_of_ne_directory hkind, if_neg (by simpa using hfit), hb]
      · rw [hwrite]
        refine ⟨stops_at ?_, _, x, rfl⟩
        rw [copy?_of_ne_directory hkind, if_pos hlong]
      · simp [hnone] at hdir'
    · have hcopy : fs.copy? dest (.visit ⟨n :: below, dir.join n, kind⟩) = none := by
        rw [copy?_of_ne_directory hkind]
        split
        · rfl
        · split
          · rename_i b hb
            exact absurd ⟨b, hb⟩ hfile
          · rfl
      rw [← hstatus] at hfile
      obtain ⟨x, hx⟩ := copyFile_of_not_file (dest.joinAll (n :: below)) hfile
      rw [hx]
      exact ⟨stops_at hcopy, _, x, rfl⟩
  rw [CopiesSteps, copyEntry, ends_bind, ends_look, hmeet', hmeet]
  cases kind with
  | directory => exact absurd rfl hkind
  | _ => exact hrun

/-- A directory is copied before what it holds. -/
theorem directory_copies (hdeep : DeepEnough (dir.join n) depth)
    (hmeet : fs.meet true (d :: inside) d n (dir.join n) = .ok .directory)
    (hchildren : ∀ {d' names'} (w' : World), fs.list (dir.join n) = .ok (d', names') →
      fs.Grown dest l w'.files → w'.files.get? (n :: (below ++ l)) = some .directory →
      (∀ m ∈ names', w'.files.get? (m :: n :: (below ++ l)) = none) →
      CopiesSteps fs dest l
        (names'.forM (copyEntry dest depth (d' :: d :: inside) d' (dir.join n) (n :: below))) w'
        (fs.stepsIn true depth (d :: inside) (dir.join n) (n :: below))) :
    CopiesSteps fs dest l (copyEntry dest (depth + 1) (d :: inside) d dir below n) w
      (.visit ⟨n :: below, dir.join n, .directory⟩ ::
        fs.stepsIn true depth (d :: inside) (dir.join n) (n :: below)) := by
  obtain ⟨hmeet', -, hlist'⟩ := meet_of_grown hwf hsite hroot hreach hg ho hlist hn
  have hlegal := (get?_of_list hwf hlist hn).2.2
  rw [CopiesSteps, copyEntry, ends_bind, ends_look, hmeet', hmeet]
  simp only [ends_bind, ends_get, ends_change, hlist']
  rcases hg.createDirectories_below hdir hlegal with ⟨hfit, -, hmake⟩ | ⟨hdir', -⟩ |
    ⟨x, hmake, hlong | ⟨b, hb⟩⟩
  · have hcopy : fs.copy? dest (.visit ⟨n :: below, dir.join n, .directory⟩) =
        some (n :: below, .directory) := by
      rw [copy?, if_neg (by simpa using hfit)]
    have hgrown := hg.set hdir hlegal hfit (by simp [hnone]) (.inl rfl)
    rw [hmake]
    simp only [ends_look]
    cases hsub : fs.list (dir.join n) with
    | error x =>
      refine ⟨.cons hcopy ?_, _, x, rfl⟩
      rw [stepsIn_eq hdeep, hsub]
      exact stops_at rfl
    | ok y =>
      obtain ⟨d', names'⟩ := y
      have hself : (w.files.set (n :: (below ++ l)) .directory).get? (n :: (below ++ l)) =
          some .directory := by
        rw [get?_set _ (by simp), if_pos rfl]
      have hempty : ∀ m ∈ names',
          (w.files.set (n :: (below ++ l)) .directory).get? (m :: n :: (below ++ l)) = none := by
        intro m hm
        have hne : m :: n :: (below ++ l) ≠ n :: (below ++ l) := fun h =>
          absurd (congrArg List.length h) (by simp)
        rw [get?_set _ (by simp), if_neg hne]
        exact hg.wellFormed.get?_of_absent hnone (List.suffix_cons m _)
      have hbelow := hchildren { w with files := w.files.set (n :: (below ++ l)) .directory }
        hsub hgrown hself hempty
      refine hbelow.imp ?_ ?_
      · intro _ w' hcopies
        exact .cons hcopy hcopies
      · rintro e w' ⟨hstops, he⟩
        exact ⟨.cons hcopy hstops, he⟩
  · simp [hnone] at hdir'
  · rw [hmake]
    refine ⟨stops_at ?_, _, x, rfl⟩
    rw [copy?, if_pos hlong]
  · simp [hnone] at hb

/-- One entry is copied, provided what it holds is. -/
theorem entry_copies (hdeep : DeepEnough dir (depth + 1))
    (hchildren : ∀ {d' names'} (w' : World), DeepEnough (dir.join n) depth →
      fs.Opens true template (d :: inside) (dir.join n) (n :: below) →
      fs.list (dir.join n) = .ok (d', names') →
      fs.Grown dest l w'.files → w'.files.get? (n :: (below ++ l)) = some .directory →
      (∀ m ∈ names', w'.files.get? (m :: n :: (below ++ l)) = none) →
      CopiesSteps fs dest l
        (names'.forM (copyEntry dest depth (d' :: d :: inside) d' (dir.join n) (n :: below))) w'
        (fs.stepsIn true depth (d :: inside) (dir.join n) (n :: below))) :
    CopiesSteps fs dest l (copyEntry dest (depth + 1) (d :: inside) d dir below n) w
      (fs.entrySteps true depth inside d dir below n) := by
  have hdeep' := hdeep.join (get?_of_list hwf hlist hn).2.2
  have hmeet' := (meet_of_grown hwf hsite hroot hreach hg ho hlist hn).1
  rw [entrySteps]
  cases hmeet : fs.meet true (d :: inside) d n (dir.join n) with
  | error x =>
    rw [CopiesSteps, copyEntry, ends_bind, ends_look, hmeet', hmeet]
    exact ⟨stops_at rfl, _, x, rfl⟩
  | ok kind =>
    cases kind with
    | directory =>
      exact directory_copies hwf hsite hroot hreach ho hlist hn hg hdir hnone hdeep' hmeet
        fun w' => hchildren w' hdeep' (.child ho hlist hn hmeet)
    | file =>
      exact copyFile_copies hwf hsite hroot hreach ho hlist hn hg hdir hnone (by simp) hmeet
    | other =>
      exact copyFile_copies hwf hsite hroot hreach ho hlist hn hg hdir hnone (by simp) hmeet

end Entry

theorem copyEntry_copies {depth : Nat} {inside : List Location} {dir : Path} {below d : Location}
    {names : List Name} {n : Name} {w : World} (hdeep : DeepEnough dir (depth + 1))
    (ho : fs.Opens true template inside dir below) (hlist : fs.list dir = .ok (d, names))
    (hn : n ∈ names) (hg : fs.Grown dest l w.files)
    (hdir : w.files.get? (below ++ l) = some .directory)
    (hnone : w.files.get? (n :: (below ++ l)) = none) :
    CopiesSteps fs dest l (copyEntry dest (depth + 1) (d :: inside) d dir below n) w
      (fs.entrySteps true depth inside d dir below n) := by
  have hl : l ≠ [] := (site_spec hwf hsite).2.1
  induction depth generalizing inside dir below d names n w with
  | zero =>
    refine entry_copies hwf hsite hroot hreach ho hlist hn hg hdir hnone hdeep ?_
    intro d' names' w' hdeep' _ hsub _ _ _
    -- the path of a directory at this depth is too long to be listed
    exact absurd (hdeep'.pos (check_of_list hsub)) (by simp)
  | succ depth ih =>
    refine entry_copies hwf hsite hroot hreach ho hlist hn hg hdir hnone hdeep ?_
    intro d' names' w' hdeep' hopens hsub hg' hdir' hnone'
    rw [stepsIn_succ, hsub]
    refine forM_copiesSteps hl ?_ (fun m v => suffix_of_mem_entrySteps) ?_ hg' hdir' hnone'
    · obtain ⟨-, -, rfl⟩ := list_eq_ok_iff.1 hsub
      exact nodup_names fs d'
    · intro m hm w₁ hg₁ hdir₁ hnone₁
      exact ⟨copyEntry_later hg₁ hdir₁ (get?_of_list hwf hsub hm).2.2,
        ih hdeep' hopens hsub hm hg₁ hdir₁ hnone₁⟩

/-- The template is copied step by step, up to the first step for which this cannot be done. -/
theorem copyTemplate_ends {w : World} (hw : w.files = fs.set l .directory) :
    Ends (copyTemplate template dest) w
      (fun _ w' => fs.Grown dest l w'.files ∧
        fs.Copies dest l (fs.set l .directory) (fs.walk true template) w'.files)
      fun e w' => fs.Grown dest l w'.files ∧
        fs.Stops dest l (fs.set l .directory) (fs.walk true template) w'.files ∧
        CopyFailure dest e := by
  obtain ⟨-, hl, hnone, -, hlegal⟩ := site_spec hwf hsite
  have hg : fs.Grown dest l w.files := hw ▸ grown_created hwf hsite
  obtain ⟨havoid, hparent⟩ := avoids_of_not_reaches hreach (p := template) List.mem_cons_self
  obtain ⟨hdeep, hwalk⟩ := walk_eq true hroot
  have hcopies : CopiesSteps fs dest l (copyTemplate template dest) w
      (fs.walk true template) := by
    rw [CopiesSteps, copyTemplate, ends_bind, ends_look,
      list_of_avoids hg.same hwf hnone (empty_not_mem_of_legal hlegal) havoid hparent, hwalk]
    cases hlist : fs.list template with
    | error x =>
      refine ⟨?_, _, x, rfl⟩
      rw [stepsIn_eq hdeep, hlist]
      exact stops_at rfl
    | ok y =>
      obtain ⟨d, names⟩ := y
      rw [maxDepth, stepsIn_succ, hlist]
      refine forM_copiesSteps hl ?_ (fun m v => suffix_of_mem_entrySteps) ?_ hg hg.root ?_
      · obtain ⟨-, -, rfl⟩ := list_eq_ok_iff.1 hlist
        exact nodup_names fs d
      · intro n hn w₁ hg₁ hdir₁ hnone₁
        exact ⟨copyEntry_later hg₁ hdir₁ (get?_of_list hwf hlist hn).2.2,
          copyEntry_copies hwf hsite hroot hreach hdeep (.root hroot) hlist hn hg₁ hdir₁ hnone₁⟩
      · intro n hn
        have hne : n :: l ≠ l := fun h => absurd (congrArg List.length h) (by simp)
        rw [hw]
        exact (get?_set fs hl _ _).trans
          ((if_neg hne).trans (hwf.get?_of_absent hnone (List.suffix_cons n l)))
  refine (Ends.and (copyTemplate_later hg) hcopies).imp ?_ ?_
  · rintro _ w' ⟨hlater, hcopies'⟩
    exact ⟨hlater.grown, hw ▸ hcopies'⟩
  · rintro e w' ⟨hlater, hstops, he⟩
    exact ⟨hlater.grown, hw ▸ hstops, he⟩

end Template

end Stencil
