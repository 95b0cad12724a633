import Stencil.Proofs.Appending
import Stencil.Proofs.BelowRoot
import Stencil.Proofs.Overwriting
import Stencil.Proofs.Planning

/-!
Filling in a directory.

Planning reads every file below the root, and after it nothing can keep the plan from being carried
out (`writes_end`). Main statement: a run that is not refused leaves the tree as it was, the bytes
of the files apart, and each file holds its text filled in (`fillDirectory_spec`). In a new
directory only a name without a value can be refused (`fillDirectory_ends`).
-/

namespace Stencil

open FileSystem Run

variable {bindings : Bindings} {policy : Policy} {fs gs : FileSystem} {steps : List Step}
  {root dest : Path} {l : Location} {w : World}

/-! ## The steps of the walk -/

theorem filterMap_file?_sublist (steps : List Step) :
    List.Sublist (steps.filterMap Step.file?) (steps.filterMap Step.below?) := by
  induction steps with
  | nil => exact List.Sublist.refl _
  | cons s steps ih =>
    cases s with
    | failed p e => exact ih
    | visit v =>
      by_cases hv : v.kind = .file
      · have hfile : Step.file? (.visit v) = some v.below := by simp [Step.file?, hv]
        rw [List.filterMap_cons_some hfile]
        exact ih.cons_cons v.below
      · rw [List.filterMap_cons_none (show Step.file? (.visit v) = none by simp [Step.file?, hv])]
        exact ih.cons v.below

theorem mem_file? {k : Location} :
    k ∈ steps.filterMap Step.file? ↔ ∃ v, .visit v ∈ steps ∧ v.kind = .file ∧ v.below = k := by
  rw [List.mem_filterMap]
  constructor
  · rintro ⟨s, hs, hk⟩
    cases s with
    | failed p e => simp [Step.file?] at hk
    | visit v =>
      simp only [Step.file?] at hk
      split at hk
      · rename_i hv
        exact ⟨v, hs, hv, Option.some.inj hk⟩
      · simp at hk
  · rintro ⟨v, hv, hkind, rfl⟩
    exact ⟨_, hv, by simp [Step.file?, hkind]⟩

/-- The plan for the files below a location. -/
structure PlanFor (bindings : Bindings) (policy : Policy) (l : Location) (gs : FileSystem)
    (plan : Plan) : Prop where
  nodup : plan.files.Nodup
  mem : ∀ {k}, k ∈ plan.files ↔ ∃ b, gs.get? (k ++ l) = some (.file b)
  has : ∀ {k f}, plan.Has k f ↔
    ∃ b, gs.get? (k ++ l) = some (.file b) ∧ fate bindings policy b = .ok f

/-- No directory and no file below the root has a path that is too long. -/
def PathsFit (fs : FileSystem) (root : Path) (l : Location) : Prop :=
  ∀ r e, fs.get? (r ++ l) = some e → e.kind ≠ .other → (root.joinAll r).size ≤ maxPathSize

section

variable (h : gs.Rooted root l)

include h

theorem FileSystem.Rooted.outcome_file {r : Location} {b : ByteArray}
    (hb : gs.get? (r ++ l) = some (.file b)) :
    Step.outcome gs root bindings policy (.visit ⟨r, root.joinAll r, .file⟩) =
      if (root.joinAll r).size ≤ maxPathSize then
        match fate bindings policy b with
        | .error name => .error (.unresolved (root.joinAll r) name)
        | .ok f => .ok (some (r, f))
      else .error (.system ("reading " ++ (root.joinAll r).toString) .nameTooLong) := by
  rw [Step.outcome, if_pos rfl, h.read_below hb]
  by_cases hfit : (root.joinAll r).size ≤ maxPathSize
  · cases hf : fate bindings policy b <;> simp [hfit, hf]
  · simp [hfit]

/-- A path that is too long stops planning, or that of a directory above it does. -/
theorem exists_step_of_long (bindings : Bindings) (policy : Policy) {r : Location} {e : Entry}
    (he : gs.get? (r ++ l) = some e) (hkind : e.kind ≠ .other)
    (hlong : maxPathSize < (root.joinAll r).size) :
    ∃ s ∈ gs.walk false root, ∃ q, q <:+ r ∧ (gs.get? (q ++ l)).isSome ∧
      s.path = root.joinAll q ∧ ∃ x, s.outcome gs root bindings policy = .error x := by
  induction r generalizing e with
  | nil => exact absurd h.size_root (Nat.not_le_of_lt hlong)
  | cons n r ih =>
    have hs := Option.isSome_of_eq_some he
    have hparent : gs.get? (r ++ l) = some .directory := h.wellFormed.parent hs
    by_cases hfit : (root.joinAll r).size ≤ maxPathSize
    · cases e with
      | directory =>
        exact ⟨_, h.mem_walk_iff.2 (.inr ⟨n :: r, he, hfit, hlong, rfl⟩), n :: r,
          List.suffix_refl _, hs, rfl, _, rfl⟩
      | file b =>
        refine ⟨_, h.mem_walk_iff.2 (.inl ⟨n, r, .file b, he, hfit, rfl⟩), n :: r,
          List.suffix_refl _, hs, rfl, ?_⟩
        rw [Entry.kind, h.outcome_file he, if_neg (Nat.not_le_of_lt hlong)]
        exact ⟨_, rfl⟩
      | _ => simp [Entry.kind] at hkind
    · obtain ⟨s, hs, q, hq, h⟩ := ih hparent (by simp [Entry.kind]) (Nat.lt_of_not_le hfit)
      exact ⟨s, hs, q, hq.trans (List.suffix_cons n r), h⟩

theorem pathsFit_of_outcomes (hall : ∀ s ∈ gs.walk false root,
    ∃ x, s.outcome gs root bindings policy = .ok x) : PathsFit gs root l := by
  intro r e he hkind
  by_contra hlong
  obtain ⟨s, hs, -, -, -, -, x, hx⟩ :=
    exists_step_of_long h bindings policy he hkind (Nat.lt_of_not_le hlong)
  obtain ⟨y, hy⟩ := hall s hs
  simp [hx] at hy

theorem mem_fates_iff {xs : List (Location × Fate)}
    (hxs : fates gs root bindings policy (gs.walk false root) = .ok xs) {k : Location} {f : Fate} :
    (k, f) ∈ xs ↔ ∃ b, gs.get? (k ++ l) = some (.file b) ∧ fate bindings policy b = .ok f := by
  have hfits := pathsFit_of_outcomes h (fates_eq_ok hxs).1
  rw [mem_of_fates hxs]
  constructor
  · rintro ⟨s, hs, hx⟩
    obtain ⟨n, r, e, he, -, rfl⟩ | ⟨r, -, -, -, rfl⟩ := h.mem_walk_iff.1 hs
    · cases e with
      | file b =>
        rw [Entry.kind, h.outcome_file he, if_pos (hfits _ _ he (by simp [Entry.kind]))] at hx
        cases hf : fate bindings policy b with
        | error name => simp [hf] at hx
        | ok g =>
          simp only [hf, Except.ok.injEq, Option.some.injEq, Prod.mk.injEq] at hx
          obtain ⟨rfl, rfl⟩ := hx
          exact ⟨b, he, hf⟩
      | _ => simp [Step.outcome, Entry.kind] at hx
    · simp [Step.outcome] at hx
  · rintro ⟨b, hb, hf⟩
    have hfit := hfits k _ hb (by simp [Entry.kind])
    cases k with
    | nil => simp [h.directory] at hb
    | cons n r =>
      refine ⟨_, h.visited hb hfit, ?_⟩
      rw [Entry.kind, h.outcome_file hb, if_pos hfit, hf]

theorem planFor_of_fates {xs : List (Location × Fate)}
    (hxs : fates gs root bindings policy (gs.walk false root) = .ok xs) :
    PlanFor bindings policy l gs (Plan.empty.putAll xs) := by
  have hfiles : (Plan.empty.putAll xs).files.Perm ((gs.walk false root).filterMap Step.file?) := by
    rw [← files_of_fates hxs]
    exact Plan.empty.files_putAll xs
  refine ⟨?_, fun {k} => ?_, fun {k f} => ?_⟩
  · exact hfiles.nodup_iff.2 ((nodup_walk gs false root).sublist (filterMap_file?_sublist _))
  · rw [hfiles.mem_iff, mem_file?]
    constructor
    · rintro ⟨v, hv, hkind, rfl⟩
      obtain ⟨n, r, e, he, -, heq⟩ | ⟨r, -, -, -, heq⟩ := h.mem_walk_iff.1 hv
      · obtain rfl := Step.visit.inj heq
        cases e with
        | file b => exact ⟨b, he⟩
        | _ => simp [Entry.kind] at hkind
      · simp at heq
    · rintro ⟨b, hb⟩
      have hfit := pathsFit_of_outcomes h (fates_eq_ok hxs).1 k _ hb (by simp [Entry.kind])
      cases k with
      | nil => simp [h.directory] at hb
      | cons n r =>
        exact ⟨_, h.visited hb hfit, rfl, rfl⟩
  · have hempty : ¬ Plan.empty.Has k f := by
      cases f <;> simp [Plan.empty, Plan.Has]
    rw [Plan.has_putAll, mem_fates_iff h hxs]
    exact or_iff_right hempty

end

/-! ## Carrying out the plan -/

/-- Only bytes of files below `l` are others in `gs'`. -/
structure Overwritten (l : Location) (gs gs' : FileSystem) : Prop where
  shape : SameShape gs gs'
  off : SameOff l gs gs'

theorem Overwritten.refl (l : Location) (gs : FileSystem) : Overwritten l gs gs :=
  ⟨SameShape.refl gs, fun _ => rfl, rfl⟩

theorem Overwritten.trans {gs' gs'' : FileSystem} (h : Overwritten l gs gs')
    (h' : Overwritten l gs' gs'') : Overwritten l gs gs'' :=
  ⟨h.shape.trans h'.shape, fun hk => (h'.off.outside hk).trans (h.off.outside hk),
    h'.off.home.trans h.off.home⟩

theorem FileSystem.Rooted.overwritten {gs' : FileSystem} (h : gs.Rooted root l)
    (hover : Overwritten l gs gs') : gs'.Rooted root l := by
  obtain ⟨m, hm⟩ := h.leads
  exact ⟨hover.shape.wellFormed h.wellFormed, ⟨m, hover.shape.leadsTo hm⟩, h.check,
    hover.shape.directory_iff.2 h.directory⟩

/-- A file that is there is written over, and nothing else changes. -/
theorem overwrite_ends (h : w.files.Rooted root l) {k : Location} {b : ByteArray}
    (hb : w.files.get? (k ++ l) = some (.file b)) (hfit : (root.joinAll k).size ≤ maxPathSize)
    (bytes : ByteArray) (failure : SystemError → Failure) :
    Ends (Run.change (·.write (root.joinAll k) bytes) failure) w
      (fun _ w' => Overwritten l w.files w'.files ∧
        w'.files.get? (k ++ l) = some (.file bytes) ∧
        ∀ j, j ≠ k → w'.files.get? (j ++ l) = w.files.get? (j ++ l))
      fun _ _ => False := by
  have hne : k ++ l ≠ [] := by
    intro hempty
    simp [hempty] at hb
  have hself : SameOff l w.files w.files := ⟨fun _ => rfl, rfl⟩
  rw [ends_change, h.write_below hb hfit]
  refine ⟨⟨(SameShape.refl _).set hb bytes, hself.set (List.suffix_append k l) hne _⟩, ?_, ?_⟩
  · rw [get?_set _ hne, if_pos rfl]
  · intro j hj
    rw [get?_set _ hne, if_neg fun heq => hj (List.append_cancel_right heq)]

/-- The files stand below `l`, none on a path that is too long, and none is listed twice. -/
structure Writable (gs : FileSystem) (root : Path) (l : Location) (files : List FilledFile) :
    Prop where
  there : ∀ x ∈ files, (∃ b, gs.get? (x.file ++ l) = some (.file b)) ∧
    (root.joinAll x.file).size ≤ maxPathSize
  nodup : (files.map (·.file)).Nodup

/-- `gs'` is `gs` with the files below `l` written over. -/
structure WrittenOver (l : Location) (files : List FilledFile) (gs gs' : FileSystem) : Prop where
  frame : Overwritten l gs gs'
  written : ∀ x ∈ files, gs'.get? (x.file ++ l) = some (.file x.text.toUTF8)
  kept : ∀ k, (∀ x ∈ files, x.file ≠ k) → gs'.get? (k ++ l) = gs.get? (k ++ l)

/-- Files that are there are written one after the other, and nothing can go wrong. -/
theorem writes_end {files : List FilledFile} (h : w.files.Rooted root l)
    (hfiles : Writable w.files root l files) :
    Ends (files.forM fun r =>
        let path := root.joinAll r.file
        Run.change (·.write path r.text.toUTF8) (.system ("writing " ++ path.toString))) w
      (fun _ w' => WrittenOver l files w.files w'.files) fun _ _ => False := by
  obtain ⟨hthere, hnodup⟩ := hfiles
  induction files generalizing w with
  | nil =>
    rw [ends_forM_nil]
    exact ⟨Overwritten.refl l _, by simp, by simp⟩
  | cons x files ih =>
    obtain ⟨⟨⟨b, hb⟩, hfit⟩, hrest⟩ := List.forall_mem_cons.1 hthere
    obtain ⟨hx, hnodup⟩ := List.nodup_cons.1 hnodup
    have hne : ∀ y ∈ files, y.file ≠ x.file := fun y hy heq =>
      hx (List.mem_map.2 ⟨y, hy, heq⟩)
    rw [ends_forM_cons]
    refine (overwrite_ends h hb hfit _ _).imp ?_ fun _ _ => id
    rintro _ w₁ ⟨hover, hfirst, hother⟩
    refine (ih (h.overwritten hover) ?_ hnodup).imp ?_ fun _ _ => id
    · intro y hy
      obtain ⟨⟨c, hc⟩, hfit⟩ := hrest y hy
      exact ⟨⟨c, (hother _ (hne y hy)).trans hc⟩, hfit⟩
    · rintro _ w' ⟨hover', hwritten, hkept⟩
      refine ⟨hover.trans hover', List.forall_mem_cons.2 ⟨?_, hwritten⟩, fun k hk => ?_⟩
      · rw [hkept x.file hne, hfirst]
      · obtain ⟨hxk, hk⟩ := List.forall_mem_cons.1 hk
        rw [hkept k hk, hother k hxk.symm]

/-- A plan for files that are there is carried out. -/
theorem execute_ends {plan : Plan} (h : w.files.Rooted root l)
    (hfiles : Writable w.files root l plan.filled) :
    Ends (plan.execute root) w
      (fun report w' => report = ⟨plan.filled.map (·.file), plan.unchanged, plan.skipped⟩ ∧
        WrittenOver l plan.filled w.files w'.files)
      fun _ _ => False := by
  rw [Plan.execute, ends_bind]
  refine (writes_end h hfiles).imp ?_ fun _ _ => id
  intro _ w' hw
  rw [ends_pure]
  exact ⟨rfl, hw⟩

/-- `gs'` is `gs` with the files below `l` filled in, and the report says which. -/
structure FilledIn (bindings : Bindings) (policy : Policy) (l : Location) (gs gs' : FileSystem)
    (report : Report) : Prop where
  file : ∀ {k b}, gs.get? (k ++ l) = some (.file b) →
    gs'.get? (k ++ l) = some (.file (filledBytes bindings policy b))
  other : ∀ {k}, (∀ b, gs.get? (k ++ l) ≠ some (.file b)) →
    gs'.get? (k ++ l) = gs.get? (k ++ l)
  resolved : ∀ {k b}, gs.get? (k ++ l) = some (.file b) → ∃ f, fate bindings policy b = .ok f
  nodup : (report.filled ++ report.unchanged ++ report.skipped).Nodup
  filled : ∀ {k}, k ∈ report.filled ↔
    ∃ b, gs.get? (k ++ l) = some (.file b) ∧ filledBytes bindings policy b ≠ b
  unchanged : ∀ {k}, k ∈ report.unchanged ↔
    ∃ b, gs.get? (k ++ l) = some (.file b) ∧ textOf? b ≠ none ∧ filledBytes bindings policy b = b
  skipped : ∀ {k}, k ∈ report.skipped ↔
    ∃ b, gs.get? (k ++ l) = some (.file b) ∧ textOf? b = none

theorem FilledIn.text {gs' : FileSystem} {report : Report}
    (h : FilledIn bindings policy l gs gs' report) {k : Location} {b : ByteArray}
    {text : String} (hb : gs.get? (k ++ l) = some (.file b)) (htext : textOf? b = some text) :
    ∃ result, substitute text bindings policy = .ok result ∧
      gs'.get? (k ++ l) = some (.file result.toUTF8) := by
  obtain ⟨f, hf⟩ := h.resolved hb
  rcases fate_cases hf with ⟨hnone, -⟩ | ⟨text', result, htext', hsub, -⟩
  · simp [htext] at hnone
  · obtain rfl : text = text' := Option.some.inj (htext.symm.trans htext')
    refine ⟨result, hsub, ?_⟩
    rw [h.file hb, filledBytes]
    simp only [htext, hsub]

theorem PlanFor.resolved {plan : Plan} (h : PlanFor bindings policy l gs plan) {k : Location}
    {b : ByteArray} (hb : gs.get? (k ++ l) = some (.file b)) :
    ∃ f, plan.Has k f ∧ fate bindings policy b = .ok f := by
  have hsome : ∃ f, plan.Has k f := by
    have hk := h.mem.2 ⟨b, hb⟩
    rw [Plan.files, List.mem_append, List.mem_append, List.mem_map] at hk
    rcases hk with (⟨x, hx, rfl⟩ | hk) | hk
    · exact ⟨.filled x.text, hx⟩
    · exact ⟨.unchanged, hk⟩
    · exact ⟨.skipped, hk⟩
  obtain ⟨f, hf⟩ := hsome
  obtain ⟨b', hb', hfate⟩ := h.has.1 hf
  obtain rfl : b = b' := by simpa [hb] using hb'
  exact ⟨f, hf, hfate⟩

theorem Plan.mem_filled {plan : Plan} {k : Location} :
    k ∈ plan.filled.map (·.file) ↔ ∃ text, plan.Has k (.filled text) := by
  rw [List.mem_map]
  constructor
  · rintro ⟨x, hx, rfl⟩
    exact ⟨x.text, hx⟩
  · rintro ⟨text, h⟩
    exact ⟨⟨k, text⟩, h, rfl⟩

section

variable {plan : Plan} (h : PlanFor bindings policy l gs plan)

include h

theorem PlanFor.filled_iff {k : Location} : k ∈ plan.filled.map (·.file) ↔
    ∃ b, gs.get? (k ++ l) = some (.file b) ∧ filledBytes bindings policy b ≠ b := by
  rw [Plan.mem_filled]
  constructor
  · rintro ⟨text, hk⟩
    obtain ⟨b, hb, hfate⟩ := h.has.1 hk
    exact ⟨b, hb, (fate_filled_iff hfate).1 ⟨text, rfl⟩⟩
  · rintro ⟨b, hb, hne⟩
    obtain ⟨f, hf, hfate⟩ := h.resolved hb
    obtain ⟨text, rfl⟩ := (fate_filled_iff hfate).2 hne
    exact ⟨text, hf⟩

theorem PlanFor.unchanged_iff {k : Location} : k ∈ plan.unchanged ↔
    ∃ b, gs.get? (k ++ l) = some (.file b) ∧ textOf? b ≠ none ∧
      filledBytes bindings policy b = b := by
  constructor
  · intro hk
    obtain ⟨b, hb, hfate⟩ := h.has.1 (show plan.Has k .unchanged from hk)
    refine ⟨b, hb, fun hskip => ?_, filledBytes_of_fate hfate⟩
    exact absurd ((fate_skipped_iff hfate).2 hskip) (by simp)
  · rintro ⟨b, hb, htext, hsame⟩
    obtain ⟨f, hf, hfate⟩ := h.resolved hb
    cases f with
    | skipped => exact absurd ((fate_skipped_iff hfate).1 rfl) htext
    | unchanged => exact hf
    | filled text => exact absurd hsame ((fate_filled_iff hfate).1 ⟨text, rfl⟩)

theorem PlanFor.skipped_iff {k : Location} : k ∈ plan.skipped ↔
    ∃ b, gs.get? (k ++ l) = some (.file b) ∧ textOf? b = none := by
  constructor
  · intro hk
    obtain ⟨b, hb, hfate⟩ := h.has.1 (show plan.Has k .skipped from hk)
    exact ⟨b, hb, (fate_skipped_iff hfate).1 rfl⟩
  · rintro ⟨b, hb, htext⟩
    obtain ⟨f, hf, hfate⟩ := h.resolved hb
    obtain rfl := (fate_skipped_iff hfate).2 htext
    exact hf

theorem PlanFor.writable (hfits : PathsFit gs root l) : Writable gs root l plan.filled := by
  constructor
  · intro x hx
    obtain ⟨b, hb, -⟩ := h.has.1 (show plan.Has x.file (.filled x.text) from hx)
    exact ⟨⟨b, hb⟩, hfits _ _ hb (by simp [Entry.kind])⟩
  · have hall := h.nodup
    rw [Plan.files, List.append_assoc] at hall
    exact hall.of_append_left

theorem filledIn_of_plan {gs' : FileSystem} (hover : WrittenOver l plan.filled gs gs') :
    FilledIn bindings policy l gs gs'
      ⟨plan.filled.map (·.file), plan.unchanged, plan.skipped⟩ := by
  refine ⟨?_, ?_, fun hb => ?_, h.nodup, h.filled_iff, h.unchanged_iff, h.skipped_iff⟩
  · intro k b hb
    obtain ⟨f, hf, hfate⟩ := h.resolved hb
    rw [filledBytes_of_fate hfate]
    by_cases hx : ∃ x ∈ plan.filled, x.file = k
    · obtain ⟨x, hx, rfl⟩ := hx
      obtain ⟨b', hb', hfate'⟩ := h.has.1 (show plan.Has x.file (.filled x.text) from hx)
      obtain rfl : b = b' := by simpa [hb] using hb'
      obtain rfl : f = .filled x.text := by simpa [hfate] using hfate'
      exact hover.written x hx
    · rw [hover.kept k fun x hmem heq => hx ⟨x, hmem, heq⟩, hb]
      cases f with
      | filled text => exact absurd ⟨⟨k, text⟩, hf, rfl⟩ hx
      | _ => rfl
  · intro k hk
    refine hover.kept k fun x hx heq => ?_
    obtain ⟨b, hb, -⟩ := h.has.1 (show plan.Has x.file (.filled x.text) from hx)
    exact hk b (heq ▸ hb)
  · obtain ⟨f, -, hfate⟩ := h.resolved hb
    exact ⟨f, hfate⟩

end

/-- Filling in a directory fails in planning, when nothing has been written, or fills in every
file. -/
theorem fillDirectory_spec (h : w.files.Rooted root l) (bindings : Bindings) (policy : Policy) :
    Ends (fillDirectory root bindings policy) w
      (fun report w' => Overwritten l w.files w'.files ∧
        FilledIn bindings policy l w.files w'.files report ∧ PathsFit w.files root l)
      fun e w' => w'.files = w.files ∧
        fates w.files root bindings policy (w.files.walk false root) = .error e := by
  rw [fillDirectory, ends_bind]
  refine planFilling_ends.imp ?_ fun _ _ => id
  rintro plan w' ⟨hfiles, xs, hxs, rfl⟩
  rw [← hfiles] at h hxs ⊢
  have hplan := planFor_of_fates h hxs
  have hfits := pathsFit_of_outcomes h (fates_eq_ok hxs).1
  generalize Plan.empty.putAll xs = plan at hplan ⊢
  refine (execute_ends h (hplan.writable hfits)).imp ?_ fun _ _ => False.elim
  rintro _ w'' ⟨rfl, hover⟩
  exact ⟨hover.frame, filledIn_of_plan hplan hover, hfits⟩

/-- A walk without a step leaves nothing to do. -/
theorem fillDirectory_of_walk_nil (h : w.files.walk false root = []) (bindings : Bindings)
    (policy : Policy) :
    fillDirectory root bindings policy w = .ok ⟨[], [], []⟩ w := by
  have hplan : planFilling root bindings policy w = .ok .empty w := by
    have hget : (get : Run World) w = .ok w w := rfl
    simp only [planFilling, bind, EStateM.bind, hget, h]
    rfl
  simp only [fillDirectory, bind, EStateM.bind, hplan]
  rfl

/-! ## A new directory -/

theorem FileSystem.Grown.rooted (h : fs.Grown dest l gs) : gs.Rooted dest l :=
  ⟨h.wellFormed, h.leads, h.check, h.root⟩

theorem FileSystem.Grown.pathsFit (h : fs.Grown dest l gs) : PathsFit gs dest l := by
  intro r e he _
  by_cases hr : r = []
  · rw [hr]
    exact h.rooted.size_root
  · exact h.fits hr (Option.isSome_of_eq_some he)

theorem FileSystem.Grown.read_below (h : fs.Grown dest l gs) {r : Location} {b : ByteArray}
    (hb : gs.get? (r ++ l) = some (.file b)) : gs.read (dest.joinAll r) = .ok b := by
  rw [h.rooted.read_below hb, if_pos (h.pathsFit r _ hb (by simp [Entry.kind]))]

theorem later_of_overwritten {gs' : FileSystem} (h : fs.Grown dest l gs)
    (hover : Overwritten l gs gs') : Later fs dest l gs gs' := by
  have hshape := hover.shape
  refine ⟨⟨h.old, h.site, hshape.wellFormed h.wellFormed, ?_, hshape.directory_iff.2 h.root, ?_,
    ?_⟩, hshape.directory_iff.2⟩
  · exact ⟨fun hk => (hover.off.outside hk).trans (h.same.outside hk),
      hover.off.home.trans h.same.home⟩
  · intro r e hr he
    rcases hshape.get?_cases (r ++ l) with heq | ⟨b, c, -, hc⟩
    · exact h.plain hr (heq ▸ he)
    · exact .inr ⟨c, Option.some.inj (he.symm.trans hc)⟩
  · intro r hr hs
    rw [hshape.isSome_eq] at hs
    exact h.fits hr hs

/-- The policy refuses a name in a file below `l`, and `e` says so. -/
def RefusedBelow (bindings : Bindings) (policy : Policy) (dest : Path) (l : Location)
    (gs : FileSystem) (e : Failure) : Prop :=
  ∃ k b name, gs.get? (k ++ l) = some (.file b) ∧ fate bindings policy b = .error name ∧
    e = .unresolved (dest.joinAll k) name

theorem refusedBelow_of_fates (h : fs.Grown dest l gs) {e : Failure}
    (he : fates gs dest bindings policy (gs.walk false dest) = .error e) :
    RefusedBelow bindings policy dest l gs e := by
  obtain ⟨before, s, behind, hwalk, -, hs⟩ := exists_of_fates_error he
  have hmem : s ∈ gs.walk false dest := hwalk ▸ List.mem_append_right _ List.mem_cons_self
  obtain ⟨n, r, x, hx, -, rfl⟩ | ⟨r, hr, -, hlong, -⟩ := h.rooted.mem_walk_iff.1 hmem
  · cases x with
    | file b =>
      rw [Entry.kind, h.rooted.outcome_file hx, if_pos (h.pathsFit _ _ hx (by simp [Entry.kind]))]
        at hs
      cases hf : fate bindings policy b with
      | error name =>
        simp only [hf, Except.error.injEq] at hs
        exact ⟨n :: r, b, name, hx, hf, hs.symm⟩
      | ok f => simp [hf] at hs
    | _ => simp [Step.outcome, Entry.kind] at hs
  · exact absurd (h.pathsFit r _ hr (by simp [Entry.kind])) (Nat.not_le_of_lt hlong)

/-- Filling in a new directory either succeeds or finds a name that the policy refuses, and then
nothing has been written. -/
theorem fillDirectory_ends (h : fs.Grown dest l w.files) :
    Ends (fillDirectory dest bindings policy) w
      (fun report w' => Later fs dest l w.files w'.files ∧
        FilledIn bindings policy l w.files w'.files report)
      fun e w' => w'.files = w.files ∧ RefusedBelow bindings policy dest l w.files e := by
  refine (fillDirectory_spec h.rooted bindings policy).imp ?_ ?_
  · rintro report w' ⟨hover, hfilled, -⟩
    exact ⟨later_of_overwritten h hover, hfilled⟩
  · rintro e w' ⟨hfiles, he⟩
    exact ⟨hfiles, refusedBelow_of_fates h he⟩

end Stencil
