import Mathlib.Data.List.Basic
import Stencil.Filling
import Stencil.Proofs.Endings
import Stencil.Proofs.Substituting

/-!
What planning decides.

`Fate` says what becomes of a file, and `Step.outcome` what a step of the walk comes to. Main
statement: planning writes nothing; it ends with a plan that has the fates of all files, or with
the failure of the first step that has one (`planFilling_ends`, `exists_of_fates_error`).
-/

namespace Stencil

open Run

/-! ## One file -/

inductive Fate
  | skipped
  | unchanged
  | filled (text : String)
  deriving DecidableEq

/-- What becomes of a file that holds `bytes`, or the name that the policy refuses. -/
def fate (bindings : Bindings) (policy : Policy) (bytes : ByteArray) : Except String Fate :=
  match textOf? bytes with
  | none => .ok .skipped
  | some text =>
    match substitute text bindings policy with
    | .error name => .error name
    | .ok result => .ok (if result = text then .unchanged else .filled result)

/-- What a file with this fate holds in the end, when it held `old`. -/
def Fate.bytes (old : ByteArray) : Fate → ByteArray
  | .filled text => text.toUTF8
  | _ => old

/-- The bytes of a file after filling in. -/
def filledBytes (bindings : Bindings) (policy : Policy) (bytes : ByteArray) : ByteArray :=
  match textOf? bytes with
  | none => bytes
  | some text =>
    match substitute text bindings policy with
    | .error _ => bytes
    | .ok result => result.toUTF8

variable {bindings : Bindings} {policy : Policy}

theorem toUTF8_of_textOf? {bytes : ByteArray} {text : String} (h : textOf? bytes = some text) :
    text.toUTF8 = bytes := by
  rw [textOf?] at h
  split at h
  · simp at h
  · unfold String.fromUTF8? at h
    split at h
    · obtain rfl := Option.some.inj h
      rfl
    · simp at h

/-- What is known of a file with a fate. -/
theorem fate_cases {bytes : ByteArray} {f : Fate} (h : fate bindings policy bytes = .ok f) :
    (textOf? bytes = none ∧ f = .skipped) ∨
      ∃ text result, textOf? bytes = some text ∧ substitute text bindings policy = .ok result ∧
        f = if result = text then .unchanged else .filled result := by
  rw [fate] at h
  cases htext : textOf? bytes with
  | none =>
    rw [htext] at h
    exact .inl ⟨rfl, (Except.ok.inj h).symm⟩
  | some text =>
    rw [htext] at h
    cases hresult : substitute text bindings policy with
    | error name => simp [hresult] at h
    | ok result =>
      simp only [hresult] at h
      exact .inr ⟨text, result, rfl, hresult, (Except.ok.inj h).symm⟩

theorem fate_eq_error_iff {bytes : ByteArray} {name : String} :
    fate bindings policy bytes = .error name ↔ ∃ text, textOf? bytes = some text ∧
      policy = .fail ∧ firstUnbound? bindings text = some name := by
  rw [fate]
  cases htext : textOf? bytes with
  | none => simp
  | some text =>
    simp only [Option.some.injEq, exists_eq_left', ← substitute_eq_error_iff]
    cases substitute text bindings policy <;> simp

theorem filledBytes_of_fate {bytes : ByteArray} {f : Fate}
    (h : fate bindings policy bytes = .ok f) :
    filledBytes bindings policy bytes = f.bytes bytes := by
  rw [filledBytes]
  rcases fate_cases h with ⟨htext, rfl⟩ | ⟨text, result, htext, hresult, rfl⟩
  · rw [htext]
    rfl
  · simp only [htext, hresult]
    by_cases heq : result = text
    · rw [if_pos heq, heq, toUTF8_of_textOf? htext]
      rfl
    · rw [if_neg heq]
      rfl

theorem fate_skipped_iff {bytes : ByteArray} {f : Fate} (h : fate bindings policy bytes = .ok f) :
    f = .skipped ↔ textOf? bytes = none := by
  rcases fate_cases h with ⟨htext, rfl⟩ | ⟨text, result, htext, -, rfl⟩
  · simp [htext]
  · by_cases heq : result = text <;> simp [htext, heq]

/-- A file is filled in when its bytes become others. -/
theorem fate_filled_iff {bytes : ByteArray} {f : Fate} (h : fate bindings policy bytes = .ok f) :
    (∃ text, f = .filled text) ↔ filledBytes bindings policy bytes ≠ bytes := by
  rw [filledBytes_of_fate h]
  rcases fate_cases h with ⟨-, rfl⟩ | ⟨text, result, htext, -, rfl⟩
  · constructor
    · rintro ⟨text, heq⟩
      cases heq
    · intro hne
      exact absurd rfl hne
  · by_cases heq : result = text
    · rw [if_pos heq]
      constructor
      · rintro ⟨text, heq⟩
        cases heq
      · intro hne
        exact absurd rfl hne
    · rw [if_neg heq]
      constructor
      · intro _ hbytes
        rw [← toUTF8_of_textOf? htext] at hbytes
        exact heq (String.toByteArray_inj.1 hbytes)
      · intro _
        exact ⟨result, rfl⟩

/-! ## Planning -/

namespace Plan

/-- The plan with one more file. -/
def put (plan : Plan) (k : Location) : Fate → Plan
  | .skipped => { plan with skipped := plan.skipped ++ [k] }
  | .unchanged => { plan with unchanged := plan.unchanged ++ [k] }
  | .filled text => { plan with filled := plan.filled ++ [⟨k, text⟩] }

/-- The plan has this fate for the file. -/
def Has (plan : Plan) (k : Location) : Fate → Prop
  | .skipped => k ∈ plan.skipped
  | .unchanged => k ∈ plan.unchanged
  | .filled text => ⟨k, text⟩ ∈ plan.filled

/-- All files of the plan. -/
def files (plan : Plan) : List Location :=
  plan.filled.map (·.file) ++ plan.unchanged ++ plan.skipped

theorem has_put {plan : Plan} {k j : Location} {f g : Fate} :
    (plan.put k f).Has j g ↔ plan.Has j g ∨ (j = k ∧ g = f) := by
  cases f <;> cases g <;> simp [put, Has]

theorem files_put (plan : Plan) (k : Location) (f : Fate) :
    (plan.put k f).files.Perm (k :: plan.files) := by
  rw [List.perm_iff_count]
  intro a
  cases f <;>
    simp only [put, files, List.count_append, List.count_cons, List.map_append, List.map_cons,
      List.map_nil, List.count_nil] <;> omega

end Plan

/-- The place of a file that a step visits. -/
def Step.file? : Step → Option Location
  | .visit v => if v.kind = .file then some v.below else none
  | .failed _ _ => none

variable {fs : FileSystem} {root : Path} {steps : List Step} {s : Step} {plan : Plan} {w : World}
  {e : Failure}

/-- What a step comes to: the fate of a file, nothing, or a failure. -/
def Step.outcome (fs : FileSystem) (root : Path) (bindings : Bindings) (policy : Policy) :
    Step → Except Failure (Option (Location × Fate))
  | .failed _ e => .error (.system ("walking " ++ root.toString) e)
  | .visit v =>
    if v.kind = .file then
      match fs.read v.path with
      | .error e => .error (.system ("reading " ++ v.path.toString) e)
      | .ok bytes =>
        match fate bindings policy bytes with
        | .error name => .error (.unresolved v.path name)
        | .ok f => .ok (some (v.below, f))
    else .ok none

/-- The fates of all files among the steps, or the failure of the first step that has one. -/
def fates (fs : FileSystem) (root : Path) (bindings : Bindings) (policy : Policy) :
    List Step → Except Failure (List (Location × Fate))
  | [] => .ok []
  | s :: steps => do
    let first ← s.outcome fs root bindings policy
    let rest ← fates fs root bindings policy steps
    return first.toList ++ rest

theorem fates_eq_ok {xs : List (Location × Fate)}
    (h : fates fs root bindings policy steps = .ok xs) :
    (∀ s ∈ steps, ∃ x, s.outcome fs root bindings policy = .ok x) ∧
      xs = steps.filterMap fun s => (s.outcome fs root bindings policy).toOption.join := by
  induction steps generalizing xs with
  | nil =>
    obtain rfl : [] = xs := Except.ok.inj h
    simp
  | cons s steps ih =>
    rw [fates] at h
    cases hs : s.outcome fs root bindings policy with
    | error e => simp [hs, bind, Except.bind] at h
    | ok first =>
      cases hrest : fates fs root bindings policy steps with
      | error e => simp [hs, hrest, bind, Except.bind] at h
      | ok rest =>
        simp only [hs, hrest, bind, Except.bind, pure, Except.pure, Except.ok.injEq] at h
        obtain ⟨hall, hmap⟩ := ih hrest
        refine ⟨List.forall_mem_cons.2 ⟨⟨first, hs⟩, hall⟩, ?_⟩
        rw [← h, List.filterMap_cons, hs, ← hmap]
        cases first <;> rfl

theorem mem_of_fates {xs : List (Location × Fate)}
    (h : fates fs root bindings policy steps = .ok xs) (x : Location × Fate) :
    x ∈ xs ↔ ∃ s ∈ steps, s.outcome fs root bindings policy = .ok (some x) := by
  rw [(fates_eq_ok h).2, List.mem_filterMap]
  refine exists_congr fun s => and_congr_right fun _ => ?_
  cases s.outcome fs root bindings policy with
  | error e => simp [Except.toOption]
  | ok first => simp [Except.toOption]

theorem file?_of_outcome {x : Option (Location × Fate)}
    (h : s.outcome fs root bindings policy = .ok x) : x.map (·.1) = s.file? := by
  cases s with
  | failed p e => simp [Step.outcome] at h
  | visit v =>
    simp only [Step.outcome, Step.file?] at h ⊢
    split at h
    · rename_i hv
      rw [if_pos hv]
      split at h
      · simp at h
      · split at h
        · simp at h
        · rw [← Except.ok.inj h]
          rfl
    · rename_i hv
      rw [if_neg hv, ← Except.ok.inj h]
      rfl

/-- Every file among the steps has one fate, in the order of the steps. -/
theorem files_of_fates {xs : List (Location × Fate)}
    (h : fates fs root bindings policy steps = .ok xs) :
    xs.map (·.1) = steps.filterMap Step.file? := by
  obtain ⟨hall, rfl⟩ := fates_eq_ok h
  rw [List.map_filterMap]
  refine List.filterMap_congr fun s hs => ?_
  obtain ⟨x, hx⟩ := hall s hs
  rw [hx, ← file?_of_outcome hx]
  rfl

theorem fates_of_ok {before behind : List Step}
    (h : ∀ s ∈ before, ∃ x, s.outcome fs root bindings policy = .ok x) :
    fates fs root bindings policy (before ++ behind) = .error e ↔
      fates fs root bindings policy behind = .error e := by
  induction before with
  | nil => rfl
  | cons s before ih =>
    obtain ⟨⟨x, hx⟩, hbefore⟩ := List.forall_mem_cons.1 h
    rw [List.cons_append, fates, hx, ← ih hbefore]
    cases fates fs root bindings policy (before ++ behind) with
    | error e' => simp [bind, Except.bind]
    | ok xs => simp [bind, Except.bind, pure, Except.pure]

/-- Planning fails as the first step does that has a failure. -/
theorem exists_of_fates_error (h : fates fs root bindings policy steps = .error e) :
    ∃ before s behind, steps = before ++ s :: behind ∧
      (∀ t ∈ before, ∃ x, t.outcome fs root bindings policy = .ok x) ∧
      s.outcome fs root bindings policy = .error e := by
  induction steps with
  | nil => simp [fates] at h
  | cons s steps ih =>
    cases hs : s.outcome fs root bindings policy with
    | error x =>
      obtain rfl : x = e := by simpa [fates, hs, bind, Except.bind] using h
      exact ⟨[], s, steps, rfl, by simp, hs⟩
    | ok first =>
      have hfirst : ∀ t ∈ [s], ∃ x, t.outcome fs root bindings policy = .ok x := by
        simp [hs]
      rw [← List.singleton_append, fates_of_ok hfirst] at h
      obtain ⟨before, t, behind, rfl, hbefore, ht⟩ := ih h
      exact ⟨s :: before, t, behind, rfl, List.forall_mem_cons.2 ⟨⟨first, hs⟩, hbefore⟩, ht⟩

/-! ## The plan -/

/-- The plan with the fates of more files. -/
def Plan.putAll (plan : Plan) (xs : List (Location × Fate)) : Plan :=
  xs.foldl (fun plan x => plan.put x.1 x.2) plan

theorem Plan.putAll_append (plan : Plan) (xs ys : List (Location × Fate)) :
    plan.putAll (xs ++ ys) = (plan.putAll xs).putAll ys := List.foldl_append

theorem Plan.has_putAll {plan : Plan} {xs : List (Location × Fate)} {k : Location} {f : Fate} :
    (plan.putAll xs).Has k f ↔ plan.Has k f ∨ (k, f) ∈ xs := by
  induction xs generalizing plan with
  | nil => simp [putAll]
  | cons x xs ih =>
    obtain ⟨j, g⟩ := x
    have hcons : plan.putAll ((j, g) :: xs) = (plan.put j g).putAll xs := rfl
    rw [hcons, ih, has_put, List.mem_cons, Prod.mk.injEq, or_assoc]

theorem Plan.files_putAll (plan : Plan) (xs : List (Location × Fate)) :
    (plan.putAll xs).files.Perm (plan.files ++ xs.map (·.1)) := by
  induction xs generalizing plan with
  | nil => simp [putAll]
  | cons x xs ih =>
    obtain ⟨k, f⟩ := x
    have hput := ((plan.files_put k f).append_right (xs.map (·.1))).trans List.perm_middle.symm
    exact (ih (plan.put k f)).trans hput

theorem addFile_ends {v : Visit} (hv : v.kind = .file) :
    Ends (plan.addFile bindings policy v) w
      (fun plan' w' => w'.files = w.files ∧
        ∃ x, Step.outcome w.files root bindings policy (.visit v) = .ok x ∧
          plan' = plan.putAll x.toList)
      fun e w' => w'.files = w.files ∧
        Step.outcome w.files root bindings policy (.visit v) = .error e := by
  rw [Plan.addFile, ends_bind, readText, ends_bind, ends_look, Step.outcome, if_pos hv]
  cases hread : w.files.read v.path with
  | error e => exact ⟨rfl, rfl⟩
  | ok b =>
    simp only [ends_pure]
    cases htext : textOf? b with
    | none =>
      simp only [ends_bind, ends_emit, ends_pure, fate, htext]
      exact ⟨trivial, _, rfl, rfl⟩
    | some text =>
      cases hresult : substitute text bindings policy with
      | error name =>
        simp only [ends_throw, fate, htext, hresult]
        exact ⟨trivial, trivial⟩
      | ok result =>
        by_cases heq : result = text
        · simp only [ends_pure, fate, htext, hresult, if_pos heq]
          exact ⟨trivial, _, rfl, rfl⟩
        · simp only [ends_bind, ends_emit, ends_pure, fate, htext, hresult, if_neg heq]
          exact ⟨trivial, _, rfl, rfl⟩

theorem addStep_ends :
    Ends (plan.addStep root bindings policy s) w
      (fun plan' w' => w'.files = w.files ∧
        ∃ x, s.outcome w.files root bindings policy = .ok x ∧ plan' = plan.putAll x.toList)
      fun e w' => w'.files = w.files ∧ s.outcome w.files root bindings policy = .error e := by
  cases s with
  | failed p e => exact ⟨rfl, rfl⟩
  | visit v =>
    rw [Plan.addStep]
    by_cases hv : v.kind = .file
    · simp only [if_pos hv]
      exact addFile_ends hv
    · simp only [if_neg hv, ends_pure]
      exact ⟨trivial, none, by rw [Step.outcome, if_neg hv], rfl⟩

theorem foldlM_addStep_ends :
    Ends (steps.foldlM (Plan.addStep root bindings policy) plan) w
      (fun plan' w' => w'.files = w.files ∧
        ∃ xs, fates w.files root bindings policy steps = .ok xs ∧ plan' = plan.putAll xs)
      fun e w' => w'.files = w.files ∧ fates w.files root bindings policy steps = .error e := by
  induction steps generalizing plan w with
  | nil =>
    rw [List.foldlM_nil, ends_pure]
    exact ⟨rfl, [], rfl, rfl⟩
  | cons s steps ih =>
    rw [List.foldlM_cons, ends_bind]
    refine addStep_ends.imp ?_ ?_
    · rintro plan' w' ⟨hfiles, x, hx, rfl⟩
      refine ih.imp ?_ ?_
      · rintro plan'' w'' ⟨hfiles', xs, hxs, rfl⟩
        rw [hfiles] at hfiles' hxs
        refine ⟨hfiles', x.toList ++ xs, ?_, (plan.putAll_append _ _).symm⟩
        simp [fates, hx, hxs, bind, Except.bind, pure, Except.pure]
      · rintro e w'' ⟨hfiles', he⟩
        rw [hfiles] at hfiles' he
        exact ⟨hfiles', by simp [fates, hx, he, bind, Except.bind]⟩
    · rintro e w' ⟨hfiles, he⟩
      exact ⟨hfiles, by simp [fates, he, bind, Except.bind]⟩

/-- Planning decides one file after the other, and writes nothing. -/
theorem planFilling_ends :
    Ends (planFilling root bindings policy) w
      (fun plan w' => w'.files = w.files ∧
        ∃ xs, fates w.files root bindings policy (w.files.walk false root) = .ok xs ∧
          plan = Plan.empty.putAll xs)
      fun e w' => w'.files = w.files ∧
        fates w.files root bindings policy (w.files.walk false root) = .error e := by
  rw [planFilling, ends_bind, ends_get]
  exact foldlM_addStep_ends

/-- Nothing can be planned below a root that leads nowhere. -/
theorem exists_status_of_plan {w' : World} (hrun : planFilling root bindings policy w = .ok plan w') :
    ∃ e, w.files.status root = .ok e := by
  obtain ⟨-, xs, hxs, -⟩ := planFilling_ends.of_ok hrun
  cases hstatus : w.files.status root with
  | ok e => exact ⟨e, rfl⟩
  | error x =>
    rw [FileSystem.walk, hstatus] at hxs
    simp [fates, Step.outcome, bind, Except.bind] at hxs

end Stencil
