import Mathlib.Data.List.Nodup
import Stencil.FileSystem.Walk
import Stencil.Proofs.NewDirectory

/-!
What a walk meets, without the bound on its depth.

`Opens` says which directories a walk goes into and `Meets` which steps it takes there. Main
statements: these are the steps of the walk (`mem_walk_iff`), for the path of a directory is too
long to be listed before the bound is reached, and no place is visited twice (`nodup_walk`).
-/

namespace Stencil

/-- The path that a step is about. -/
def Step.path : Step → Path
  | .visit v => v.path
  | .failed p _ => p

/-- The place that a step visits. -/
def Step.below? : Step → Option Location
  | .visit v => some v.below
  | .failed _ _ => none

theorem mem_below? {steps : List Step} {k : Location} :
    k ∈ steps.filterMap Step.below? ↔ ∃ v, .visit v ∈ steps ∧ v.below = k := by
  rw [List.mem_filterMap]
  constructor
  · rintro ⟨s, hs, hk⟩
    cases s with
    | visit v => exact ⟨v, hs, Option.some.inj hk⟩
    | failed p e => simp [Step.below?] at hk
  · rintro ⟨v, hv, rfl⟩
    exact ⟨_, hv, rfl⟩

namespace FileSystem

variable {fs : FileSystem} {follow : Bool}

/-- The steps at the entry `n` of the directory at `d`, and below it. -/
def entrySteps (fs : FileSystem) (follow : Bool) (depth : Nat) (inside : List Location)
    (d : Location) (dir : Path) (below : Location) (n : Name) : List Step :=
  match fs.meet follow (d :: inside) d n (dir.join n) with
  | .error e => [.failed (dir.join n) e]
  | .ok .directory =>
    .visit ⟨n :: below, dir.join n, .directory⟩ ::
      fs.stepsIn follow depth (d :: inside) (dir.join n) (n :: below)
  | .ok kind => [.visit ⟨n :: below, dir.join n, kind⟩]

theorem stepsIn_succ (fs : FileSystem) (follow : Bool) (depth : Nat) (inside : List Location)
    (dir : Path) (below : Location) :
    fs.stepsIn follow (depth + 1) inside dir below =
      match fs.list dir with
      | .error e => [.failed dir e]
      | .ok (d, names) => names.flatMap (fs.entrySteps follow depth inside d dir below) := rfl

/-! ## Listings -/

theorem locate_of_check {p : Path} {e : SystemError} (h : p.check = .error e) :
    fs.locate p = .error e := by
  simp [locate, resolve, h, bind, Except.bind]

theorem list_of_check {p : Path} {e : SystemError} (h : p.check = .error e) :
    fs.list p = .error e := by
  simp [list, locate_of_check h, bind, Except.bind]

theorem list_eq_ok_iff {p : Path} {l : Location} {names : List Name} :
    fs.list p = .ok (l, names) ↔
      fs.locate p = .ok l ∧ (fs.entryAt l).isDirectory ∧ names = fs.names l := by
  rw [list]
  cases hl : fs.locate p with
  | error e => simp [bind, Except.bind]
  | ok k =>
    simp only [bind, Except.bind, pure, Except.pure]
    split
    · rename_i hd
      simp only [Except.ok.injEq, Prod.mk.injEq]
      constructor
      · rintro ⟨rfl, rfl⟩
        exact ⟨rfl, hd, rfl⟩
      · rintro ⟨rfl, -, rfl⟩
        exact ⟨rfl, rfl⟩
    · rename_i hd
      simp only [throw, throwThe, MonadExceptOf.throw, reduceCtorEq, Except.ok.injEq, false_iff]
      rintro ⟨rfl, hd', -⟩
      exact hd hd'

theorem check_of_list {p : Path} {x : Location × List Name} (h : fs.list p = .ok x) :
    p.check = .ok () := by
  cases hc : p.check with
  | ok u => rfl
  | error e => simp [list_of_check hc] at h

/-- What is listed is there, in a directory. -/
theorem get?_of_list (hwf : fs.WellFormed) {p : Path} {l : Location} {names : List Name} {n : Name}
    (h : fs.list p = .ok (l, names)) (hn : n ∈ names) :
    (fs.get? (n :: l)).isSome ∧ fs.get? l = some .directory ∧ LegalName n := by
  obtain ⟨-, -, rfl⟩ := list_eq_ok_iff.1 h
  have hs := (mem_names fs l n).1 hn
  exact ⟨hs, hwf.parent hs, hwf.legal hs⟩

/-! ## The steps without the bound -/

/-- The walk goes into the directory that `dir` names, at the place `below`, from within the
directories `inside`. -/
inductive Opens (fs : FileSystem) (follow : Bool) (root : Path) :
    List Location → Path → Location → Prop
  | root : fs.status root = .ok .directory → Opens fs follow root [] root []
  | child {inside dir below d names n} : Opens fs follow root inside dir below →
      fs.list dir = .ok (d, names) → n ∈ names →
      fs.meet follow (d :: inside) d n (dir.join n) = .ok .directory →
      Opens fs follow root (d :: inside) (dir.join n) (n :: below)

/-- The walk takes the step. -/
inductive Meets (fs : FileSystem) (follow : Bool) (root : Path) : Step → Prop
  | unlisted {inside dir below e} : Opens fs follow root inside dir below →
      fs.list dir = .error e → Meets fs follow root (.failed dir e)
  | refused {inside dir below d names n e} : Opens fs follow root inside dir below →
      fs.list dir = .ok (d, names) → n ∈ names →
      fs.meet follow (d :: inside) d n (dir.join n) = .error e →
      Meets fs follow root (.failed (dir.join n) e)
  | visited {inside dir below d names n kind} : Opens fs follow root inside dir below →
      fs.list dir = .ok (d, names) → n ∈ names →
      fs.meet follow (d :: inside) d n (dir.join n) = .ok kind →
      Meets fs follow root (.visit ⟨n :: below, dir.join n, kind⟩)

/-- As long as the bound is not reached before the path is too long, it does not count. -/
def DeepEnough (dir : Path) (depth : Nat) : Prop := dir.NulFree ∧ maxPathSize < dir.size + depth

theorem DeepEnough.pos {dir : Path} {depth : Nat} (h : DeepEnough dir depth)
    (hc : dir.check = .ok ()) : 0 < depth := by
  have hlong := (Path.check_eq_ok_iff.1 hc).2.2
  have := h.2
  omega

theorem DeepEnough.join {dir : Path} {depth : Nat} {n : Name} (h : DeepEnough dir (depth + 1))
    (hn : LegalName n) : DeepEnough (dir.join n) depth := by
  have hlt := Path.size_lt_size_join dir hn.ne_empty
  have := h.2
  exact ⟨Path.nulFree_join h.1 hn.nul_free, by omega⟩

theorem stepsIn_eq {dir : Path} {depth : Nat} (h : DeepEnough dir depth)
    (inside : List Location) (below : Location) :
    fs.stepsIn follow depth inside dir below =
      match fs.list dir with
      | .error e => [.failed dir e]
      | .ok (d, names) => names.flatMap (fs.entrySteps follow (depth - 1) inside d dir below) := by
  cases depth with
  | succ depth => rfl
  | zero =>
    have hsize := h.2
    have hc : dir.check = .error .nameTooLong := by
      have hnul : (dir.toString.toList.contains '\x00') = false := by
        simpa [Path.NulFree] using h.1
      rw [Path.check, hnul, if_neg (by simp), if_neg (by omega), if_pos (by omega)]
    rw [list_of_check hc, stepsIn]

theorem check_of_status {p : Path} {e : Entry} (h : fs.status p = .ok e) : p.check = .ok () := by
  cases hc : p.check with
  | ok u => rfl
  | error e => simp [status, locate_of_check hc, Except.map] at h

theorem walk_eq (follow : Bool) {root : Path} (h : fs.status root = .ok .directory) :
    DeepEnough root maxDepth ∧
      fs.walk follow root = fs.stepsIn follow maxDepth [] root [] := by
  have hc := check_of_status h
  refine ⟨⟨(Path.check_eq_ok_iff.1 hc).1, ?_⟩, by rw [walk, h]⟩
  rw [maxDepth]
  omega

section Members

variable (hwf : fs.WellFormed) {root : Path}

include hwf

theorem meets_of_mem {depth : Nat} {inside : List Location} {dir : Path} {below : Location}
    {s : Step} (hd : DeepEnough dir depth) (ho : fs.Opens follow root inside dir below)
    (hs : s ∈ fs.stepsIn follow depth inside dir below) : fs.Meets follow root s := by
  induction depth generalizing inside dir below with
  | zero =>
    rw [stepsIn_eq hd] at hs
    cases hl : fs.list dir with
    | error e =>
      rw [hl] at hs
      obtain rfl := List.mem_singleton.1 hs
      exact .unlisted ho hl
    | ok x => exact absurd (hd.pos (check_of_list hl)) (by omega)
  | succ depth ih =>
    rw [stepsIn_eq hd] at hs
    cases hl : fs.list dir with
    | error e =>
      rw [hl] at hs
      obtain rfl := List.mem_singleton.1 hs
      exact .unlisted ho hl
    | ok x =>
      obtain ⟨d, names⟩ := x
      rw [hl] at hs
      obtain ⟨n, hn, hs⟩ := List.mem_flatMap.1 hs
      rw [entrySteps] at hs
      split at hs
      · rename_i e hm
        obtain rfl := List.mem_singleton.1 hs
        exact .refused ho hl hn hm
      · rename_i hm
        rcases List.mem_cons.1 hs with rfl | hs
        · exact .visited ho hl hn hm
        · exact ih (hd.join (get?_of_list hwf hl hn).2.2) (.child ho hl hn hm) hs
      · rename_i kind _ hm
        obtain rfl := List.mem_singleton.1 hs
        exact .visited ho hl hn hm

/-- The steps in a directory that the walk goes into are steps of the walk. -/
theorem Opens.stepsIn_subset {inside : List Location} {dir : Path} {below : Location}
    (h : fs.Opens follow root inside dir below) :
    ∃ depth, DeepEnough dir depth ∧
      ∀ s ∈ fs.stepsIn follow depth inside dir below, s ∈ fs.walk follow root := by
  induction h with
  | root h =>
    obtain ⟨hd, hwalk⟩ := walk_eq follow h
    exact ⟨maxDepth, hd, fun s hs => hwalk ▸ hs⟩
  | @child inside dir below d names n _ hl hn hm ih =>
    obtain ⟨depth, hd, hsub⟩ := ih
    have hpos := hd.pos (check_of_list hl)
    obtain ⟨depth, rfl⟩ : ∃ k, depth = k + 1 := ⟨depth - 1, by omega⟩
    refine ⟨depth, hd.join (get?_of_list hwf hl hn).2.2, fun s hs => hsub s ?_⟩
    rw [stepsIn_succ, hl]
    refine List.mem_flatMap.2 ⟨n, hn, ?_⟩
    rw [entrySteps, hm]
    exact List.mem_cons_of_mem _ hs

theorem mem_walk_iff (hroot : fs.status root = .ok .directory) {s : Step} :
    s ∈ fs.walk follow root ↔ fs.Meets follow root s := by
  constructor
  · intro hs
    obtain ⟨hd, hwalk⟩ := walk_eq follow hroot
    exact meets_of_mem hwf hd (.root hroot) (hwalk ▸ hs)
  · intro hs
    cases hs with
    | unlisted ho hl =>
      obtain ⟨depth, hd, hsub⟩ := ho.stepsIn_subset hwf
      refine hsub _ ?_
      rw [stepsIn_eq hd, hl]
      simp
    | refused ho hl hn hm =>
      obtain ⟨depth, hd, hsub⟩ := ho.stepsIn_subset hwf
      refine hsub _ ?_
      rw [stepsIn_eq hd, hl]
      refine List.mem_flatMap.2 ⟨_, hn, ?_⟩
      rw [entrySteps, hm]
      simp
    | @visited inside dir below d names n kind ho hl hn hm =>
      obtain ⟨depth, hd, hsub⟩ := ho.stepsIn_subset hwf
      refine hsub _ ?_
      rw [stepsIn_eq hd, hl]
      refine List.mem_flatMap.2 ⟨_, hn, ?_⟩
      rw [entrySteps, hm]
      cases kind <;> simp

end Members

/-! ## Places and paths -/

theorem suffix_of_mem_stepsIn {depth : Nat} {inside : List Location} {dir : Path}
    {below : Location} {v : Visit} (h : .visit v ∈ fs.stepsIn follow depth inside dir below) :
    ∃ n, (n :: below) <:+ v.below := by
  induction depth generalizing inside dir below with
  | zero => simp [stepsIn] at h
  | succ depth ih =>
    rw [stepsIn_succ] at h
    split at h
    · simp at h
    · obtain ⟨n, -, hmem⟩ := List.mem_flatMap.1 h
      refine ⟨n, ?_⟩
      rw [entrySteps] at hmem
      split at hmem
      · simp at hmem
      · rcases List.mem_cons.1 hmem with heq | hmem
        · obtain rfl := Step.visit.inj heq
          exact List.suffix_refl _
        · obtain ⟨m, hm⟩ := ih hmem
          exact (List.suffix_cons m _).trans hm
      · obtain rfl := Step.visit.inj (List.mem_singleton.1 hmem)
        exact List.suffix_refl _

theorem suffix_of_mem_entrySteps {depth : Nat} {inside : List Location} {d : Location}
    {dir : Path} {below : Location} {n : Name} {v : Visit}
    (h : .visit v ∈ fs.entrySteps follow depth inside d dir below n) :
    (n :: below) <:+ v.below := by
  rw [entrySteps] at h
  split at h
  · simp at h
  · rcases List.mem_cons.1 h with heq | hmem
    · obtain rfl := Step.visit.inj heq
      exact List.suffix_refl _
    · obtain ⟨m, hm⟩ := suffix_of_mem_stepsIn hmem
      exact (List.suffix_cons m _).trans hm
  · obtain rfl := Step.visit.inj (List.mem_singleton.1 h)
    exact List.suffix_refl _

/-- No place is visited twice. -/
theorem nodup_stepsIn (fs : FileSystem) (follow : Bool) (depth : Nat) (inside : List Location)
    (dir : Path) (below : Location) :
    ((fs.stepsIn follow depth inside dir below).filterMap Step.below?).Nodup := by
  induction depth generalizing inside dir below with
  | zero => exact List.nodup_nil
  | succ depth ih =>
    rw [stepsIn_succ]
    split
    · exact List.nodup_nil
    · rename_i d names hlist
      rw [List.filterMap_flatMap, List.nodup_flatMap]
      constructor
      · intro n hn
        rw [entrySteps]
        split
        · exact List.nodup_nil
        · refine List.nodup_cons.2 ⟨fun hmem => ?_, ih _ _ _⟩
          obtain ⟨v, hv, hbelow⟩ := mem_below?.1 hmem
          obtain ⟨m, hm⟩ := suffix_of_mem_stepsIn hv
          have hlength := hm.length_le
          simp only [hbelow, List.length_cons] at hlength
          omega
        · exact List.nodup_singleton _
      · obtain ⟨-, -, rfl⟩ := list_eq_ok_iff.1 hlist
        refine (pairwise_names fs d).imp fun {n m} hlt => ?_
        intro k hn hm
        obtain ⟨v, hv, rfl⟩ := mem_below?.1 hn
        obtain ⟨v', hv', hbelow⟩ := mem_below?.1 hm
        have hn' := suffix_of_mem_entrySteps hv
        have hm' := suffix_of_mem_entrySteps hv'
        rw [hbelow] at hm'
        have heq := (List.suffix_of_suffix_length_le hn' hm' (by simp)).eq_of_length (by simp)
        obtain ⟨rfl, -⟩ := List.cons.inj heq
        exact String.lt_irrefl n hlt

theorem nodup_walk (fs : FileSystem) (follow : Bool) (root : Path) :
    ((fs.walk follow root).filterMap Step.below?).Nodup := by
  rw [walk]
  split
  · exact List.nodup_nil
  · exact nodup_stepsIn fs follow _ _ _ _
  · exact List.nodup_nil

theorem Opens.path_eq {root : Path} {inside : List Location} {dir : Path} {below : Location}
    (h : fs.Opens follow root inside dir below) : dir = root.joinAll below := by
  induction h with
  | root => rfl
  | child _ _ _ _ ih => rw [Path.joinAll_cons, ih]

theorem Opens.legal (hwf : fs.WellFormed) {root : Path} {inside : List Location} {dir : Path}
    {below : Location} (h : fs.Opens follow root inside dir below) :
    ∀ n ∈ below, LegalName n := by
  induction h with
  | root => simp
  | child _ hl hn _ ih => exact List.forall_mem_cons.2 ⟨(get?_of_list hwf hl hn).2.2, ih⟩

theorem Meets.path_eq {root : Path} {v : Visit} (h : fs.Meets follow root (.visit v)) :
    v.path = root.joinAll v.below ∧ v.below ≠ [] := by
  cases h with
  | visited ho _ _ _ => exact ⟨by rw [Path.joinAll_cons, ho.path_eq], by simp⟩

theorem Meets.legal (hwf : fs.WellFormed) {root : Path} {v : Visit}
    (h : fs.Meets follow root (.visit v)) : ∀ n ∈ v.below, LegalName n := by
  cases h with
  | visited ho hl hn _ => exact List.forall_mem_cons.2 ⟨(get?_of_list hwf hl hn).2.2, ho.legal hwf⟩

/-! ## What an entry counts as -/

/-- What is no link counts as itself. -/
theorem meet_of_not_link {opened : List Location} {d : Location} {n : Name} {path : Path}
    {e : Entry} (h : fs.get? (n :: d) = some e) (hlink : e.isLink = false) :
    fs.meet follow opened d n path = .ok e.kind := by
  rw [meet, h]
  cases e with
  | link t => simp [Entry.isLink] at hlink
  | _ => rfl

/-! ## Walks that follow no link -/

theorem meet_false (fs : FileSystem) (inside : List Location) (d : Location) (n : Name)
    (path : Path) :
    fs.meet false inside d n path = .ok (((fs.get? (n :: d)).map Entry.kind).getD .other) := by
  rw [meet]
  cases fs.get? (n :: d) with
  | none => rfl
  | some e => cases e <;> rfl

theorem kind_eq_directory {e : Entry} : e.kind = .directory ↔ e = .directory := by
  cases e <;> simp [Entry.kind]

end FileSystem

end Stencil
