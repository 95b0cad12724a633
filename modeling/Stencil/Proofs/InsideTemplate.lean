import Stencil.Proofs.Availability
import Stencil.Proofs.Transplanting

/-!
A project in its own template.

The walk lists a directory of the template when it comes to it, and by then the copy may have grown
there. Where the project is made below a directory of the template, there always is one more
directory to copy, and the copying goes on until a path is too long (`copyTemplate_endless`). Where
it is made in the directory of the template itself, its directory is copied as an entry of the
template, with what had been put there before its turn (`copyTemplate_folds`). Main statement:
nothing else can happen (`materialize_inside`).
-/

namespace Stencil

open FileSystem Run

/-! ## Below a directory of the template -/

/-- Between a place and one further down there is a next one. -/
theorem exists_cons_suffix {k j : Location} (h : k <:+ j) (hlt : k.length < j.length) :
    ∃ m, m :: k <:+ j := by
  obtain ⟨r, rfl⟩ := h
  rcases List.eq_nil_or_concat r with rfl | ⟨r, m, rfl⟩
  · simp at hlt
  · exact ⟨m, r, by simp⟩

/-- All that is above a directory is one. -/
theorem directory_of_suffix {gs : FileSystem} (hwf : gs.WellFormed) {k j t : Location}
    (h : k <:+ j) (hj : gs.get? (j ++ t) = some .directory) :
    gs.get? (k ++ t) = some .directory := by
  obtain ⟨r, rfl⟩ := h
  rw [List.append_assoc] at hj
  by_cases hr : r = []
  · subst hr
    exact hj
  · exact hwf.directory_above hr (Option.isSome_of_eq_some hj)

section Endless

variable {fs : FileSystem} {template dest : Path} {t u : Location}

/-- The entries of a directory are not copied to the end if one of them is not. -/
theorem forM_endless {depth : Nat} {inside : List Location} {d r : Location} {dir : Path}
    {names : List Name} {x : Name} {w : World} (hnames : ∀ m ∈ names, LegalName m)
    (hx : x ∈ names) (hg : fs.Grown dest (u ++ t) w.files)
    (hdir : w.files.get? (r ++ (u ++ t)) = some .directory)
    (h : ∀ w : World, fs.Grown dest (u ++ t) w.files →
      w.files.get? (r ++ (u ++ t)) = some .directory →
      Ends (copyEntry dest depth inside d dir r x) w (fun _ _ => False) fun _ _ => True) :
    Ends (names.forM (copyEntry dest depth inside d dir r)) w (fun _ _ => False)
      fun _ _ => True := by
  refine ends_forM_of_mem (I := fun w' => fs.Grown dest (u ++ t) w'.files ∧
    w'.files.get? (r ++ (u ++ t)) = some .directory) hx ?_ ?_ ⟨hg, hdir⟩
  · rintro m hm w₁ ⟨hg₁, hdir₁⟩
    refine (copyEntry_later hg₁ hdir₁ (hnames m hm)).imp (fun _ w₂ h₂ => ?_) fun _ _ _ => trivial
    exact ⟨h₂.grown, h₂.directories hdir₁⟩
  · rintro w₁ ⟨hg₁, hdir₁⟩
    exact h w₁ hg₁ hdir₁

/-- The walk is on its way to the copy of the directory that it is in, and the copy of the next
directory is further down. -/
theorem copyEntry_endless (hT : fs.Rooted template t) (hu : 1 < u.length) {depth : Nat}
    {inside : List Location} {r : Location} {x : Name} {w : World} (hway : x :: r <:+ r ++ u)
    (hg : fs.Grown dest (u ++ t) w.files)
    (hdir : w.files.get? (r ++ (u ++ t)) = some .directory) :
    Ends (copyEntry dest depth inside (r ++ t) (template.joinAll r) r x) w (fun _ _ => False)
      fun _ _ => True := by
  induction depth generalizing inside r x w with
  | zero => trivial
  | succ depth ih =>
    have habove : ∀ {k}, k <:+ r ++ u → w.files.get? (k ++ t) = some .directory := fun hk =>
      directory_of_suffix hg.wellFormed hk (by rw [List.append_assoc, hdir])
    have he : w.files.get? (x :: (r ++ t)) = some .directory := habove hway
    have hx := hg.wellFormed.legal (Option.isSome_of_eq_some he)
    rw [copyEntry, ends_bind, ends_look, meet_of_not_link he rfl]
    simp only [Entry.kind, ends_bind, ends_get]
    refine (createDirectories_later hg hdir hx _).imp (fun _ w₁ h₁ => ?_) fun _ _ _ => trivial
    obtain ⟨hlater, hmade⟩ := h₁
    rw [ends_look]
    cases hlist : w.files.list ((template.joinAll r).join x) with
    | error e => trivial
    | ok listing =>
      obtain ⟨d, names⟩ := listing
      obtain ⟨-, rfl, rfl⟩ := (hg.rooted_template hT).listed_below (r := x :: r) he hlist
      -- the next directory was there when this one was listed: it is above the copy to be made
      obtain ⟨y, hy⟩ := exists_cons_suffix hway (by simpa using hu)
      have hmem : y ∈ w.files.names (x :: (r ++ t)) :=
        (mem_names _ _ _).2 (Option.isSome_of_eq_some (habove hy))
      refine forM_endless (r := x :: r) (fun m hm => ?_) hmem hlater.grown hmade ?_
      · exact hg.wellFormed.legal ((mem_names _ _ _).1 hm)
      · intro w₂ hg₂ hdir₂
        exact ih (hy.trans (List.suffix_cons x _)) hg₂ hdir₂

theorem copyTemplate_endless (hT : fs.Rooted template t) (hu : 1 < u.length)
    (hsite : fs.site? dest = some (u ++ t)) {w : World}
    (hw : w.files = fs.set (u ++ t) .directory) :
    Ends (copyTemplate template dest) w (fun _ _ => False) fun _ _ => True := by
  have hg : fs.Grown dest (u ++ t) w.files := hw ▸ grown_created hT.wellFormed hsite
  have hroot := hg.rooted_template hT
  rw [copyTemplate, ends_bind, ends_look, hroot.list_root]
  obtain ⟨x, hx⟩ := exists_cons_suffix (List.nil_suffix (l := u)) (Nat.zero_lt_of_lt hu)
  have hmem : x ∈ w.files.names t :=
    (mem_names _ _ _).2 (Option.isSome_of_eq_some (directory_of_suffix hg.wellFormed hx hg.root))
  refine forM_endless (r := []) (fun m hm => ?_) hmem hg hg.root ?_
  · exact hg.wellFormed.legal ((mem_names _ _ _).1 hm)
  · intro w₁ hg₁ hdir₁
    exact copyEntry_endless hT hu (r := []) hx hg₁ hdir₁

end Endless

/-! ## In the directory of the template -/

/-- What the walk through the template at `t` comes to, while the project `n` is made in it. -/
inductive FileSystem.Found (fs : FileSystem) (t : Location) (n : Name) : Location → Entry → Prop
  | entry {k e} : k ≠ [] → fs.get? (k ++ t) = some e → Found fs t n k e
  | project : Found fs t n [n] .directory
  /-- The copies that are there when the walk comes to the project. -/
  | copy {k m e} : m < n → fs.get? (k ++ m :: t) = some e → Found fs t n (k ++ [m, n]) e

/-- The files are those of `fs`, with the project `n` in the template at `t`, which holds all that
the walk comes to. -/
structure FoldedIn (fs : FileSystem) (t : Location) (n : Name) (gs : FileSystem) : Prop where
  same : SameOff (n :: t) fs gs
  root : gs.get? (n :: t) = some .directory
  tree : ∀ {k e}, k ≠ [] → (gs.get? (k ++ n :: t) = some e ↔ fs.Found t n k e)

/-- All that the walk comes to can be copied. -/
def AllFitting (fs : FileSystem) (template dest : Path) (t : Location) (n : Name) : Prop :=
  ∀ k e, fs.Found t n k e → Fitting template dest k e

/-- All that the walk comes to at the name `m` of the template, and below, can be copied. -/
def FittingAt (fs : FileSystem) (template dest : Path) (t : Location) (n m : Name) : Prop :=
  ∀ k e, fs.Found t n (k ++ [m]) e → Fitting template dest (k ++ [m]) e

section Found

variable {fs : FileSystem} {t : Location} {n : Name}

theorem FileSystem.Found.ne_nil {k : Location} {e : Entry} (h : fs.Found t n k e) : k ≠ [] := by
  cases h with
  | entry hk _ => exact hk
  | project => simp
  | copy _ _ => simp

theorem found_of_ne {m : Name} (hm : m ≠ n) {k : Location} {e : Entry} :
    fs.Found t n (k ++ [m]) e ↔ fs.get? (k ++ m :: t) = some e := by
  constructor
  · generalize hq : k ++ [m] = q
    rintro (⟨-, he⟩ | - | ⟨hlt, he⟩)
    · simpa [← hq] using he
    · exact absurd (by simpa using congrArg List.getLast? hq) hm
    · exact absurd (by simpa using congrArg List.getLast? hq) hm
  · intro he
    exact .entry (by simp) (by simpa using he)

theorem found_project (hwf : fs.WellFormed) (hnone : fs.get? (n :: t) = none) {k : Location}
    {e : Entry} :
    fs.Found t n (k ++ [n]) e ↔ (k = [] ∧ e = .directory) ∨
      ∃ r m, k = r ++ [m] ∧ m < n ∧ fs.get? (r ++ m :: t) = some e := by
  constructor
  · generalize hq : k ++ [n] = q
    rintro (⟨-, he⟩ | - | @⟨r, m, _, hlt, he⟩)
    · rw [← hq, List.append_assoc] at he
      have := hwf.get?_of_absent hnone (List.suffix_append k (n :: t))
      simp [this] at he
    · exact .inl ⟨by simpa using hq, rfl⟩
    · refine .inr ⟨r, m, ?_, hlt, he⟩
      exact List.append_cancel_right (show k ++ [n] = (r ++ [m]) ++ [n] by simpa using hq)
  · rintro (⟨rfl, rfl⟩ | ⟨r, m, rfl, hlt, he⟩)
    · exact .project
    · rw [List.append_assoc]
      exact .copy hlt he

/-- What stands beside the project is as it was. -/
theorem get?_beside {gs : FileSystem} (h : SameOff (n :: t) fs gs) {m : Name} (hm : m ≠ n)
    (k : Location) : gs.get? (k ++ m :: t) = fs.get? (k ++ m :: t) :=
  h.outside fun hsuf => hm (eq_of_cons_suffix hsuf).symm

theorem get?_in_project (hwf : fs.WellFormed) (hnone : fs.get? (n :: t) = none) (k : Location)
    (m : Name) : (fs.set (n :: t) .directory).get? (k ++ m :: n :: t) = none := by
  have := get?_created_below hwf (List.cons_ne_nil n t) hnone (r := k ++ [m]) (by simp)
  rwa [List.append_assoc] at this

theorem mem_names_beside {gs : FileSystem} (h : SameOff (n :: t) fs gs) {m : Name} (hm : m ≠ n) :
    m ∈ gs.names t ↔ (fs.get? (m :: t)).isSome := by
  have hsame := get?_beside h hm []
  rw [List.nil_append] at hsame
  rw [mem_names, hsame]

end Found

section Stages

variable {fs gs₁ gs₂ gs₃ : FileSystem} {t : Location} {n : Name} {before behind : List Name}
  (hwf : fs.WellFormed) (hnone : fs.get? (n :: t) = none)
  (hnames : (fs.set (n :: t) .directory).names t = before ++ n :: behind)

include hnames

theorem lt_of_mem_before {m : Name} (hm : m ∈ before) : m < n := by
  have hsorted := (fs.set (n :: t) .directory).pairwise_names t
  rw [hnames, List.pairwise_append] at hsorted
  exact hsorted.2.2 m hm n (by simp)

theorem lt_of_mem_behind {m : Name} (hm : m ∈ behind) : n < m := by
  have hsorted := (fs.set (n :: t) .directory).pairwise_names t
  rw [hnames, List.pairwise_append, List.pairwise_cons] at hsorted
  exact hsorted.2.1.1 m hm

theorem ne_of_mem_before {m : Name} (hm : m ∈ before) : m ≠ n := fun heq =>
  String.lt_irrefl n (heq ▸ lt_of_mem_before hnames hm)

theorem ne_of_mem_behind {m : Name} (hm : m ∈ behind) : m ≠ n := fun heq =>
  String.lt_irrefl n (heq ▸ lt_of_mem_behind hnames hm)

theorem isSome_iff_mem {m : Name} (hm : m ≠ n) :
    (fs.get? (m :: t)).isSome ↔ m ∈ before ∨ m ∈ behind := by
  rw [← mem_names_beside (sameOff_created fs (List.cons_ne_nil n t)) hm, hnames]
  simp [hm]

include hwf

/-- What stands at a name of the template, or below, comes before the project or behind it. -/
theorem mem_of_entry {m : Name} (hm : m ≠ n) {k : Location} {e : Entry}
    (he : fs.get? (k ++ m :: t) = some e) : m ∈ before ∨ m ∈ behind :=
  (isSome_iff_mem hnames hm).1 (hwf.isSome_above (Option.isSome_of_eq_some he))

theorem allFitting_of_names {template dest : Path}
    (hbefore : ∀ m ∈ before, FittingAt fs template dest t n m)
    (hproject : FittingAt fs template dest t n n)
    (hbehind : ∀ m ∈ behind, FittingAt fs template dest t n m) :
    AllFitting fs template dest t n := by
  intro k e hfound
  obtain ⟨k, m, rfl⟩ := (List.eq_nil_or_concat k).resolve_left hfound.ne_nil
  rw [List.concat_eq_append] at hfound ⊢
  by_cases hm : m = n
  · subst hm
    exact hproject k e hfound
  · rcases mem_of_entry hwf hnames hm ((found_of_ne hm).1 hfound) with hm | hm
    · exact hbefore m hm k e hfound
    · exact hbehind m hm k e hfound

include hnone

/-- When the walk comes to the project, it holds the copies of what comes before it. -/
theorem found_of_before
    (h : TransplantedAll (fs.set (n :: t) .directory) t (n :: t) before gs₁)
    (hroot : gs₁.get? (n :: t) = some .directory) {k : Location} {e : Entry} :
    gs₁.get? (k ++ n :: t) = some e ↔ fs.Found t n (k ++ [n]) e := by
  rw [found_project hwf hnone]
  rcases List.eq_nil_or_concat k with rfl | ⟨k, m, rfl⟩
  · rw [List.nil_append, hroot, eq_comm]
    simp
  · have hcopy : gs₁.get? (k ++ m :: n :: t) = some e ↔
        m < n ∧ fs.get? (k ++ m :: t) = some e := by
      by_cases hm : m ∈ before
      · rw [h.copied m hm, get?_beside (sameOff_created fs (List.cons_ne_nil n t))
          (ne_of_mem_before hnames hm), and_iff_right (lt_of_mem_before hnames hm)]
      · rw [h.same_beside hm, get?_in_project hwf hnone]
        simp only [reduceCtorEq, false_iff, not_and]
        intro hlt he
        have hmn : m ≠ n := fun heq => String.lt_irrefl n (heq ▸ hlt)
        rcases mem_of_entry hwf hnames hmn he with hm' | hm'
        · exact hm hm'
        · exact String.lt_asymm hlt (lt_of_mem_behind hnames hm')
    simp [hcopy]

/-- What comes before the project, the project and what comes behind it make up the whole. -/
theorem foldedIn_of_stages (hsame : SameOff (n :: t) fs gs₃)
    (hroot : gs₃.get? (n :: t) = some .directory)
    (h₁ : TransplantedAll (fs.set (n :: t) .directory) t (n :: t) before gs₁)
    (hroot₁ : gs₁.get? (n :: t) = some .directory)
    (h₂ : Transplanted gs₁ (n :: t) (n :: n :: t) gs₂) (hsame₂ : SameOff (n :: t) fs gs₂)
    (h₃ : TransplantedAll gs₂ t (n :: t) behind gs₃) : FoldedIn fs t n gs₃ := by
  refine ⟨hsame, hroot, fun {k e} hk => ?_⟩
  obtain ⟨k, m, rfl⟩ := (List.eq_nil_or_concat k).resolve_left hk
  rw [List.concat_eq_append, List.append_assoc, List.singleton_append]
  by_cases hm : m = n
  · subst hm
    have hbehind : m ∉ behind := fun hm => ne_of_mem_behind hnames hm rfl
    rw [h₃.same_beside hbehind, h₂.copied, found_of_before hwf hnone hnames h₁ hroot₁]
  · rw [found_of_ne hm]
    by_cases hbehind : m ∈ behind
    · rw [h₃.copied m hbehind, get?_beside hsame₂ hm]
    · rw [h₃.same_beside hbehind, h₂.same_beside hm]
      by_cases hbefore : m ∈ before
      · rw [h₁.copied m hbefore, get?_beside (sameOff_created fs (List.cons_ne_nil n t)) hm]
      · rw [h₁.same_beside hbefore, get?_in_project hwf hnone]
        simp only [reduceCtorEq, false_iff]
        exact fun he => (mem_of_entry hwf hnames hm he).elim hbefore hbehind

end Stages

section Folds

variable {fs : FileSystem} {template dest : Path} {t : Location} {n : Name}
  {inside : List Location} (hT : fs.Rooted template t)
  (hfree : ∀ {r e}, fs.get? (r ++ t) = some e → e.isLink = false)

theorem clear_iff_fittingAt {gs : FileSystem} {m : Name}
    (h : ∀ {k e}, gs.get? (k ++ m :: t) = some e ↔ fs.Found t n (k ++ [m]) e) :
    Clear gs template dest t [m] ↔ FittingAt fs template dest t n m := by
  simp only [Clear, FittingAt, List.singleton_append, h]

include hT

/-- No path is deeper than the copying goes. -/
theorem deepEnough_join {m : Name} (hm : LegalName m) : DeepEnough (template.join m) maxDepth := by
  refine ⟨Path.nulFree_join (Path.check_eq_ok_iff.1 hT.check).1 hm.nul_free, ?_⟩
  rw [maxDepth]
  omega

include hfree

theorem copyEntry_folds {m : Name} {w : World} (hg : fs.Grown dest (n :: t) w.files)
    (hnone : w.files.get? (m :: n :: t) = none) (hs : (w.files.get? (m :: t)).isSome)
    (hapart : ∀ m', (w.files.get? (m' :: m :: t)).isSome → ¬ m' :: m :: t <:+ m :: n :: t) :
    Leaves (copyEntry dest maxDepth inside t template [] m) w
        (fun w' => Later fs dest (n :: t) w.files w'.files) ∧
      Transplants template dest t (n :: t) [m]
        (copyEntry dest maxDepth inside t template [] m) w := by
  have hm := hg.wellFormed.legal hs
  exact ⟨copyEntry_later hg hg.root hm,
    copyEntry_transplants (r := []) hT hfree (by simp) (deepEnough_join hT hm) hg hg.root hnone hs
      hapart⟩

/-- What stands beside the project is copied as it is. -/
theorem beside_folds {names : List Name} {w : World} (hnodup : names.Nodup)
    (hother : ∀ m ∈ names, m ≠ n) (hthere : ∀ m ∈ names, (fs.get? (m :: t)).isSome)
    (hg : fs.Grown dest (n :: t) w.files)
    (hnew : ∀ m ∈ names, w.files.get? (m :: n :: t) = none) :
    Ends (names.forM (copyEntry dest maxDepth inside t template [])) w
      (fun _ w' => Later fs dest (n :: t) w.files w'.files ∧
        TransplantedAll w.files t (n :: t) names w'.files ∧
        ∀ m ∈ names, FittingAt fs template dest t n m)
      fun _ _ => ¬ AllFitting fs template dest t n := by
  have hapart : ∀ m ∈ names, ¬ m :: t <:+ n :: t := fun m hm hsuf =>
    hother m hm (eq_of_cons_suffix (q := []) hsuf)
  have hclear : ∀ m ∈ names,
      (Clear w.files template dest t [m] ↔ FittingAt fs template dest t n m) := by
    intro m hm
    refine clear_iff_fittingAt fun {k e} => ?_
    rw [get?_beside hg.same (hother m hm), found_of_ne (hother m hm)]
  refine (forM_transplants template (r := []) (by simp) hnodup hapart ?_ hg hg.root hnew
    ?_).imp ?_ ?_
  · intro m hm w' hg' _ hnone hs
    exact copyEntry_folds hT hfree hg' hnone hs fun m' _ => not_suffix_cons (hapart m hm)
  · intro m hm
    have hsame := get?_beside hg.same (hother m hm) []
    exact (congrArg Option.isSome hsame).trans (hthere m hm)
  · rintro _ w' ⟨hlater, hall, hfits⟩
    exact ⟨hlater, hall, fun m hm => (hclear m hm).1 (hfits m hm)⟩
  · rintro e w' ⟨m, hm, hnot⟩ hfits
    exact hnot ((hclear m hm).2 fun k e => hfits _ e)

/-- The project is copied into itself with what it holds by then. It is not in itself when it is
listed. -/
theorem project_folds {before behind : List Name} {w : World} (hnone : fs.get? (n :: t) = none)
    (hnames : (fs.set (n :: t) .directory).names t = before ++ n :: behind)
    (h : TransplantedAll (fs.set (n :: t) .directory) t (n :: t) before w.files)
    (hg : fs.Grown dest (n :: t) w.files) :
    Ends (copyEntry dest maxDepth inside t template [] n) w
      (fun _ w' => Later fs dest (n :: t) w.files w'.files ∧
        Transplanted w.files (n :: t) (n :: n :: t) w'.files ∧ FittingAt fs template dest t n n)
      fun _ _ => ¬ AllFitting fs template dest t n := by
  have hn : n ∉ before := fun hm => ne_of_mem_before hnames hm rfl
  have hempty : w.files.get? (n :: n :: t) = none :=
    (h.same_beside hn []).trans (get?_in_project hT.wellFormed hnone [] n)
  have hclear : Clear w.files template dest t [n] ↔ FittingAt fs template dest t n n :=
    clear_iff_fittingAt (found_of_before hT.wellFormed hnone hnames h hg.root)
  have hapart : ∀ m, (w.files.get? (m :: n :: t)).isSome → ¬ m :: n :: t <:+ n :: n :: t := by
    intro m hs hsuf
    rw [eq_of_cons_suffix (q := []) hsuf, hempty] at hs
    simp at hs
  obtain ⟨hlater, hcopied⟩ := copyEntry_folds hT hfree hg hempty
    (Option.isSome_of_eq_some hg.root) hapart
  refine (Ends.and hlater hcopied).imp ?_ ?_
  · rintro _ w' ⟨hlater', hcopied', hclear'⟩
    exact ⟨hlater', hcopied', hclear.1 hclear'⟩
  · rintro e w' ⟨-, hnot⟩ hfits
    exact hnot (hclear.2 fun k e => hfits _ e)

/-- The project is copied as an entry of the template. -/
theorem copyTemplate_folds (hsite : fs.site? dest = some (n :: t)) {w : World}
    (hw : w.files = fs.set (n :: t) .directory) :
    Ends (copyTemplate template dest) w
      (fun _ w' => FoldedIn fs t n w'.files ∧ AllFitting fs template dest t n)
      fun _ _ => ¬ AllFitting fs template dest t n := by
  obtain ⟨-, -, hnone, -, -⟩ := site_spec hT.wellFormed hsite
  have hg : fs.Grown dest (n :: t) w.files := hw ▸ grown_created hT.wellFormed hsite
  have hn : n ∈ w.files.names t := (mem_names _ _ _).2 (Option.isSome_of_eq_some hg.root)
  -- the copies of what comes before the project are seen in it, those of what comes behind are not
  obtain ⟨before, behind, hlisted⟩ := List.append_of_mem hn
  have hnames := hw ▸ hlisted
  have hnodup := hlisted ▸ nodup_names w.files t
  have hthere : ∀ m, m ≠ n → m ∈ before ∨ m ∈ behind → (fs.get? (m :: t)).isSome :=
    fun m hmn => (isSome_iff_mem hnames hmn).2
  have hempty : ∀ m, w.files.get? (m :: n :: t) = none := fun m =>
    hw ▸ get?_in_project hT.wellFormed hnone [] m
  rw [copyTemplate, ends_bind, ends_look, (hg.rooted_template hT).list_root]
  simp only [hlisted]
  rw [ends_forM_append]
  refine (beside_folds hT hfree hnodup.of_append_left (fun m => ne_of_mem_before hnames)
    (fun m hm => hthere m (ne_of_mem_before hnames hm) (.inl hm)) hg
    fun m _ => hempty m).imp ?_ fun _ _ h => h
  rintro _ w₁ ⟨hlater₁, h₁, hfits₁⟩
  have hg₁ := hlater₁.grown
  rw [ends_forM_cons]
  refine (project_folds hT hfree hnone hnames (hw ▸ h₁) hg₁).imp ?_ fun _ _ h => h
  rintro _ w₂ ⟨hlater₂, h₂, hfits₂⟩
  refine (beside_folds hT hfree hnodup.of_append_right.of_cons (fun m => ne_of_mem_behind hnames)
    (fun m hm => hthere m (ne_of_mem_behind hnames hm) (.inr hm)) hlater₂.grown
    fun m hm => ?_).imp ?_ fun _ _ h => h
  · have hbefore : m ∉ before := fun h =>
      String.lt_asymm (lt_of_mem_before hnames h) (lt_of_mem_behind hnames hm)
    exact (h₂.same_beside (ne_of_mem_behind hnames hm) []).trans
      ((h₁.same_beside hbefore []).trans (hempty m))
  · rintro _ w₃ ⟨hlater₃, h₃, hfits₃⟩
    exact ⟨foldedIn_of_stages hT.wellFormed hnone hnames hlater₃.grown.same hlater₃.grown.root
      (hw ▸ h₁) hg₁.root h₂ hlater₂.grown.same h₃,
      allFitting_of_names hT.wellFormed hnames hfits₁ hfits₂ hfits₃⟩

end Folds

/-! ## Both cases -/

/-- The project can be made in the directory that `base` leads to, at the place `q` of the template
at `t`: its name is free there, and neither the name nor the path is too long. -/
structure Inside (fs : FileSystem) (request : Request) (template base : Path) (q t : Location) :
    Prop where
  wellFormed : fs.WellFormed
  templateAt : fs.locate template = .ok t
  baseAt : fs.locate base = .ok (q ++ t)
  directory : fs.get? (q ++ t) = some .directory
  available : fs.isAvailable base request.name
  short : (dashCase request.name).utf8ByteSize ≤ maxNameSize
  fits : (destinationOf base request.name).size ≤ maxPathSize

section Inside

variable {fs : FileSystem} {request : Request} {template base : Path} {q t : Location}

theorem Inside.rooted (h : Inside fs request template base q t) : fs.Rooted template t := by
  obtain ⟨hcheck, m, hm⟩ := leadsTo_of_locate h.templateAt
  exact ⟨h.wellFormed, ⟨m, hm⟩, hcheck,
    directory_of_suffix (t := t) h.wellFormed (List.nil_suffix (l := q)) h.directory⟩

theorem Inside.site (h : Inside fs request template base q t) :
    fs.site? (destinationOf base request.name) = some (dashCase request.name :: (q ++ t)) := by
  obtain ⟨hdash, hfree⟩ := free_of_isAvailable h.available
  obtain ⟨hname, hnul⟩ := dashCase_spec hdash
  have hmake := createDirectory_of_free h.baseAt h.directory hname hnul hfree
  rw [if_pos ⟨h.short, h.fits⟩] at hmake
  obtain ⟨l, hsite, hset⟩ := site_of_createDirectory hmake
  obtain ⟨-, hne, hnone, -, -⟩ := site_spec h.wellFormed hsite
  -- the two ways of making the directory agree on where an entry has come
  have hl : (fs.set l .directory).get? l = some .directory := by
    rw [get?_set fs hne, if_pos rfl]
  rw [← hset, get?_set fs (List.cons_ne_nil _ _)] at hl
  split at hl
  · rename_i heq
    rw [destinationOf, hsite, heq]
  · simp [hnone] at hl

end Inside

variable {w : World} {request : Request} {template base : Path} {q t : Location}

/-- A project in its own template never is the template as it stood. Below a directory of the
template the copying always fails. In the directory of the template, without links, it returns
exactly if all that the walk comes to can be copied; then the project holds, besides the template, a
directory with its own name and what comes before that. -/
theorem materialize_inside (h : Inside w.files request template base q t) :
    (q ≠ [] → ∃ e w', materialize request template base w = .error e w' ∧
      CopyFailure (destinationOf base request.name) e) ∧
    (q = [] → (∀ r e, w.files.get? (r ++ t) = some e → e.isLink = false) →
      ((∃ dest w', materialize request template base w = .ok dest w') ↔
        AllFitting w.files template (destinationOf base request.name) t
          (dashCase request.name)) ∧
      ∀ dest w', materialize request template base w = .ok dest w' →
        dest = destinationOf base request.name ∧
          FoldedIn w.files t (dashCase request.name) w'.files) := by
  have hT := h.rooted
  have hroot : w.files.isDirectory template := isDirectory_iff.2 hT.status
  refine ⟨fun hq => ?_, ?_⟩
  · have hu : 1 < (dashCase request.name :: q).length := by
      simpa using List.length_pos_iff.2 hq
    have hends : Ends (materialize request template base) w (fun _ _ => False)
        fun e _ => CopyFailure (destinationOf base request.name) e :=
      ends_materialize_of_site hroot h.site fun w₁ hw₁ =>
        ((copyTemplate_endless (u := dashCase request.name :: q) hT hu h.site hw₁).and
          (failsOnly_copyTemplate _ _ w₁)).imp (fun _ _ h => h.1) fun _ _ h => h.2
    cases hrun : materialize request template base w with
    | ok dest w' => exact (hends.of_ok hrun).elim
    | error e w' => exact ⟨e, w', rfl, hends.of_error hrun⟩
  · rintro rfl hfree
    have hends : Ends (materialize request template base) w
        (fun dest w' => dest = destinationOf base request.name ∧
          FoldedIn w.files t (dashCase request.name) w'.files ∧
          AllFitting w.files template dest t (dashCase request.name))
        fun _ _ => ¬ AllFitting w.files template (destinationOf base request.name) t
          (dashCase request.name) :=
      ends_materialize_of_site hroot h.site fun w₁ hw₁ =>
        (copyTemplate_folds hT (hfree _ _) h.site hw₁).imp (fun _ _ h₂ => ⟨rfl, h₂⟩)
          fun _ _ h₂ => h₂
    refine ⟨⟨?_, fun hfits => ?_⟩, ?_⟩
    · rintro ⟨dest, w', hrun⟩
      obtain ⟨rfl, -, hfits⟩ := hends.of_ok hrun
      exact hfits
    · cases hrun : materialize request template base w with
      | ok dest w' => exact ⟨dest, w', rfl⟩
      | error e w' => exact absurd hfits (hends.of_error hrun)
    · intro dest w' hrun
      obtain ⟨hdest, hfolded, -⟩ := hends.of_ok hrun
      exact ⟨hdest, hfolded⟩

/-- A template with a file and a directory. -/
def libraryFiles : FileSystem where
  entries := [
    (["app"], .directory),
    (["lib", "app"], .directory),
    (["a.txt", "app"], .file "a".toUTF8)]
  workingDirectory := []

/-- A project is made in the template, with a copy of the file too many, and cannot be made in its
directory. -/
theorem materialize_inside_nested :
    (∃ w', materialize sampleRequest ⟨["app"]⟩ ⟨["app"]⟩ { files := libraryFiles } =
        .ok ⟨["app", "my-app"]⟩ w' ∧ FoldedIn libraryFiles ["app"] "my-app" w'.files ∧
      w'.files.get? ["a.txt", "my-app", "my-app", "app"] = some (.file "a".toUTF8)) ∧
    ∃ e w', materialize sampleRequest ⟨["app"]⟩ ⟨["app", "lib"]⟩ { files := libraryFiles } =
        .error e w' ∧ CopyFailure ⟨["app", "lib", "my-app"]⟩ e := by
  have hroot : Inside libraryFiles sampleRequest ⟨["app"]⟩ ⟨["app"]⟩ [] ["app"] :=
    ⟨by decide, by decide +kernel, by decide +kernel, by decide +kernel, by decide +kernel,
      by decide +kernel, by decide +kernel⟩
  have hlib : Inside libraryFiles sampleRequest ⟨["app"]⟩ ⟨["app", "lib"]⟩ ["lib"] ["app"] :=
    ⟨by decide, by decide +kernel, by decide +kernel, by decide +kernel, by decide +kernel,
      by decide +kernel, by decide +kernel⟩
  refine ⟨?_, (materialize_inside (w := { files := libraryFiles }) hlib).1 (by simp)⟩
  have hplain : ∀ x ∈ libraryFiles.entries, x.2.isLink = false := by decide
  have hfree : ∀ r e, libraryFiles.get? (r ++ ["app"]) = some e → e.isLink = false := by
    intro r e he
    obtain ⟨n, d, hl⟩ := List.exists_cons_of_ne_nil (l := r ++ ["app"]) (by simp)
    rw [hl] at he
    obtain ⟨l₁, l₂, hentries, -⟩ := List.lookup_eq_some_iff.1 he
    exact hplain (n :: d, e) (by simp [hentries])
  have hrun := eq_ok_of_value? (x := materialize sampleRequest ⟨["app"]⟩ ⟨["app"]⟩)
    (w := { files := libraryFiles }) (a := ⟨["app", "my-app"]⟩) (by decide +kernel)
  obtain ⟨-, hfolded⟩ :=
    ((materialize_inside (w := { files := libraryFiles }) hroot).2 rfl hfree).2 _ _ hrun
  refine ⟨_, hrun, hfolded, ?_⟩
  exact (hfolded.tree (k := ["a.txt", "my-app"]) (by simp)).2
    (.copy (k := []) (m := "a.txt") (by decide) (by decide))

end Stencil
