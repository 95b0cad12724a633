import Stencil.Proofs.CopiedTree
import Stencil.Proofs.BelowRoot

/-!
Copying within a template.

The new directory at `l` may stand in the template at `t` itself. What stands at a place of the
template is still copied as it is (`copyEntry_transplants`), as long as none of it is at or below
the place of its own copy: what is put at the one place is then not seen at the other. The entries
of a directory follow one after the other (`forM_transplants`).
-/

namespace Stencil

open FileSystem Run

/-- `gs'` is `gs` with what stands at `s` and below at `k`, and nothing else there. -/
structure Transplanted (gs : FileSystem) (s k : Location) (gs' : FileSystem) : Prop where
  same : ∀ {j}, ¬ k <:+ j → gs'.get? j = gs.get? j
  copied : ∀ q, gs'.get? (q ++ k) = gs.get? (q ++ s)

/-- `gs'` is `gs` with what stands at the names of `s` and below at those of `k`. -/
structure TransplantedAll (gs : FileSystem) (s k : Location) (names : List Name)
    (gs' : FileSystem) : Prop where
  same : ∀ {j}, (∀ m ∈ names, ¬ m :: k <:+ j) → gs'.get? j = gs.get? j
  copied : ∀ m ∈ names, ∀ q, gs'.get? (q ++ m :: k) = gs.get? (q ++ m :: s)

/-- What can be copied from the place `k` of the template to that of the destination: a directory
or a file, where neither path is too long. -/
def Fitting (template dest : Path) (k : Location) (e : Entry) : Prop :=
  (e = .directory ∨ ∃ b, e = .file b) ∧ (template.joinAll k).size ≤ maxPathSize ∧
    (dest.joinAll k).size ≤ maxPathSize

/-- All that stands at the place `r` of the template at `t` and below can be copied. -/
def Clear (gs : FileSystem) (template dest : Path) (t r : Location) : Prop :=
  ∀ q e, gs.get? (q ++ (r ++ t)) = some e → Fitting template dest (q ++ r) e

/-- `x` copies what stands at the place `k` of the template at `t`, and below, to that place of the
new directory at `l`, unless something there cannot be copied. -/
def Transplants (template dest : Path) (t l k : Location) (x : Run Unit) (w : World) : Prop :=
  Ends x w
    (fun _ w' => Transplanted w.files (k ++ t) (k ++ l) w'.files ∧
      Clear w.files template dest t k)
    fun _ _ => ¬ Clear w.files template dest t k

/-- Below one name of a directory nothing stands at or below another. -/
theorem eq_of_cons_suffix {k q : Location} {m n : Name} (h : n :: k <:+ q ++ m :: k) : n = m := by
  have hsame := (List.suffix_of_suffix_length_le h (List.suffix_append q (m :: k))
    (by simp)).eq_of_length (by simp)
  exact (List.cons.inj hsame).1

/-- What stands at one name is not at or below the copy of another. -/
theorem not_suffix_of_apart {s k q : Location} {m n : Name} (hlt : s.length < k.length)
    (hapart : ¬ n :: s <:+ k) : ¬ m :: k <:+ q ++ n :: s := by
  intro h
  have hsuf := List.suffix_of_suffix_length_le (List.suffix_append q (n :: s)) h (by
    simp only [List.length_cons]
    omega)
  rcases List.suffix_cons_iff.1 hsuf with heq | hsuf
  · have := congrArg List.length heq
    simp only [List.length_cons] at this
    omega
  · exact hapart hsuf

/-- The names of a directory stand apart from its copy if the directory does. -/
theorem not_suffix_cons {s k : Location} {m n : Name} (h : ¬ n :: s <:+ k) :
    ¬ m :: n :: s <:+ n :: k := by
  intro hsuf
  rcases List.suffix_cons_iff.1 hsuf with heq | hsuf
  · exact h ((List.cons.inj heq).2 ▸ List.suffix_refl _)
  · exact h ((List.suffix_cons m _).trans hsuf)

/-- A new directory is not seen where nothing stands at or above it. -/
theorem get?_created_apart {gs : FileSystem} {s k : Location} {m : Name} (hk : k ≠ [])
    (h : ¬ m :: s <:+ k) (q : Location) :
    (gs.set k .directory).get? (q ++ m :: s) = gs.get? (q ++ m :: s) := by
  rw [get?_set gs hk, if_neg]
  exact fun heq => h (heq ▸ List.suffix_append q _)

/-- Beside the names that are copied all is as it was. -/
theorem TransplantedAll.same_beside {gs gs' : FileSystem} {s k : Location} {names : List Name}
    (h : TransplantedAll gs s k names gs') {m : Name} (hm : m ∉ names) (q : Location) :
    gs'.get? (q ++ m :: k) = gs.get? (q ++ m :: k) :=
  h.same fun m' hm' hsuf => hm ((eq_of_cons_suffix hsuf : m' = m) ▸ hm')

theorem Transplanted.same_beside {gs gs' : FileSystem} {s k : Location} {m n : Name}
    (h : Transplanted gs s (n :: k) gs') (hm : m ≠ n) (q : Location) :
    gs'.get? (q ++ m :: k) = gs.get? (q ++ m :: k) :=
  h.same fun hsuf => hm (eq_of_cons_suffix hsuf).symm

section Clear

variable {gs gs' : FileSystem} {template dest : Path} {t r : Location}

theorem clear_congr (h : ∀ q, gs'.get? (q ++ (r ++ t)) = gs.get? (q ++ (r ++ t))) :
    Clear gs' template dest t r ↔ Clear gs template dest t r := by
  simp only [Clear, h]

theorem clear_iff_of_directory (hwf : gs.WellFormed) (he : gs.get? (r ++ t) = some .directory) :
    Clear gs template dest t r ↔ Fitting template dest r .directory ∧
      ∀ m ∈ gs.names (r ++ t), Clear gs template dest t (m :: r) := by
  constructor
  · refine fun h => ⟨h [] _ he, fun m _ q e hq => ?_⟩
    have := h (q ++ [m]) e
    simp only [List.append_assoc, List.singleton_append] at this
    exact this hq
  · rintro ⟨hself, hbelow⟩ q e hq
    rcases List.eq_nil_or_concat q with rfl | ⟨q, m, rfl⟩
    · obtain rfl := Option.some.inj (he.symm.trans hq)
      exact hself
    · simp only [List.concat_eq_append, List.append_assoc, List.singleton_append] at hq ⊢
      have hs := hwf.isSome_above (Option.isSome_of_eq_some hq)
      exact hbelow m ((mem_names _ _ _).2 hs) q e hq

/-- What is no directory has nothing below it. -/
theorem clear_iff_of_ne_directory (hwf : gs.WellFormed) {e : Entry}
    (he : gs.get? (r ++ t) = some e) (hnot : e ≠ .directory) :
    Clear gs template dest t r ↔ Fitting template dest r e := by
  refine ⟨fun h => h [] _ he, fun h q e' hq => ?_⟩
  by_cases hnil : q = []
  · subst hnil
    obtain rfl := Option.some.inj (he.symm.trans hq)
    exact h
  · have hdir := hwf.directory_above hnil (Option.isSome_of_eq_some hq)
    exact absurd (Option.some.inj (he.symm.trans hdir)) hnot

end Clear

/-- Once all that stands in a directory is in its copy, the directory is. -/
theorem TransplantedAll.transplanted {gs gs' : FileSystem} {s k : Location}
    (h : TransplantedAll (gs.set k .directory) s k (gs.names s) gs') (hwf : gs.WellFormed)
    (hs : gs.get? s = some .directory) (hne : k ≠ []) (hk : gs.get? k = none)
    (hapart : ∀ m ∈ gs.names s, ¬ m :: s <:+ k) : Transplanted gs s k gs' := by
  refine ⟨fun {j} hj => ?_, fun q => ?_⟩
  · rw [h.same fun m _ hm => hj ((List.suffix_cons m k).trans hm),
      (sameOff_created gs hne).outside hj]
  · rcases List.eq_nil_or_concat q with rfl | ⟨q, m, rfl⟩
    · rw [List.nil_append, List.nil_append, hs, h.same, get?_set gs hne, if_pos rfl]
      intro m _ hm
      have := hm.length_le
      rw [List.length_cons] at this
      omega
    · rw [List.concat_eq_append, List.append_assoc, List.append_assoc]
      show gs'.get? (q ++ m :: k) = gs.get? (q ++ m :: s)
      by_cases hm : m ∈ gs.names s
      · rw [h.copied m hm, get?_created_apart hne (hapart m hm)]
      · have hnone : gs.get? (m :: s) = none := by simpa [mem_names] using hm
        have hempty := get?_created_below hwf hne hk (r := q ++ [m]) (by simp)
        rw [List.append_assoc, List.singleton_append] at hempty
        rw [hwf.get?_of_absent hnone (List.suffix_append q _), h.same_beside hm, hempty]

section Template

variable {fs : FileSystem} {template dest : Path} {t l : Location}

theorem FileSystem.Grown.rooted_template {gs : FileSystem} (hg : fs.Grown dest l gs)
    (hT : fs.Rooted template t) : gs.Rooted template t := by
  obtain ⟨-, -, hnone, -, hlegal⟩ := site_spec hg.old hg.site
  obtain ⟨m, hm⟩ := hT.leads
  have hoff : ¬ l <:+ t := hg.old.not_suffix hnone (Option.isSome_of_eq_some hT.directory)
  have hstill := leadsTo_of_sameOff hg.old hnone (empty_not_mem_of_legal hlegal) hg.same hm
  refine ⟨hg.wellFormed, ⟨m, hstill⟩, hT.check, ?_⟩
  rw [hg.same.outside hoff, hT.directory]

/-- Without links the template stays without links. -/
theorem FileSystem.Grown.isLink_template {gs : FileSystem} (hg : fs.Grown dest l gs)
    (hfree : ∀ {r e}, fs.get? (r ++ t) = some e → e.isLink = false) {r : Location} {e : Entry}
    (he : gs.get? (r ++ t) = some e) : e.isLink = false := by
  by_cases hl : l <:+ r ++ t
  · obtain ⟨q, hq⟩ := hl
    rw [← hq] at he
    by_cases hne : q = []
    · subst hne
      obtain rfl := Option.some.inj (he.symm.trans hg.root)
      rfl
    · exact hg.isLink_false hne he
  · rw [hg.same.outside hl] at he
    exact hfree he

variable (template) in
/-- The entries of a directory are copied one after the other. -/
theorem forM_transplants {r : Location} {names : List Name} {f : Name → Run Unit} {w : World}
    (hlt : t.length < l.length) (hnodup : names.Nodup)
    (hapart : ∀ m ∈ names, ¬ m :: (r ++ t) <:+ r ++ l)
    (h : ∀ m ∈ names, ∀ w : World, fs.Grown dest l w.files →
      w.files.get? (r ++ l) = some .directory → w.files.get? (m :: (r ++ l)) = none →
      (w.files.get? (m :: (r ++ t))).isSome →
      Leaves (f m) w (fun w' => Later fs dest l w.files w'.files) ∧
        Transplants template dest t l (m :: r) (f m) w)
    (hg : fs.Grown dest l w.files) (hdir : w.files.get? (r ++ l) = some .directory)
    (hnew : ∀ m ∈ names, w.files.get? (m :: (r ++ l)) = none)
    (hthere : ∀ m ∈ names, (w.files.get? (m :: (r ++ t))).isSome) :
    Ends (names.forM f) w
      (fun _ w' => Later fs dest l w.files w'.files ∧
        TransplantedAll w.files (r ++ t) (r ++ l) names w'.files ∧
        ∀ m ∈ names, Clear w.files template dest t (m :: r))
      fun _ _ => ∃ m ∈ names, ¬ Clear w.files template dest t (m :: r) := by
  have hlt' : (r ++ t).length < (r ++ l).length := by
    simp only [List.length_append]
    omega
  induction names generalizing w with
  | nil => exact ⟨Later.refl hg, ⟨fun _ => rfl, by simp⟩, by simp⟩
  | cons n names ih =>
    obtain ⟨hn, hnodup⟩ := List.nodup_cons.1 hnodup
    obtain ⟨-, haparts⟩ := List.forall_mem_cons.1 hapart
    obtain ⟨hnone, hnew⟩ := List.forall_mem_cons.1 hnew
    obtain ⟨hsome, hthere⟩ := List.forall_mem_cons.1 hthere
    obtain ⟨hfirst, hrest⟩ := List.forall_mem_cons.1 h
    obtain ⟨hlater, hcopied⟩ := hfirst w hg hdir hnone hsome
    rw [ends_forM_cons]
    refine (Ends.and hlater hcopied).imp ?_ ?_
    · rintro _ w₁ ⟨hlater₁, hplace, hclear₁⟩
      have hcopied₁ : Transplanted w.files (n :: (r ++ t)) (n :: (r ++ l)) w₁.files := hplace
      -- what is still to be copied is as it was
      have hsource : ∀ m ∈ names, ∀ q,
          w₁.files.get? (q ++ m :: (r ++ t)) = w.files.get? (q ++ m :: (r ++ t)) :=
        fun m hm q => hcopied₁.same (not_suffix_of_apart hlt' (haparts m hm))
      have hother : ∀ m ∈ names, m ≠ n := fun m hm heq => hn (heq ▸ hm)
      have hnew₁ : ∀ m ∈ names, w₁.files.get? (m :: (r ++ l)) = none := fun m hm =>
        (hcopied₁.same_beside (hother m hm) []).trans (hnew m hm)
      have hthere₁ : ∀ m ∈ names, (w₁.files.get? (m :: (r ++ t))).isSome := fun m hm =>
        (congrArg Option.isSome (hsource m hm [])).trans (hthere m hm)
      refine (ih hnodup haparts hrest hlater₁.grown (hlater₁.directories hdir) hnew₁
        hthere₁).imp ?_ ?_
      · rintro _ w₂ ⟨hlater₂, hall, hclear₂⟩
        refine ⟨hlater₁.trans hlater₂, ⟨fun {j} hj => ?_, ?_⟩, ?_⟩
        · obtain ⟨hjn, hjs⟩ := List.forall_mem_cons.1 hj
          rw [hall.same hjs, hcopied₁.same hjn]
        · rw [List.forall_mem_cons]
          refine ⟨fun q => ?_, fun m hm q => ?_⟩
          · rw [hall.same_beside hn, hcopied₁.copied]
          · rw [hall.copied m hm, hsource m hm]
        · rw [List.forall_mem_cons]
          exact ⟨hclear₁, fun m hm => (clear_congr (hsource m hm)).1 (hclear₂ m hm)⟩
      · rintro e w₂ ⟨m, hm, hwhy⟩
        exact ⟨m, List.mem_cons_of_mem _ hm, fun h => hwhy ((clear_congr (hsource m hm)).2 h)⟩
    · rintro e w₁ ⟨-, hwhy⟩
      exact ⟨n, by simp, hwhy⟩

/-- What is no directory has nothing below it. -/
theorem transplanted_set {gs : FileSystem} (hwf : gs.WellFormed) {s k : Location} {e : Entry}
    (hs : gs.get? s = some e) (hk : gs.get? k = none) (hnot : e ≠ .directory) :
    Transplanted gs s k (gs.set k e) := by
  have hne : k ≠ [] := by
    rintro rfl
    simp at hk
  refine ⟨fun {j} hj => ?_, fun q => ?_⟩
  · rw [get?_set gs hne, if_neg]
    rintro rfl
    exact hj (List.suffix_refl _)
  · rw [get?_set gs hne]
    by_cases hq : q = []
    · rw [hq, List.nil_append, List.nil_append, if_pos rfl, hs]
    · rw [if_neg (append_ne_self hq), hwf.get?_of_absent hk (List.suffix_append q k), eq_comm,
        ← Option.not_isSome_iff_eq_none]
      intro hsome
      have hdir := hwf.directory_above hq hsome
      rw [hs] at hdir
      exact hnot (Option.some.inj hdir)

section Entry

variable (hT : fs.Rooted template t) {depth : Nat} {inside : List Location} {r : Location}
  {n : Name} {w : World} (hg : fs.Grown dest l w.files) (hdir : w.files.get? (r ++ l) = some .directory)
  (hnone : w.files.get? (n :: (r ++ l)) = none)

include hg hdir hnone

variable (template) in
/-- Once its copy has been made, what a directory holds is copied. -/
theorem held_transplants {f : Name → Run Unit} (hlt : t.length < l.length)
    (hfit : (dest.joinAll (n :: r)).size ≤ maxPathSize)
    (he : w.files.get? (n :: (r ++ t)) = some .directory)
    (hapart : ∀ m, (w.files.get? (m :: n :: (r ++ t))).isSome →
      ¬ m :: n :: (r ++ t) <:+ n :: (r ++ l))
    (hchildren : ∀ m, ∀ w' : World, fs.Grown dest l w'.files →
      (w'.files.get? (m :: n :: (r ++ t))).isSome →
      w'.files.get? (n :: (r ++ l)) = some .directory →
      w'.files.get? (m :: n :: (r ++ l)) = none → ¬ m :: n :: (r ++ t) <:+ n :: (r ++ l) →
      Leaves (f m) w' (fun w'' => Later fs dest l w'.files w''.files) ∧
        Transplants template dest t l (m :: n :: r) (f m) w') :
    Ends ((w.files.names (n :: (r ++ t))).forM f)
      { w with files := w.files.set (n :: (r ++ l)) .directory }
      (fun _ w' => Transplanted w.files (n :: (r ++ t)) (n :: (r ++ l)) w'.files ∧
        ∀ m ∈ w.files.names (n :: (r ++ t)), Clear w.files template dest t (m :: n :: r))
      fun _ _ => ¬ ∀ m ∈ w.files.names (n :: (r ++ t)),
        Clear w.files template dest t (m :: n :: r) := by
  have hne : n :: (r ++ l) ≠ [] := by simp
  have hn := hg.wellFormed.legal (Option.isSome_of_eq_some he)
  have hgrown := hg.set hdir hn hfit (by simp [hnone]) (.inl rfl)
  have hself : (w.files.set (n :: (r ++ l)) .directory).get? (n :: (r ++ l)) =
      some .directory := by
    rw [get?_set _ hne, if_pos rfl]
  have hapart' : ∀ m ∈ w.files.names (n :: (r ++ t)), ¬ m :: n :: (r ++ t) <:+ n :: (r ++ l) :=
    fun m hm => hapart m ((mem_names _ _ _).1 hm)
  have hsource : ∀ m ∈ w.files.names (n :: (r ++ t)), ∀ q,
      (w.files.set (n :: (r ++ l)) .directory).get? (q ++ m :: n :: (r ++ t)) =
        w.files.get? (q ++ m :: n :: (r ++ t)) :=
    fun m hm => get?_created_apart hne (hapart' m hm)
  refine (forM_transplants template (r := n :: r) hlt (nodup_names _ _) hapart' ?_ hgrown hself
    ?_ ?_).imp ?_ ?_
  · intro m hm w' hg' hdir' hnone' hs
    exact hchildren m w' hg' hs hdir' hnone' (hapart' m hm)
  · intro m _
    exact get?_created_below hg.wellFormed hne hnone (List.cons_ne_nil m [])
  · intro m hm
    exact (congrArg Option.isSome (hsource m hm [])).trans ((mem_names _ _ _).1 hm)
  · rintro _ w' ⟨-, hall, hclear⟩
    exact ⟨hall.transplanted hg.wellFormed he hne hnone hapart',
      fun m hm => (clear_congr (hsource m hm)).1 (hclear m hm)⟩
  · rintro e w' ⟨m, hm, hnot⟩ hclear
    exact hnot ((clear_congr (hsource m hm)).2 (hclear m hm))

include hT

theorem copyFile_transplants (hfree : ∀ {r e}, fs.get? (r ++ t) = some e → e.isLink = false)
    {e : Entry} (he : w.files.get? (n :: (r ++ t)) = some e) (hnot : e ≠ .directory) :
    Transplants template dest t l (n :: r)
      (copyEntry dest (depth + 1) inside (r ++ t) (template.joinAll r) r n) w := by
  have hn := hg.wellFormed.legal (Option.isSome_of_eq_some he)
  have hlink : e.isLink = false := hg.isLink_template (r := n :: r) hfree he
  have hstatus := (hg.rooted_template hT).status_below (List.cons_ne_nil n r) he hlink
  have hclear : Clear w.files template dest t (n :: r) ↔ Fitting template dest (n :: r) e :=
    clear_iff_of_ne_directory hg.wellFormed he hnot
  have hrun : Transplants template dest t l (n :: r) (do
        Run.change (·.copyFile (template.joinAll (n :: r)) (dest.joinAll (n :: r)))
          (.copyFailed dest ("copying " ++ (Location.toPath (n :: r)).toString))
        Run.emit (.copied (Location.toPath (n :: r)))) w := by
    simp only [Transplants, ends_bind, ends_emit, ends_change, hclear]
    by_cases hread : ∃ b, w.files.status (template.joinAll (n :: r)) = .ok (.file b)
    · obtain ⟨b, hb⟩ := hread
      rw [copyFile_of_file hb]
      rw [hstatus] at hb
      split at hb
      · rename_i hfit
        obtain rfl := Except.ok.inj hb
        rcases hg.write_below hdir hn b with ⟨hshort, -, hwrite⟩ | ⟨x, hwrite, hlong | hdir'⟩
        · rw [hwrite]
          exact ⟨transplanted_set hg.wellFormed he hnone hnot, .inr ⟨b, rfl⟩, hfit, hshort⟩
        · rw [hwrite]
          exact fun h => absurd h.2.2 (Nat.not_le_of_lt hlong)
        · simp [hnone] at hdir'
      · cases hb
    · obtain ⟨x, hx⟩ := copyFile_of_not_file (dest.joinAll (n :: r)) hread
      rw [hx]
      rintro ⟨hdir' | ⟨b, rfl⟩, hfit, -⟩
      · exact hnot hdir'
      · exact hread ⟨b, by rw [hstatus, if_pos hfit]⟩
  rw [Transplants, copyEntry, ends_bind, ends_look, meet_of_not_link he hlink]
  cases e with
  | directory => exact absurd rfl hnot
  | link target => cases hlink
  | _ => exact hrun

/-- A directory is copied, provided what it holds is. -/
theorem directory_transplants (hlt : t.length < l.length)
    (he : w.files.get? (n :: (r ++ t)) = some .directory)
    (hapart : ∀ m, (w.files.get? (m :: n :: (r ++ t))).isSome →
      ¬ m :: n :: (r ++ t) <:+ n :: (r ++ l))
    (hchildren : ∀ {inside' m} {w' : World}, fs.Grown dest l w'.files →
      (w'.files.get? (m :: n :: (r ++ t))).isSome →
      w'.files.get? (n :: (r ++ l)) = some .directory →
      w'.files.get? (m :: n :: (r ++ l)) = none → ¬ m :: n :: (r ++ t) <:+ n :: (r ++ l) →
      Transplants template dest t l (m :: n :: r)
        (copyEntry dest depth inside' (n :: (r ++ t)) (template.joinAll (n :: r)) (n :: r) m) w') :
    Transplants template dest t l (n :: r)
      (copyEntry dest (depth + 1) inside (r ++ t) (template.joinAll r) r n) w := by
  have hn := hg.wellFormed.legal (Option.isSome_of_eq_some he)
  have hlist := (hg.rooted_template hT).list_below (r := n :: r) he
  have hclear : Clear w.files template dest t (n :: r) ↔ Fitting template dest (n :: r) .directory ∧
      ∀ m ∈ w.files.names (n :: (r ++ t)), Clear w.files template dest t (m :: n :: r) :=
    clear_iff_of_directory hg.wellFormed he
  rw [Transplants, copyEntry, ends_bind, ends_look, meet_of_not_link he rfl]
  simp only [Entry.kind, ends_bind, ends_get, ends_change]
  rcases hg.createDirectories_below hdir hn with ⟨hfit, -, hmake⟩ | ⟨hdir', -⟩ |
    ⟨x, hmake, hlong | ⟨b, hb⟩⟩
  · rw [hmake]
    simp only [ends_look]
    by_cases hshort : (template.joinAll (n :: r)).size ≤ maxPathSize
    · rw [if_pos hshort, Path.joinAll_cons] at hlist
      rw [hlist]
      refine (held_transplants template hg hdir hnone hlt hfit he hapart ?_).imp ?_ ?_
      · intro m w' hg' hs hdir' hnone' hapart'
        exact ⟨copyEntry_later hg' hdir' (hg'.wellFormed.legal hs),
          hchildren hg' hs hdir' hnone' hapart'⟩
      · rintro _ w' ⟨hcopied, hbelow⟩
        exact ⟨hcopied, hclear.2 ⟨⟨.inl rfl, hshort, hfit⟩, hbelow⟩⟩
      · intro e w' hnot h
        exact hnot (hclear.1 h).2
    · rw [if_neg hshort, Path.joinAll_cons] at hlist
      rw [hlist]
      exact fun h => hshort (hclear.1 h).1.2.1
  · simp [hnone] at hdir'
  · rw [hmake]
    exact fun h => absurd (hclear.1 h).1.2.2 (Nat.not_le_of_lt hlong)
  · simp [hnone] at hb

end Entry

/-- What stands at a place of the template is copied, unless there is something in the way. -/
theorem copyEntry_transplants (hT : fs.Rooted template t)
    (hfree : ∀ {r e}, fs.get? (r ++ t) = some e → e.isLink = false) (hlt : t.length < l.length)
    {depth : Nat} {inside : List Location} {r : Location} {n : Name} {w : World}
    (hdeep : DeepEnough (template.joinAll (n :: r)) depth) (hg : fs.Grown dest l w.files)
    (hdir : w.files.get? (r ++ l) = some .directory)
    (hnone : w.files.get? (n :: (r ++ l)) = none)
    (hs : (w.files.get? (n :: (r ++ t))).isSome)
    (hapart : ∀ m, (w.files.get? (m :: n :: (r ++ t))).isSome →
      ¬ m :: n :: (r ++ t) <:+ n :: (r ++ l)) :
    Transplants template dest t l (n :: r)
      (copyEntry dest depth inside (r ++ t) (template.joinAll r) r n) w := by
  obtain ⟨e, he⟩ := Option.isSome_iff_exists.1 hs
  -- that the entries of `n` are apart from its copy passes on to what they hold
  induction depth generalizing inside r n w e with
  | zero => exact fun h => absurd (h [] e he).2.1 (Nat.not_le_of_lt hdeep.2)
  | succ depth ih =>
    by_cases hkind : e = .directory
    · subst hkind
      refine directory_transplants hT hg hdir hnone hlt he hapart ?_
      intro inside' m w' hg' hs' hdir' hnone' hapart'
      obtain ⟨e', he'⟩ := Option.isSome_iff_exists.1 hs'
      exact ih (hdeep.join (hg'.wellFormed.legal hs')) hg' hdir' hnone' hs'
        (fun _ _ => not_suffix_cons hapart') e' he'
    · exact copyFile_transplants hT hg hdir hnone hfree he hkind

end Template

end Stencil
