import Stencil.Proofs.Resolution

/-!
Making a directory where nothing stands.

Main statements: a call that makes a directory puts it at the site of its path and changes nothing
else (`site_of_createDirectory`), and from then on the path leads there, whatever is put below
(`leadsTo_site`). A call that makes the directories above it as well begins with the last one
(`createDirectories_eq`).
-/

namespace Stencil

namespace FileSystem

variable {fs : FileSystem}

/-- Where the directory of a path would be made: its name in a directory that does not hold it. -/
def site? (fs : FileSystem) (p : Path) : Option Location :=
  match fs.resolve .entry p p.components with
  | .ok (.vacant d n) => if fs.get? d = some .directory then some (n :: d) else none
  | _ => none

theorem createDirectory_of_site {p : Path} {l : Location} (h : fs.site? p = some l) :
    fs.createDirectory p = .ok (fs.set l .directory) := by
  rw [site?] at h
  rw [createDirectory, create]
  cases hr : fs.resolve .entry p p.components with
  | error e => simp [hr] at h
  | ok place =>
    cases place with
    | found k => simp [hr] at h
    | vacant d n =>
      simp only [hr] at h
      split at h
      · rename_i hd
        obtain rfl := Option.some.inj h
        simp [bind, Except.bind, add, hd]
      · simp at h

theorem site_of_createDirectory {p : Path} {gs : FileSystem}
    (h : fs.createDirectory p = .ok gs) :
    ∃ l, fs.site? p = some l ∧ gs = fs.set l .directory := by
  rw [createDirectory, create] at h
  rw [site?]
  cases hr : fs.resolve .entry p p.components with
  | error e => simp [hr, bind, Except.bind] at h
  | ok place =>
    cases place with
    | found k => simp [hr, bind, Except.bind, throw, throwThe, MonadExceptOf.throw] at h
    | vacant d n =>
      simp only [hr, bind, Except.bind, add] at h
      split at h
      · rename_i hd
        exact ⟨n :: d, by simp [hd], (Except.ok.inj h).symm⟩
      · simp at h

theorem resolve_of_site {p : Path} {l : Location} (h : fs.site? p = some l) :
    ∃ d n, l = n :: d ∧ fs.get? d = some .directory ∧
      fs.resolve .entry p p.components = .ok (.vacant d n) := by
  rw [site?] at h
  split at h
  · rename_i d n hr
    split at h
    · rename_i hd
      exact ⟨d, n, (Option.some.inj h).symm, hd, hr⟩
    · simp at h
  · simp at h

/-- The last component of a path is the name that is not there. -/
theorem advance_vacant {aim : Aim} {l d : Location} {n : Name} {cs : List String}
    (h : fs.advance aim l cs = .arrived (.vacant d n)) :
    fs.get? (n :: d) = none ∧ Names n ∧ cs.getLast? = some n := by
  induction cs generalizing l with
  | nil => simp [advance] at h
  | cons c cs ih =>
    obtain ⟨-, ⟨k, -, hk⟩ | ⟨hc, hget, rfl, hx⟩ | ⟨t, -, -, hx⟩⟩ :=
      advance_cons_cases h (by simp)
    · obtain ⟨hget, hn, hlast⟩ := ih hk
      exact ⟨hget, hn, by simp [List.getLast?_cons, hlast]⟩
    · obtain ⟨rfl, rfl⟩ : d = l ∧ n = c := by simpa using hx
      exact ⟨hget, hc, rfl⟩
    · split at hx <;> simp at hx

theorem getLast?_of_advance_link {l d : Location} {t : Path} {cs rest : List String}
    (h : fs.advance .entry l cs = .link d t rest) :
    rest ≠ [] ∧ cs.getLast? = rest.getLast? := by
  induction cs generalizing l with
  | nil => simp [advance] at h
  | cons c cs ih =>
    obtain ⟨-, ⟨k, -, hk⟩ | ⟨-, -, -, hx⟩ | ⟨t', -, -, hx⟩⟩ := advance_cons_cases h (by simp)
    · obtain ⟨hne, hlast⟩ := ih hk
      obtain ⟨x, hx⟩ : ∃ x, rest.getLast? = some x := ⟨_, List.getLast?_eq_some_getLast hne⟩
      exact ⟨hne, by simp [List.getLast?_cons, hlast, hx]⟩
    · simp at hx
    · split at hx
      · simp at hx
      · rename_i hrest
        obtain ⟨-, -, rfl⟩ : d = l ∧ t = t' ∧ rest = cs := by simpa using hx
        have hne : rest ≠ [] := by simpa using hrest
        obtain ⟨x, hx⟩ : ∃ x, rest.getLast? = some x := ⟨_, List.getLast?_eq_some_getLast hne⟩
        exact ⟨hne, by simp [List.getLast?_cons, hx]⟩

theorem follow_vacant {aim : Aim} {n : Nat} {l d : Location} {c : Name} {cs : List String}
    (h : fs.follow aim n l cs = .ok (.vacant d c)) : fs.get? (c :: d) = none ∧ Names c := by
  induction n generalizing l cs with
  | zero => simp [follow] at h
  | succ n ih =>
    rw [follow] at h
    cases hadv : fs.advance aim l cs with
    | failed e => simp [hadv] at h
    | arrived p =>
      simp only [hadv] at h
      obtain rfl := Except.ok.inj h
      obtain ⟨hget, hc, -⟩ := advance_vacant hadv
      exact ⟨hget, hc⟩
    | link k t rest =>
      simp only [hadv] at h
      exact ih h

theorem getLast?_of_follow_vacant {n : Nat} {l d : Location} {c : Name} {cs : List String}
    (h : fs.follow .entry n l cs = .ok (.vacant d c)) : cs.getLast? = some c := by
  induction n generalizing l cs with
  | zero => simp [follow] at h
  | succ n ih =>
    rw [follow] at h
    cases hadv : fs.advance .entry l cs with
    | failed e => simp [hadv] at h
    | arrived p =>
      simp only [hadv] at h
      obtain rfl := Except.ok.inj h
      exact (advance_vacant hadv).2.2
    | link k t rest =>
      simp only [hadv] at h
      obtain ⟨hne, hlast⟩ := getLast?_of_advance_link hadv
      have hsteps := ih h
      rw [List.getLast?_append_of_ne_nil _ hne] at hsteps
      exact hlast.trans hsteps

/-- A site is vacant, in a directory, and has a name that an entry can have. -/
theorem site_spec (hwf : fs.WellFormed) {p : Path} {l : Location} (h : fs.site? p = some l) :
    p.check = .ok () ∧ l ≠ [] ∧ fs.get? l = none ∧ fs.get? l.tail = some .directory ∧
      ∀ n ∈ l, LegalName n := by
  obtain ⟨d, n, rfl, hd, hr⟩ := resolve_of_site h
  have hc := check_of_resolve hr
  rw [resolve_eq fs _ hc] at hr
  obtain ⟨hget, h₁, h₂, h₃, h₄⟩ := follow_vacant hr
  have hlast := getLast?_of_follow_vacant hr
  have hnul : '\x00' ∉ n.toList := by
    intro hmem
    have hpiece : n ∈ p.pieces := (List.mem_filter.1 (List.mem_of_getLast? hlast)).1
    exact (Path.check_eq_ok_iff.1 hc).1 (Path.mem_toString hpiece hmem)
  exact ⟨hc, by simp, hget, hd, List.forall_mem_cons.2 ⟨⟨h₁, h₂, h₃, h₄, hnul⟩,
    hwf.legal_names (Option.isSome_of_eq_some hd)⟩⟩

/-- Both agree on all that is neither at `l` nor below it. -/
structure SameOff (l : Location) (fs gs : FileSystem) : Prop where
  outside : ∀ {k}, ¬ l <:+ k → gs.get? k = fs.get? k
  home : gs.workingDirectory = fs.workingDirectory

theorem SameOff.set {gs : FileSystem} {l k : Location} (h : SameOff l fs gs) (hk : l <:+ k)
    (hne : k ≠ []) (e : Entry) : SameOff l fs (gs.set k e) := by
  refine ⟨fun {j} hj => ?_, h.home⟩
  have hjk : j ≠ k := by
    rintro rfl
    exact hj hk
  rw [get?_set gs hne, if_neg hjk, h.outside hj]

/-- A place from which a path can go on. -/
def Standing (fs : FileSystem) (l : Location) : Prop :=
  (fs.get? l).isSome ∨ l <:+ fs.workingDirectory

theorem Standing.tail (hwf : fs.WellFormed) {l : Location} (h : fs.Standing l) :
    fs.Standing l.tail := by
  rcases h with h | h
  · cases l with
    | nil => exact .inl h
    | cons n d => exact .inl (Option.isSome_of_eq_some (hwf.parent h))
  · exact .inr ((List.tail_suffix l).trans h)

theorem standing_startOf {l : Location} (h : fs.Standing l) (p : Path) :
    fs.Standing (startOf l p) := by
  rw [startOf]
  split
  · exact .inl rfl
  · exact h

/-- What a path comes by on its way is not at or below a place where nothing stands. -/
theorem Standing.not_suffix (hwf : fs.WellFormed) {l k : Location} (hl : fs.get? l = none)
    (hnamed : "" ∉ l) (h : fs.Standing k) : ¬ l <:+ k := by
  rcases h with h | h
  · exact hwf.not_suffix hl h
  · exact fun hlk => hwf.not_suffix_home hl hnamed (hlk.trans h)

section Transfer

variable {gs : FileSystem} {l : Location} (hwf : fs.WellFormed) (hl : fs.get? l = none)
  (hnamed : "" ∉ l) (hsame : SameOff l fs gs) {e : Entry} (he : gs.get? l = some e)
  (hlink : e.isLink = false)

include hwf hl hnamed hsame

theorem canEnter_of_sameOff {k : Location} (h : fs.Standing k) :
    gs.canEnter k = fs.canEnter k := by
  rw [canEnter, canEnter, hsame.outside (h.not_suffix hwf hl hnamed)]

theorem moves_of_sameOff {k j : Location} {c : String} (hmoves : fs.Moves k c j)
    (h : fs.Standing k) : gs.Moves k c j ∧ fs.Standing j := by
  cases hmoves with
  | stay hc => exact ⟨.stay hc, h⟩
  | up hc => exact ⟨.up hc, h.tail hwf⟩
  | enter e hc hget hlink =>
    have hstand : fs.Standing (c :: k) := .inl (Option.isSome_of_eq_some hget)
    refine ⟨.enter e hc ?_ hlink, hstand⟩
    rw [hsame.outside (hstand.not_suffix hwf hl hnamed), hget]

/-- A way over places that stand is left as it was. -/
theorem advance_of_sameOff {k : Location} (cs : List String) (h : fs.Standing k) :
    (∀ j, fs.advance .target k cs = .arrived (.found j) →
      gs.advance .target k cs = .arrived (.found j)) ∧
    ∀ d t rest, fs.advance .target k cs = .link d t rest →
      gs.advance .target k cs = .link d t rest ∧ fs.Standing d := by
  induction cs generalizing k with
  | nil => simp [advance]
  | cons c cs ih =>
    constructor
    · intro j hadv
      obtain ⟨henter, ⟨i, hi, hrest⟩ | ⟨-, -, -, hx⟩ | ⟨t, -, -, hx⟩⟩ :=
        advance_cons_cases hadv (by simp)
      · obtain ⟨hgi, hstand⟩ := moves_of_sameOff hwf hl hnamed hsame hi h
        rw [advance_of_moves (by rwa [canEnter_of_sameOff hwf hl hnamed hsame h]) hgi (by simp)]
        exact (ih hstand).1 j hrest
      · simp at hx
      · simp at hx
    · intro d t rest hadv
      obtain ⟨henter, ⟨i, hi, hrest⟩ | ⟨-, -, -, hx⟩ | ⟨t', hc, hget, hx⟩⟩ :=
        advance_cons_cases hadv (by simp)
      · obtain ⟨hgi, hstand⟩ := moves_of_sameOff hwf hl hnamed hsame hi h
        rw [advance_of_moves (by rwa [canEnter_of_sameOff hwf hl hnamed hsame h]) hgi (by simp)]
        exact (ih hstand).2 d t rest hrest
      · simp at hx
      · obtain ⟨rfl, rfl, rfl⟩ : d = k ∧ t = t' ∧ rest = cs := by simpa using hx
        have hstand : fs.Standing (c :: d) := .inl (Option.isSome_of_eq_some hget)
        refine ⟨?_, h⟩
        rw [← hsame.outside (hstand.not_suffix hwf hl hnamed)] at hget
        rw [← canEnter_of_sameOff hwf hl hnamed hsame h] at henter
        exact advance_link henter hc hget (by simp)

theorem leads_of_sameOff {n m : Nat} {k j : Location} {cs : List String} (h : fs.Standing k)
    (hleads : fs.Leads n k cs m j) : gs.Leads n k cs m j := by
  induction hleads with
  | arrived hadv =>
    exact .arrived ((advance_of_sameOff hwf hl hnamed hsame _ h).1 _ hadv)
  | @link n k cs d t behind m j hadv _ ih =>
    obtain ⟨hg, hstand⟩ := (advance_of_sameOff hwf hl hnamed hsame _ h).2 _ _ _ hadv
    exact .link hg (ih (standing_startOf hstand t))

/-- A path leads where it did, whatever is put where nothing stood. -/
theorem leadsTo_of_sameOff {p : Path} {m : Nat} {j : Location} (h : fs.LeadsTo p m j) :
    gs.LeadsTo p m j := by
  have hstand : fs.Standing (startOf fs.workingDirectory p) :=
    standing_startOf (.inr (List.suffix_refl _)) p
  rw [LeadsTo, hsame.home]
  exact leads_of_sameOff hwf hl hnamed hsame hstand h

include he hlink

/-- A way that ended at the vacant place leads there once something has been put there. -/
theorem advance_to_site (aim : Aim) {k : Location} (cs : List String) (h : fs.Standing k) :
    (∀ d n, fs.advance aim k cs = .arrived (.vacant d n) → n :: d = l →
      gs.advance .target k cs = .arrived (.found l)) ∧
    ∀ d t rest, fs.advance aim k cs = .link d t rest →
      gs.advance .target k cs = .link d t rest ∧ fs.Standing d := by
  induction cs generalizing k with
  | nil => simp [advance]
  | cons c cs ih =>
    constructor
    · intro d n hadv hnd
      obtain ⟨henter, ⟨j, hj, hrest⟩ | ⟨hc, hget, rfl, hx⟩ | ⟨t, -, -, hx⟩⟩ :=
        advance_cons_cases hadv (by simp)
      · obtain ⟨hgj, hstand⟩ := moves_of_sameOff hwf hl hnamed hsame hj h
        rw [advance_of_moves (by rwa [canEnter_of_sameOff hwf hl hnamed hsame h]) hgj (by simp)]
        exact (ih hstand).1 d n hrest hnd
      · obtain ⟨rfl, rfl⟩ : d = k ∧ n = c := by simpa using hx
        subst hnd
        have hgm : gs.Moves d n (n :: d) := .enter e hc he hlink
        rw [advance_of_moves (by rwa [canEnter_of_sameOff hwf hl hnamed hsame h]) hgm (by simp),
          advance]
      · split at hx <;> simp at hx
    · intro d t rest hadv
      obtain ⟨henter, ⟨j, hj, hrest⟩ | ⟨-, -, -, hx⟩ | ⟨t', hc, hget, hx⟩⟩ :=
        advance_cons_cases hadv (by simp)
      · obtain ⟨hgj, hstand⟩ := moves_of_sameOff hwf hl hnamed hsame hj h
        rw [advance_of_moves (by rwa [canEnter_of_sameOff hwf hl hnamed hsame h]) hgj (by simp)]
        exact (ih hstand).2 d t rest hrest
      · simp at hx
      · split at hx
        · simp at hx
        · obtain ⟨rfl, rfl, rfl⟩ : d = k ∧ t = t' ∧ rest = cs := by simpa using hx
          have hstand : fs.Standing (c :: d) := .inl (Option.isSome_of_eq_some hget)
          refine ⟨?_, h⟩
          rw [← hsame.outside (hstand.not_suffix hwf hl hnamed)] at hget
          rw [← canEnter_of_sameOff hwf hl hnamed hsame h] at henter
          exact advance_link henter hc hget (by simp)

theorem leads_to_site {aim : Aim} {n : Nat} {k d : Location} {c : Name} {cs : List String}
    (h : fs.Standing k) (hf : fs.follow aim n k cs = .ok (.vacant d c)) (hcd : c :: d = l) :
    ∃ m, gs.Leads n k cs m l := by
  induction n generalizing k cs with
  | zero => simp [follow] at hf
  | succ n ih =>
    obtain ⟨hvacant, hthrough⟩ := advance_to_site hwf hl hnamed hsame he hlink aim cs h
    rw [follow] at hf
    cases hadv : fs.advance aim k cs with
    | failed e => simp [hadv] at hf
    | arrived p =>
      simp only [hadv] at hf
      obtain rfl := Except.ok.inj hf
      exact ⟨_, .arrived (hvacant d c hadv hcd)⟩
    | link j t rest =>
      simp only [hadv] at hf
      obtain ⟨hg, hstand⟩ := hthrough j t rest hadv
      obtain ⟨m, hm⟩ := ih (standing_startOf hstand t) hf
      exact ⟨m, .link hg hm⟩

end Transfer

/-- Once its directory has been made, the path leads there, whatever is put below. -/
theorem leadsTo_site (hwf : fs.WellFormed) {gs : FileSystem} {p : Path} {l : Location}
    (h : fs.site? p = some l) (hsame : SameOff l fs gs) (hdir : gs.get? l = some .directory) :
    ∃ m, gs.LeadsTo p m l := by
  obtain ⟨hc, -, hget, -, hlegal⟩ := site_spec hwf h
  obtain ⟨d, n, hnd, -, hr⟩ := resolve_of_site h
  rw [resolve_eq fs _ hc] at hr
  rw [← hsame.home] at hr
  have hstand : fs.Standing (startOf gs.workingDirectory p) :=
    standing_startOf (.inr (by simp [hsame.home])) p
  have hnamed := empty_not_mem_of_legal hlegal
  exact leads_to_site hwf hget hnamed hsame hdir rfl hstand hr hnd.symm

/-! ## Directories and those above them -/

theorem resolve_tidy (fs : FileSystem) (aim : Aim) {p : Path} (hne : p.components ≠ [])
    (hc : p.check = .ok ()) :
    fs.resolve aim p.tidy p.tidy.components =
      fs.follow aim (maxLinks + 1) (startOf fs.workingDirectory p) p.components := by
  rw [resolve_eq fs aim (Path.check_tidy hne hc), Path.components_tidy hne,
    startOf_congr (Path.isAbsolute_tidy hne)]

theorem createDirectories_eq (fs : FileSystem) {p : Path} (hne : p.components ≠ [])
    (hc : p.check = .ok ()) :
    fs.createDirectories p =
      match fs.createDirectory p.tidy with
      | .ok fs' => .ok fs'
      | .error .notFound =>
        (fs.createUpwards (Path.ofString (if p.isAbsolute then "/" else ""))
          p.components.reverse.tail).bind (·.createDirectory p.tidy)
      | .error e => if fs.isDirectory p.tidy then .ok fs else .error e := by
  have hpos : p.size ≠ 0 := by
    have := (Path.check_eq_ok_iff.1 hc).2.1
    omega
  rw [createDirectories, if_neg hpos, hc, Path.tidy]
  obtain ⟨c, above, hrev⟩ := List.exists_cons_of_ne_nil
    (show p.components.reverse ≠ [] by simpa using hne)
  rw [hrev]
  rfl

/-- What a path leads to decides whether it is a directory. -/
theorem isDirectory_tidy {p : Path} {m : Nat} {k : Location} {e : Entry}
    (hne : p.components ≠ []) (hc : p.check = .ok ()) (h : fs.LeadsTo p m k)
    (he : fs.get? k = some e) : fs.isDirectory p.tidy = e.isDirectory := by
  have htidy : fs.LeadsTo p.tidy m k := by
    rw [LeadsTo, Path.components_tidy hne, startOf_congr (Path.isAbsolute_tidy hne)]
    exact h
  rw [isDirectory, status]
  cases hl : fs.locate p.tidy with
  | ok j =>
    obtain ⟨-, m', hm'⟩ := leadsTo_of_locate hl
    obtain rfl : k = j := by simpa using htidy.follow_eq.symm.trans hm'.follow_eq
    simp [Except.map, entryAt, he]
  | error x =>
    cases hdir : e.isDirectory with
    | false => rfl
    | true =>
      have henter : fs.canEnter k := by
        rw [canEnter, he]
        exact hdir
      simp [locate_of_leadsTo (Path.check_tidy hne hc) htidy henter] at hl

end FileSystem

end Stencil
