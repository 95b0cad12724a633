import Stencil.Proofs.Walks

/-!
What a path comes by.

The trail of a path lists the places that are looked at when it is followed. A path whose trail
stays away from a place leads to the same whatever is put there (`locate_of_avoids`), and so does
a walk that does not reach it (`list_of_avoids`, `meet_of_avoids`).
-/

namespace Stencil

namespace FileSystem

/-- The places looked at on the way from `l` along the components, up to the first link. -/
def lookups (fs : FileSystem) (l : Location) : List String → List Location
  | [] => []
  | c :: rest =>
    if !fs.canEnter l then []
    else if c = "" || c = "." then fs.lookups l rest
    else if c = ".." then fs.lookups l.tail rest
    else (c :: l) :: match fs.get? (c :: l) with
      | none | some (.link _) => []
      | some _ => fs.lookups (c :: l) rest

/-- The places looked at on the way from `l` along the components, over at most `n` stretches. -/
def stretches (fs : FileSystem) : Nat → Location → List String → List Location
  | 0, _, _ => []
  | n + 1, l, steps =>
    fs.lookups l steps ++
      match fs.advance .target l steps with
      | .link d target rest => fs.stretches n (startOf d target) (target.steps ++ rest)
      | _ => []

/-- The places looked at when a path is followed to its end, over all links. -/
def trail (fs : FileSystem) (p : Path) : List Location :=
  fs.stretches (maxLinks + 1) (startOf fs.workingDirectory p) p.steps

/-- A walk through `root` that follows links reaches the place `l`: on the way along one of its
paths, or as what stands in one of its directories. -/
def Reaches (fs : FileSystem) (root : Path) (l : Location) : Prop :=
  ∃ p ∈ root :: (fs.walk true root).map Step.path,
    (fs.locate p).toOption = some l.tail ∨ ∃ k ∈ fs.trail p, l <:+ k

instance (fs : FileSystem) (root : Path) (l : Location) : Decidable (fs.Reaches root l) :=
  inferInstanceAs (Decidable (∃ p ∈ root :: (fs.walk true root).map Step.path, _ ∨ _))

variable {fs gs : FileSystem} {l : Location}

/-- The path is followed without a look at `l` or below. -/
def Avoids (fs : FileSystem) (l : Location) (p : Path) : Prop := ∀ k ∈ fs.trail p, ¬ l <:+ k

section SameOff

variable (hsame : SameOff l fs gs)

include hsame

theorem advance_of_avoids {d : Location} {cs : List String} (hd : ¬ l <:+ d)
    (havoid : ∀ k ∈ fs.lookups d cs, ¬ l <:+ k) :
    gs.advance .target d cs = fs.advance .target d cs ∧
      (∀ k, fs.advance .target d cs = .arrived (.found k) → ¬ l <:+ k) ∧
      ∀ k t rest, fs.advance .target d cs = .link k t rest → ¬ l <:+ k := by
  induction cs generalizing d with
  | nil =>
    refine ⟨rfl, ?_, ?_⟩
    · rintro k hk
      obtain rfl : d = k := by simpa [advance] using hk
      exact hd
    · simp [advance]
  | cons c cs ih =>
    have hdir : gs.get? d = fs.get? d := hsame.outside hd
    have henter : gs.canEnter d = fs.canEnter d := by rw [canEnter, canEnter, hdir]
    have hrefusal : gs.refusal d = fs.refusal d := by rw [refusal, refusal, hdir]
    rw [lookups] at havoid
    rw [advance, advance, henter, hrefusal]
    by_cases hcan : fs.canEnter d
    · simp only [hcan, Bool.not_true, Bool.false_eq_true, if_false] at havoid ⊢
      by_cases hdot : (decide (c = "") || decide (c = ".")) = true
      · simp only [hdot, if_true] at havoid ⊢
        exact ih hd havoid
      · simp only [hdot] at havoid ⊢
        by_cases hdots : c = ".."
        · simp only [hdots, if_true] at havoid ⊢
          exact ih (fun hl => hd (hl.trans (List.tail_suffix d))) havoid
        · simp only [hdots, if_false] at havoid ⊢
          obtain ⟨hc, hrest⟩ := List.forall_mem_cons.1 havoid
          rw [hsame.outside hc]
          by_cases hlong : c.utf8ByteSize > maxNameSize
          · simp [hlong]
          · simp only [hlong, if_false]
            cases hget : fs.get? (c :: d) with
            | none => cases cs <;> simp
            | some e =>
              rw [hget] at hrest
              cases e with
              | link t => simp [hd]
              | _ => exact ih hc hrest
    · simp [hcan]

theorem follow_of_avoids {n : Nat} {d : Location} {steps : List String} (hne : l ≠ [])
    (hd : ¬ l <:+ d) (havoid : ∀ k ∈ fs.stretches n d steps, ¬ l <:+ k) :
    gs.follow .target n d steps = fs.follow .target n d steps ∧
      ∀ k, fs.follow .target n d steps = .ok (.found k) → ¬ l <:+ k := by
  induction n generalizing d steps with
  | zero => simp [follow]
  | succ n ih =>
    rw [stretches] at havoid
    obtain ⟨hfirst, hrest⟩ := List.forall_mem_append.1 havoid
    obtain ⟨hadv, hfound, hlink⟩ := advance_of_avoids hsame hd hfirst
    rw [follow, follow, hadv]
    cases h : fs.advance .target d steps with
    | arrived p =>
      refine ⟨rfl, ?_⟩
      rintro k hk
      obtain rfl := Except.ok.inj hk
      exact hfound k h
    | failed e => simp
    | link k t rest =>
      rw [h] at hrest
      have hstart : ¬ l <:+ startOf k t := by
        rw [startOf]
        split
        · simpa using hne
        · exact hlink k t rest h
      exact ih hstart hrest

variable (hwf : fs.WellFormed) (hl : fs.get? l = none) (hnamed : "" ∉ l)

include hwf hl hnamed

theorem locate_of_avoids {p : Path} (h : fs.Avoids l p) :
    gs.locate p = fs.locate p ∧ ∀ k, fs.locate p = .ok k → ¬ l <:+ k := by
  have hne : l ≠ [] := by
    rintro rfl
    simp at hl
  have hstart : ¬ l <:+ startOf fs.workingDirectory p := by
    rw [startOf]
    split
    · simpa using hne
    · exact hwf.not_suffix_home hl hnamed
  obtain ⟨hfollow, hfound⟩ := follow_of_avoids hsame hne hstart h
  constructor
  · rw [locate, locate, resolve, resolve, hsame.home, hfollow]
  · intro k hk
    rw [locate_eq_ok_iff] at hk
    rw [resolve_eq fs _ (check_of_resolve hk)] at hk
    exact hfound k hk

theorem status_of_avoids {p : Path} (h : fs.Avoids l p) : gs.status p = fs.status p := by
  obtain ⟨hlocate, hfound⟩ := locate_of_avoids hsame hwf hl hnamed h
  rw [status, status, hlocate]
  cases hk : fs.locate p with
  | error e => rfl
  | ok k => simp [Except.map, entryAt, hsame.outside (hfound k hk)]

theorem list_of_avoids {p : Path} (h : fs.Avoids l p)
    (hparent : (fs.locate p).toOption ≠ some l.tail) : gs.list p = fs.list p := by
  obtain ⟨hlocate, hfound⟩ := locate_of_avoids hsame hwf hl hnamed h
  rw [list, list, hlocate]
  cases hk : fs.locate p with
  | error e => rfl
  | ok k =>
    have hk' := hfound k hk
    have hentry : gs.entryAt k = fs.entryAt k := by rw [entryAt, entryAt, hsame.outside hk']
    have hnames : gs.names k = fs.names k := by
      refine names_congr fun n => ?_
      have hn : ¬ l <:+ n :: k := by
        intro hln
        rcases List.suffix_cons_iff.1 hln with rfl | hlk
        · simp [hk, Except.toOption] at hparent
        · exact hk' hlk
      rw [hsame.outside hn]
    simp only [bind, Except.bind, hentry, hnames]

theorem meet_of_avoids {follow : Bool} {inside : List Location} {d : Location} {n : Name} {p : Path}
    (h : fs.Avoids l p) (hn : (fs.get? (n :: d)).isSome) :
    gs.meet follow inside d n p = fs.meet follow inside d n p := by
  obtain ⟨hlocate, hfound⟩ := locate_of_avoids hsame hwf hl hnamed h
  rw [meet, meet, hsame.outside (hwf.not_suffix hl hn), hlocate]
  cases hk : fs.locate p with
  | error e => rfl
  | ok k =>
    have hentry : gs.entryAt k = fs.entryAt k := by
      rw [entryAt, entryAt, hsame.outside (hfound k hk)]
    simp only [bind, Except.bind, hentry]

end SameOff

/-! ## Walks -/

section Walks

variable {root : Path} (hreach : ¬ fs.Reaches root l)

include hreach

theorem avoids_of_not_reaches {p : Path}
    (hp : p ∈ root :: (fs.walk true root).map Step.path) :
    fs.Avoids l p ∧ (fs.locate p).toOption ≠ some l.tail := by
  constructor
  · intro k hk hlk
    exact hreach ⟨p, hp, .inr ⟨k, hk, hlk⟩⟩
  · intro hparent
    exact hreach ⟨p, hp, .inl hparent⟩

variable (hwf : fs.WellFormed)

include hwf

theorem Meets.avoids (hroot : fs.status root = .ok .directory) {s : Step}
    (h : fs.Meets true root s) : fs.Avoids l s.path ∧ (fs.locate s.path).toOption ≠ some l.tail :=
  avoids_of_not_reaches hreach
    (List.mem_cons_of_mem _ (List.mem_map_of_mem ((mem_walk_iff hwf hroot).2 h)))

end Walks

end FileSystem

end Stencil
