import Stencil.Proofs.NewDirectory
import Stencil.Proofs.Overwriting

/-!
Files that are written, wherever their paths lead.

A call that writes a file leaves the bytes where its path leads: in the file that was there, in
the one that links lead to, or in a new one (`read_of_write`). No path leads to another place than
before because of it (`target?_of_write`).
-/

namespace Stencil

/-- The location of a place, whether something stands there or not. -/
def Place.location : Place → Location
  | .found l => l
  | .vacant d n => n :: d

namespace FileSystem

variable {fs gs : FileSystem} {p : Path}

/-! ## Reading what was written -/

/-- A way ends at a name that its directory does not hold. -/
theorem advance_absent {aim : Aim} {l : Location} {c : String} (hl : fs.canEnter l)
    (hc : Names c) (hget : fs.get? (c :: l) = none) :
    fs.advance aim l [c] = .arrived (.vacant l c) := by
  obtain ⟨hempty, hdot, hdots, hlong⟩ := hc
  have hnot : ¬ c.utf8ByteSize > maxNameSize := by omega
  rw [advance]
  simp [hl, hempty, hdot, hdots, hnot, hget]

/-- A way to a file to write is a way to what stands there. -/
theorem advance_target_of_file {l : Location} {cs : List String} {x : Progress}
    (h : fs.advance .file l cs = x) (hx : ∀ e, x ≠ .failed e) :
    fs.advance .target l cs = x := by
  induction cs generalizing l with
  | nil => exact h
  | cons c rest ih =>
    obtain ⟨henter, ⟨k, hk, hrest⟩ | ⟨hc, hget, rfl, rfl⟩ | ⟨t, hc, hget, rfl⟩⟩ :=
      advance_cons_cases h hx
    · rw [advance_of_moves henter hk (by simp)]
      exact ih hrest
    · exact advance_absent henter hc hget
    · have hlink : fs.advance .target l (c :: rest) = .link l t rest :=
        advance_link henter hc hget (by simp)
      simpa using hlink

theorem follow_target_of_file {n : Nat} {l : Location} {cs : List String} {place : Place}
    (h : fs.follow .file n l cs = .ok place) : fs.follow .target n l cs = .ok place := by
  induction n generalizing l cs with
  | zero => simp [follow] at h
  | succ n ih =>
    rw [follow] at h ⊢
    cases hadv : fs.advance .file l cs with
    | failed e => simp [hadv] at h
    | arrived q =>
      rw [advance_target_of_file hadv (by simp)]
      simpa [hadv] using h
    | link d t rest =>
      rw [advance_target_of_file hadv (by simp)]
      rw [hadv] at h
      exact ih h

theorem resolve_target_of_file {steps : List String} {place : Place}
    (h : fs.resolve .file p steps = .ok place) : fs.resolve .target p steps = .ok place := by
  have hc := check_of_resolve h
  rw [resolve_eq fs _ hc] at h ⊢
  exact follow_target_of_file h

/-- What a call to write a file came upon, and what it made of it. -/
theorem write_cases {bytes : ByteArray} (h : fs.write p bytes = .ok gs) :
    (∃ l old, fs.locate p = .ok l ∧ fs.get? l = some (.file old) ∧
      gs = fs.set l (.file bytes)) ∨
    ∃ d n, p.check = .ok () ∧
      fs.follow .target (maxLinks + 1) (startOf fs.workingDirectory p) p.steps =
        .ok (.vacant d n) ∧
      fs.get? d = some .directory ∧ gs = fs.set (n :: d) (.file bytes) := by
  rw [write] at h
  cases hr : fs.resolve .file p p.steps with
  | error e => simp [hr, bind, Except.bind] at h
  | ok place =>
    have htarget := resolve_target_of_file hr
    rw [hr] at h
    cases place with
    | found l =>
      left
      cases hget : fs.get? l with
      | none => simp [bind, Except.bind, entryAt, hget, throw, throwThe, MonadExceptOf.throw] at h
      | some e =>
        cases e with
        | file old =>
          simp only [bind, Except.bind, entryAt, hget, Option.getD_some] at h
          exact ⟨l, old, locate_eq_ok_iff.2 htarget, hget, (Except.ok.inj h).symm⟩
        | _ => simp [bind, Except.bind, entryAt, hget, throw, throwThe, MonadExceptOf.throw] at h
    | vacant d n =>
      right
      have hc := check_of_resolve hr
      rw [resolve_eq fs _ hc] at htarget
      simp only [bind, Except.bind, add] at h
      split at h
      · rename_i hd
        exact ⟨d, n, hc, htarget, hd, (Except.ok.inj h).symm⟩
      · simp at h

/-- Only a pipe keeps a call that writes a file from coming back. -/
theorem status_of_write_waiting {bytes : ByteArray} (h : fs.write p bytes = .error .waiting) :
    fs.status p = .ok .pipe := by
  rw [write] at h
  cases hr : fs.resolve .file p p.steps with
  | error e =>
    obtain rfl : e = .waiting := by simpa [hr, bind, Except.bind] using h
    exact absurd (resolve_error hr) (by simp [SystemError.isOfPath])
  | ok place =>
    rw [hr] at h
    cases place with
    | found l =>
      rw [status, locate_eq_ok_iff.2 (resolve_target_of_file hr)]
      cases hentry : fs.entryAt l with
      | pipe => simp [Except.map, hentry]
      | _ => simp [bind, Except.bind, hentry, pure, Except.pure, throw, throwThe,
          MonadExceptOf.throw] at h
    | vacant d n =>
      simp only [bind, Except.bind, add] at h
      split at h <;> simp at h

theorem read_of_locate {l : Location} {bytes : ByteArray} (h : fs.locate p = .ok l)
    (hget : fs.get? l = some (.file bytes)) : fs.read p = .ok bytes := by
  simp [read, status, h, entryAt, hget, Except.map, bind, Except.bind, pure, Except.pure]

/-- What has been written to a file is read from it. -/
theorem read_of_write (hwf : fs.WellFormed) {bytes : ByteArray}
    (h : fs.write p bytes = .ok gs) : gs.read p = .ok bytes := by
  obtain ⟨l, old, hlocate, hget, rfl⟩ | ⟨d, n, hc, hfollow, hd, rfl⟩ := write_cases h
  · have hshape : SameShape fs (fs.set l (.file bytes)) := (SameShape.refl fs).set hget bytes
    have hne : l ≠ [] := by
      rintro rfl
      simp at hget
    apply read_of_locate ((hshape.locate_eq p).trans hlocate)
    rw [get?_set fs hne, if_pos rfl]
  · obtain ⟨hnone, hn⟩ := follow_vacant hfollow
    have hnamed : "" ∉ n :: d := by
      have habove := empty_not_mem_of_legal (hwf.legal_names (Option.isSome_of_eq_some hd))
      simp [habove, hn.1.symm]
    have hhere : (fs.set (n :: d) (.file bytes)).get? (n :: d) = some (.file bytes) := by
      rw [get?_set fs (List.cons_ne_nil n d), if_pos rfl]
    have hsame : SameOff (n :: d) fs (fs.set (n :: d) (.file bytes)) :=
      SameOff.set ⟨fun _ => rfl, rfl⟩ (List.suffix_refl _) (by simp) _
    -- the path now leads through the vacant name to the new file
    have hstand : fs.Standing (startOf fs.workingDirectory p) :=
      standing_startOf (.inr (List.suffix_refl _)) p
    obtain ⟨m, hm⟩ := leads_to_site hwf hnone hnamed hsame hhere rfl hstand hfollow rfl
    apply read_of_locate _ hhere
    rw [locate_eq_ok_iff, resolve_eq _ _ hc]
    exact hm.follow_eq

/-! ## Where other paths lead -/

/-- The location to which a path leads through all links, whether something stands there or not. -/
def target? (fs : FileSystem) (p : Path) : Option Location :=
  match fs.resolve .target p p.steps with
  | .ok place => some place.location
  | .error _ => none

theorem target?_eq_some_iff {k : Location} : fs.target? p = some k ↔
    ∃ place, fs.resolve .target p p.steps = .ok place ∧ place.location = k := by
  rw [target?]
  cases fs.resolve .target p p.steps <;> simp

/-- What stands where a path leads is what the path names. -/
theorem status_of_target? {k : Location} {e : Entry} (h : fs.target? p = some k)
    (he : fs.get? k = some e) : fs.status p = .ok e := by
  obtain ⟨place, hr, rfl⟩ := target?_eq_some_iff.1 h
  cases place with
  | found l =>
    have hget : fs.get? l = some e := he
    rw [status, locate_eq_ok_iff.2 hr]
    simp [Except.map, entryAt, hget]
  | vacant d n =>
    rw [resolve_eq fs _ (check_of_resolve hr)] at hr
    simp [Place.location, (follow_vacant hr).1] at he

/-- What a path names stands where the path leads; only a directory may have been removed. -/
theorem exists_target_of_status {e : Entry} (h : fs.status p = .ok e) (he : e ≠ .directory) :
    ∃ k, fs.target? p = some k ∧ fs.get? k = some e := by
  rw [status] at h
  cases hl : fs.locate p with
  | error x => simp [hl, Except.map] at h
  | ok l =>
    have hentry : fs.entryAt l = e := by simpa [hl, Except.map] using h
    refine ⟨l, target?_eq_some_iff.2 ⟨_, locate_eq_ok_iff.1 hl, rfl⟩, ?_⟩
    rw [entryAt] at hentry
    cases hget : fs.get? l with
    | none => exact absurd (by simpa [hget] using hentry.symm) he
    | some x => simpa [hget] using hentry

/-- A call that writes a file puts it where its path leads, over a file or where nothing stood. -/
theorem exists_target_of_write {bytes : ByteArray} (h : fs.write p bytes = .ok gs) :
    ∃ k, fs.target? p = some k ∧ k ≠ [] ∧ gs = fs.set k (.file bytes) ∧
      ((∃ old, fs.get? k = some (.file old)) ∨ fs.get? k = none) := by
  obtain ⟨l, old, hlocate, hget, rfl⟩ | ⟨d, n, hc, hfollow, hd, rfl⟩ := write_cases h
  · have htarget := target?_eq_some_iff.2 ⟨_, locate_eq_ok_iff.1 hlocate, rfl⟩
    refine ⟨l, htarget, ?_, rfl, .inl ⟨old, hget⟩⟩
    rintro rfl
    simp at hget
  · rw [← resolve_eq fs _ hc] at hfollow
    refine ⟨n :: d, target?_eq_some_iff.2 ⟨_, hfollow, rfl⟩, by simp, rfl, .inr ?_⟩
    rw [resolve_eq fs _ hc] at hfollow
    exact (follow_vacant hfollow).1

section

variable {k : Location} {bytes : ByteArray} (hk : k ≠ []) (hnone : fs.get? k = none)

include hk

theorem canEnter_before_set {l : Location} (h : (fs.set k (.file bytes)).canEnter l) :
    fs.canEnter l := by
  rw [canEnter, get?_set fs hk] at h
  by_cases hlk : l = k
  · simp [hlk, Entry.isDirectory] at h
  · rw [if_neg hlk] at h
    exact h

theorem get?_before_set {j : Location} {e? : Option Entry}
    (h : (fs.set k (.file bytes)).get? j = e?) (hfile : e? ≠ some (.file bytes)) :
    fs.get? j = e? := by
  rw [get?_set fs hk] at h
  split at h
  · exact absurd h.symm hfile
  · exact h

include hnone

/-- Before there was a new file at `k`, a way led to the same place, which was vacant if it is
that of the file. -/
theorem advance_before_set {l : Location} {cs : List String} {x : Progress}
    (h : (fs.set k (.file bytes)).advance .target l cs = x) (hx : ∀ e, x ≠ .failed e) :
    fs.advance .target l cs = x ∨
      ∃ d n, n :: d = k ∧ x = .arrived (.found k) ∧
        fs.advance .target l cs = .arrived (.vacant d n) := by
  induction cs generalizing l with
  | nil => exact .inl h
  | cons c rest ih =>
    obtain ⟨henter, ⟨j, hj, hrest⟩ | ⟨hc, hget, rfl, rfl⟩ | ⟨t, hc, hget, rfl⟩⟩ :=
      advance_cons_cases h hx
    all_goals have hl := canEnter_before_set hk henter
    · cases hj with
      | stay hc =>
        rw [advance_of_moves hl (.stay hc) (by simp)]
        exact ih hrest
      | up hc =>
        rw [advance_of_moves hl (.up hc) (by simp)]
        exact ih hrest
      | enter e hc hget hlink =>
        by_cases hck : c :: l = k
        · -- a file can only be the end of the way
          cases rest with
          | nil => exact .inr ⟨l, c, hck, hck ▸ hrest.symm, advance_absent hl hc (hck ▸ hnone)⟩
          | cons r rest =>
            obtain ⟨hfile, -⟩ := advance_cons_cases hrest hx
            simp [hck, canEnter, get?_set fs hk, Entry.isDirectory] at hfile
        · rw [get?_set fs hk, if_neg hck] at hget
          rw [advance_of_moves hl (.enter e hc hget hlink) (by simp)]
          exact ih hrest
    · exact .inl (advance_absent hl hc (get?_before_set hk hget (by simp)))
    · left
      simpa using advance_link hl hc (get?_before_set hk hget (by simp)) (by simp)

theorem follow_before_set {n : Nat} {l : Location} {cs : List String} {place : Place}
    (h : (fs.set k (.file bytes)).follow .target n l cs = .ok place) :
    ∃ place', fs.follow .target n l cs = .ok place' ∧ place'.location = place.location := by
  induction n generalizing l cs with
  | zero => simp [follow] at h
  | succ n ih =>
    rw [follow] at h ⊢
    cases hadv : (fs.set k (.file bytes)).advance .target l cs with
    | failed e => simp [hadv] at h
    | arrived q =>
      rw [hadv] at h
      obtain rfl := Except.ok.inj h
      obtain hsame | ⟨d, c, hdc, hx, hvacant⟩ := advance_before_set hk hnone hadv (by simp)
      · exact ⟨q, by rw [hsame], rfl⟩
      · obtain rfl := Progress.arrived.inj hx
        exact ⟨.vacant d c, by rw [hvacant], hdc⟩
    | link d t rest =>
      rw [hadv] at h
      obtain hsame | ⟨-, -, -, hx, -⟩ := advance_before_set hk hnone hadv (by simp)
      · rw [hsame]
        exact ih h
      · cases hx

end

/-- Where a path leads once a file has been written, it led before. -/
theorem target?_of_write {q : Path} {bytes : ByteArray} {k : Location}
    (h : fs.write p bytes = .ok gs) (hk : gs.target? q = some k) : fs.target? q = some k := by
  obtain ⟨place, hr, rfl⟩ := target?_eq_some_iff.1 hk
  have hc := check_of_resolve hr
  rw [resolve_eq _ _ hc] at hr
  rw [target?_eq_some_iff, resolve_eq fs _ hc]
  obtain ⟨j, -, hj, rfl, ⟨old, hold⟩ | hnone⟩ := exists_target_of_write h
  · have hshape : SameShape fs (fs.set j (.file bytes)) := (SameShape.refl fs).set hold bytes
    rw [workingDirectory_set, hshape.follow_eq] at hr
    exact ⟨place, hr, rfl⟩
  · exact follow_before_set hj hnone hr

/-- No path leads to a pipe because a file has been written. -/
theorem status_pipe_of_write {q : Path} {bytes : ByteArray} (h : fs.write p bytes = .ok gs)
    (hq : gs.status q = .ok .pipe) : fs.status q = .ok .pipe := by
  obtain ⟨k, htarget, hk⟩ := exists_target_of_status hq (by simp)
  obtain ⟨j, -, hj, rfl, -⟩ := exists_target_of_write h
  exact status_of_target? (target?_of_write h htarget) (get?_before_set hj hk (by simp))

end FileSystem

end Stencil
