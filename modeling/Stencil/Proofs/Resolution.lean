import Stencil.Proofs.JoinedPath
import Stencil.Proofs.WellFormed

/-!
Where paths lead, one stretch after the other.

`Leads n l cs m k` says that following `cs` from `l` leads to `k`, and that of `n` stretches `m`
are left. What comes behind `cs` is then followed from `k` (`Leads.follow_append`), so that a
joined path is understood from the path it was joined to.
-/

namespace Stencil

def Entry.isLink : Entry → Bool
  | link _ => true
  | _ => false

/-- Why a path can be refused, whatever the call is for. -/
def SystemError.isOfPath : SystemError → Bool
  | notFound | isADirectory | notADirectory | invalidInput | nameTooLong | tooManyLinks => true
  | _ => false

namespace FileSystem

variable {fs : FileSystem}

/-- Going on behind `cs`: where `cs` leads decides. -/
theorem advance_append (aim : Aim) (l : Location) (cs : List String) {rest : List String}
    (hne : rest ≠ []) (haim : aim = .file → "" ∉ rest) :
    fs.advance aim l (cs ++ rest) =
      match fs.advance .target l cs with
      | .arrived (.found k) => fs.advance aim k rest
      | .arrived (.vacant _ _) => .failed .notFound
      | .link d t behind => .link d t (behind ++ rest)
      | .failed e => .failed e := by
  induction cs generalizing l with
  | nil => rfl
  | cons c cs ih =>
    have hslash : (decide (aim = .file) && decide (cs ++ rest = [""])) = false := by
      rw [Bool.and_eq_false_iff, decide_eq_false_iff_not, decide_eq_false_iff_not]
      by_cases hfile : aim = .file
      · right
        intro heq
        rcases List.append_eq_singleton_iff.1 heq with ⟨-, h⟩ | ⟨-, h⟩
        · exact haim hfile (by simp [h])
        · exact hne h
      · exact .inl hfile
    have hrest : (cs ++ rest).isEmpty = false := by simp [hne]
    rw [List.cons_append, advance, advance, hslash, hrest]
    by_cases henter : fs.canEnter l
    · simp only [henter, Bool.not_true, Bool.false_eq_true, if_false]
      by_cases hdot : (decide (c = "") || decide (c = ".")) = true
      · simp only [hdot, if_true]
        exact ih l
      · simp only [hdot]
        by_cases hdots : c = ".."
        · simp only [hdots, if_true]
          exact ih l.tail
        · simp only [hdots, if_false]
          by_cases hlong : c.utf8ByteSize > maxNameSize
          · simp [hlong]
          · simp only [hlong, if_false]
            cases hget : fs.get? (c :: l) with
            | none => cases cs <;> simp
            | some e =>
              cases e with
              | link t => cases cs <;> simp
              | directory => exact ih _
              | file bytes => exact ih _
              | pipe => exact ih _
              | socket => exact ih _
    · simp [henter]

/-- A component that names an entry. -/
def Names (c : String) : Prop := c ≠ "" ∧ c ≠ "." ∧ c ≠ ".." ∧ c.utf8ByteSize ≤ maxNameSize

/-- The component `c` leads from `l` to `k` and not over a link. -/
inductive Moves (fs : FileSystem) (l : Location) (c : String) : Location → Prop
  | stay : c = "" ∨ c = "." → Moves fs l c l
  | up : c = ".." → Moves fs l c l.tail
  | enter (e : Entry) : Names c → fs.get? (c :: l) = some e → e.isLink = false →
      Moves fs l c (c :: l)

/-- Everything that one component can lead to, if the way does not end there with a refusal. -/
theorem advance_cons_cases {aim : Aim} {l : Location} {c : String} {rest : List String}
    {x : Progress} (h : fs.advance aim l (c :: rest) = x) (hx : ∀ e, x ≠ .failed e) :
    fs.canEnter l ∧
      ((∃ k, fs.Moves l c k ∧ fs.advance aim k rest = x) ∨
        (Names c ∧ fs.get? (c :: l) = none ∧ rest = [] ∧ x = .arrived (.vacant l c)) ∨
        ∃ t, Names c ∧ fs.get? (c :: l) = some (.link t) ∧
          x = if rest = [] ∧ aim = .entry then .arrived (.found (c :: l)) else .link l t rest) := by
  rw [advance] at h
  split at h
  · exact absurd h.symm (hx _)
  · rename_i henter
    refine ⟨by simpa using henter, ?_⟩
    split at h
    · rename_i hdot
      exact .inl ⟨l, .stay (by simpa using hdot), h⟩
    · rename_i hdot
      split at h
      · rename_i hdots
        exact .inl ⟨l.tail, .up hdots, h⟩
      · rename_i hdots
        split at h
        · exact absurd h.symm (hx _)
        · split at h
          · exact absurd h.symm (hx _)
          · rename_i hlong
            simp only [Bool.or_eq_true, decide_eq_true_eq, not_or] at hdot
            have hnames : Names c := ⟨hdot.1, hdot.2, hdots, by omega⟩
            split at h
            · rename_i hget
              split at h
              · rename_i hempty
                exact .inr (.inl ⟨hnames, hget, List.isEmpty_iff.1 hempty, h.symm⟩)
              · exact absurd h.symm (hx _)
            · rename_i t hget
              refine .inr (.inr ⟨t, hnames, hget, h.symm.trans ?_⟩)
              simp only [Bool.and_eq_true, List.isEmpty_iff, decide_eq_true_eq]
            · rename_i e hlink hget
              refine .inl ⟨c :: l, .enter e hnames hget ?_, h⟩
              cases e with
              | link t => exact absurd rfl (hlink t)
              | _ => rfl

theorem advance_of_moves {aim : Aim} {l k : Location} {c : String} {rest : List String}
    (hl : fs.canEnter l) (h : fs.Moves l c k) (hslash : aim = .file → rest ≠ [""]) :
    fs.advance aim l (c :: rest) = fs.advance aim k rest := by
  rw [advance]
  cases h with
  | stay hc => simp [hl, hc]
  | up hc => simp [hl, hc]
  | enter e hc hget hlink =>
    obtain ⟨hempty, hdot, hdots, hlong⟩ := hc
    have hnot : ¬ c.utf8ByteSize > maxNameSize := by omega
    have hfile : ¬ (aim = .file ∧ rest = [""]) := fun hf => hslash hf.1 hf.2
    cases e with
    | link t => simp [Entry.isLink] at hlink
    | _ => simp [hl, hempty, hdot, hdots, hnot, hfile, hget]

theorem advance_link {aim : Aim} {l : Location} {c : String} {rest : List String} {t : Path}
    (hl : fs.canEnter l) (hc : Names c) (hget : fs.get? (c :: l) = some (.link t))
    (haim : (rest = [] → aim ≠ .entry) ∧ (aim = .file → rest ≠ [""])) :
    fs.advance aim l (c :: rest) = .link l t rest := by
  obtain ⟨hempty, hdot, hdots, hlong⟩ := hc
  have hnot : ¬ c.utf8ByteSize > maxNameSize := by omega
  have hfile : ¬ (aim = .file ∧ rest = [""]) := fun hf => haim.2 hf.1 hf.2
  have hentry : ¬ (rest = [] ∧ aim = .entry) := fun he => haim.1 he.1 he.2
  rw [advance]
  simp [hl, hempty, hdot, hdots, hnot, hfile, hget, hentry]

/-- Following `cs` from `l` over at most `n` stretches leads to `k`, and `m` are left. -/
inductive Leads (fs : FileSystem) : Nat → Location → List String → Nat → Location → Prop
  | arrived {n l cs k} : fs.advance .target l cs = .arrived (.found k) →
      Leads fs (n + 1) l cs (n + 1) k
  | link {n l cs d t behind m k} : fs.advance .target l cs = .link d t behind →
      Leads fs n (startOf d t) (t.steps ++ behind) m k → Leads fs (n + 1) l cs m k

theorem Leads.pos {n m : Nat} {l k : Location} {cs : List String} (h : fs.Leads n l cs m k) :
    0 < m := by
  induction h with
  | arrived => exact Nat.succ_pos _
  | link _ _ ih => exact ih

/-- What comes behind is followed from where the way in front of it leads. -/
theorem Leads.follow_append {n m : Nat} {l k : Location} {cs : List String}
    (h : fs.Leads n l cs m k) (aim : Aim) {rest : List String} (hne : rest ≠ [])
    (haim : aim = .file → "" ∉ rest) :
    fs.follow aim n l (cs ++ rest) = fs.follow aim m k rest := by
  induction h with
  | arrived h => rw [follow, follow, advance_append aim _ _ hne haim, h]
  | link h _ ih => rw [follow, advance_append aim _ _ hne haim, h, ← ih, List.append_assoc]

/-- A stretch without a link can be added. -/
theorem Leads.append {n m : Nat} {l k j : Location} {cs rest : List String}
    (h : fs.Leads n l cs m k) (hne : rest ≠ [])
    (hrest : fs.advance .target k rest = .arrived (.found j)) : fs.Leads n l (cs ++ rest) m j := by
  induction h with
  | arrived h =>
    refine .arrived ?_
    rw [advance_append .target _ _ hne (by simp), h, ← hrest]
  | @link _ l cs d t behind _ _ h _ ih =>
    have hadv : fs.advance .target l (cs ++ rest) = .link d t (behind ++ rest) := by
      rw [advance_append .target _ _ hne (by simp), h]
    refine .link hadv ?_
    rw [← List.append_assoc]
    exact ih hrest

theorem Leads.follow_eq {n m : Nat} {l k : Location} {cs : List String}
    (h : fs.Leads n l cs m k) : fs.follow .target n l cs = .ok (.found k) := by
  induction h with
  | arrived h => rw [follow, h]
  | link h _ ih =>
    rw [follow, h]
    exact ih

theorem exists_leads {n : Nat} {l k : Location} {cs : List String}
    (h : fs.follow .target n l cs = .ok (.found k)) : ∃ m, fs.Leads n l cs m k := by
  induction n generalizing l cs with
  | zero => simp [follow] at h
  | succ n ih =>
    rw [follow] at h
    cases hadv : fs.advance .target l cs with
    | arrived p =>
      rw [hadv] at h
      obtain rfl := Except.ok.inj h
      exact ⟨_, .arrived hadv⟩
    | failed e => simp [hadv] at h
    | link d t behind =>
      rw [hadv] at h
      obtain ⟨m, hm⟩ := ih h
      exact ⟨m, .link hadv hm⟩

/-- Whoever arrives behind `rest` has come through where `cs` leads. -/
theorem exists_leads_of_append {n : Nat} {l k : Location} {cs rest : List String}
    (hne : rest ≠ []) (h : fs.follow .target n l (cs ++ rest) = .ok (.found k)) :
    ∃ m j, fs.Leads n l cs m j ∧ fs.follow .target m j rest = .ok (.found k) := by
  induction n generalizing l cs with
  | zero => simp [follow] at h
  | succ n ih =>
    rw [follow, advance_append .target _ _ hne (by simp)] at h
    cases hadv : fs.advance .target l cs with
    | arrived p =>
      rw [hadv] at h
      cases p with
      | found j => exact ⟨n + 1, j, .arrived hadv, by rw [follow]; exact h⟩
      | vacant d c => simp at h
    | failed e => simp [hadv] at h
    | link d t behind =>
      rw [hadv] at h
      have hrun : fs.follow .target n (startOf d t) (t.steps ++ behind ++ rest) =
          .ok (.found k) := by
        rw [List.append_assoc]
        exact h
      obtain ⟨m, j, hj, hrest⟩ := ih hrun
      exact ⟨m, j, .link hadv hj, hrest⟩

/-! ## Paths -/

/-- The path leads to `l`, a slash at its end apart, and then `m` stretches are left. -/
def LeadsTo (fs : FileSystem) (p : Path) (m : Nat) (l : Location) : Prop :=
  fs.Leads (maxLinks + 1) (startOf fs.workingDirectory p) p.components m l

theorem resolve_eq (fs : FileSystem) (aim : Aim) {p : Path} (h : p.check = .ok ())
    (steps : List String) :
    fs.resolve aim p steps =
      fs.follow aim (maxLinks + 1) (startOf fs.workingDirectory p) steps := by
  simp [resolve, h, bind, Except.bind]

theorem check_of_resolve {aim : Aim} {p : Path} {steps : List String} {place : Place}
    (h : fs.resolve aim p steps = .ok place) : p.check = .ok () := by
  cases hc : p.check with
  | ok u => rfl
  | error e => simp [resolve, hc, bind, Except.bind] at h

theorem locate_eq_ok_iff {p : Path} {l : Location} :
    fs.locate p = .ok l ↔ fs.resolve .target p p.steps = .ok (.found l) := by
  simp only [locate, bind, Except.bind]
  cases fs.resolve .target p p.steps with
  | error e => simp
  | ok place => cases place <;> simp [pure, Except.pure, throw, throwThe, MonadExceptOf.throw]

theorem locate_of_leadsTo {p : Path} {m : Nat} {l : Location} (hc : p.check = .ok ())
    (h : fs.LeadsTo p m l) (hl : fs.canEnter l) : fs.locate p = .ok l := by
  rw [locate_eq_ok_iff, resolve_eq fs _ hc, Path.steps]
  by_cases hslash : p.endsInSlash
  · obtain ⟨k, rfl⟩ : ∃ k, m = k + 1 := ⟨m - 1, by have := h.pos; omega⟩
    rw [if_pos hslash, h.follow_append .target (by simp) (by simp), follow, advance]
    simp [hl, advance]
  · rw [if_neg hslash, List.append_nil]
    exact h.follow_eq

theorem leadsTo_of_locate {p : Path} {l : Location} (h : fs.locate p = .ok l) :
    p.check = .ok () ∧ ∃ m, fs.LeadsTo p m l := by
  rw [locate_eq_ok_iff] at h
  have hc := check_of_resolve h
  refine ⟨hc, ?_⟩
  rw [resolve_eq fs _ hc, Path.steps] at h
  by_cases hslash : p.endsInSlash
  · rw [if_pos hslash] at h
    obtain ⟨m, j, hj, hrest⟩ := exists_leads_of_append (by simp) h
    obtain ⟨k, rfl⟩ : ∃ k, m = k + 1 := ⟨m - 1, by have := hj.pos; omega⟩
    -- the slash leads nowhere else
    have hjl : j = l := by
      rw [follow, advance] at hrest
      by_cases henter : fs.canEnter j
      · simpa [henter, advance] using hrest
      · simp [henter] at hrest
    exact ⟨_, hjl ▸ hj⟩
  · rw [if_neg hslash, List.append_nil] at h
    exact exists_leads h

theorem startOf_congr {p q : Path} (h : p.isAbsolute = q.isAbsolute) (d : Location) :
    startOf d p = startOf d q := by
  rw [startOf, startOf, h]

/-- A joined path is followed from where the path leads. -/
theorem resolve_join {p : Path} {m : Nat} {l : Location} {n : Name} (h : fs.LeadsTo p m l)
    (hn : n ≠ "") (hc : (p.join n).check = .ok ()) (aim : Aim) :
    fs.resolve aim (p.join n) (p.join n).steps = fs.follow aim m l [n] := by
  rw [resolve_eq fs _ hc, Path.steps_join p hn, startOf_congr (Path.isAbsolute_join p n)]
  exact h.follow_append aim (by simp) (by simp [hn.symm])

/-- A name that a directory is asked for. -/
theorem advance_name {l : Location} {n : Name} (aim : Aim) (hl : fs.canEnter l)
    (hn : LegalName n) :
    fs.advance aim l [n] =
      match fs.get? (n :: l) with
      | none => .arrived (.vacant l n)
      | some (.link t) => if aim = .entry then .arrived (.found (n :: l)) else .link l t []
      | some _ => .arrived (.found (n :: l)) := by
  have hlong : ¬ n.utf8ByteSize > maxNameSize := by
    have := hn.size_le
    omega
  rw [advance]
  simp only [hl, hn.ne_empty, hn.ne_dot, hn.ne_dots, hlong, Bool.not_true, Bool.false_eq_true,
    if_false, decide_false, Bool.or_false, List.isEmpty_nil, if_true, Bool.true_and]
  cases hget : fs.get? (n :: l) with
  | none => simp
  | some e => cases e <;> simp [advance]

theorem follow_name {m : Nat} {l : Location} {n : Name} {e : Entry} (aim : Aim) (hm : 0 < m)
    (hl : fs.canEnter l) (hn : LegalName n) (he : fs.get? (n :: l) = some e)
    (hlink : e.isLink = false) : fs.follow aim m l [n] = .ok (.found (n :: l)) := by
  obtain ⟨k, rfl⟩ : ∃ k, m = k + 1 := ⟨m - 1, by omega⟩
  rw [follow, advance_name aim hl hn, he]
  cases e with
  | link t => simp [Entry.isLink] at hlink
  | _ => rfl

theorem follow_name_vacant {m : Nat} {l : Location} {n : Name} (aim : Aim) (hm : 0 < m)
    (hl : fs.canEnter l) (hn : LegalName n) (hget : fs.get? (n :: l) = none) :
    fs.follow aim m l [n] = .ok (.vacant l n) := by
  obtain ⟨k, rfl⟩ : ∃ k, m = k + 1 := ⟨m - 1, by omega⟩
  rw [follow, advance_name aim hl hn, hget]

theorem canEnter_of_directory {l : Location} (h : fs.get? l = some .directory) :
    fs.canEnter l := by
  simp [canEnter, h, Entry.isDirectory]

theorem LeadsTo.join {p : Path} {m : Nat} {l : Location} {n : Name} {e : Entry}
    (h : fs.LeadsTo p m l) (hl : fs.canEnter l) (hn : LegalName n)
    (he : fs.get? (n :: l) = some e) (hlink : e.isLink = false) :
    fs.LeadsTo (p.join n) m (n :: l) := by
  rw [LeadsTo, Path.components_join p hn.ne_empty, startOf_congr (Path.isAbsolute_join p n)]
  have hadv : fs.advance .target l [n] = .arrived (.found (n :: l)) := by
    rw [advance_name .target hl hn, he]
    cases e with
    | link t => simp [Entry.isLink] at hlink
    | _ => rfl
  exact h.append (by simp) hadv

/-- Below a directory no link is met on the way to what stands there. -/
theorem LeadsTo.joinAll (hwf : fs.WellFormed) {p : Path} {m : Nat} {l : Location}
    (h : fs.LeadsTo p m l) {r : Location} {e : Entry}
    (he : fs.get? (r ++ l) = some e) (hlink : e.isLink = false) :
    fs.LeadsTo (p.joinAll r) m (r ++ l) := by
  induction r generalizing e with
  | nil => exact h
  | cons n r ih =>
    have hdir : fs.get? (r ++ l) = some .directory := hwf.parent (Option.isSome_of_eq_some he)
    exact (ih hdir rfl).join (canEnter_of_directory hdir)
      (hwf.legal (Option.isSome_of_eq_some he)) he hlink

/-! ## What can be wrong with a path -/

theorem isOfPath_refusal (fs : FileSystem) (l : Location) : (fs.refusal l).isOfPath := by
  rw [refusal]
  split <;> rfl

theorem advance_failed {aim : Aim} {l : Location} {cs : List String} {e : SystemError}
    (h : fs.advance aim l cs = .failed e) : e.isOfPath := by
  induction cs generalizing l with
  | nil => simp [advance] at h
  | cons c cs ih =>
    rw [advance] at h
    split at h
    · exact Progress.failed.inj h ▸ rfl
    split at h
    · exact ih h
    split at h
    · exact ih h
    split at h
    · exact Progress.failed.inj h ▸ rfl
    split at h
    · exact Progress.failed.inj h ▸ isOfPath_refusal fs l
    split at h
    · split at h
      · cases h
      · exact Progress.failed.inj h ▸ rfl
    · split at h <;> cases h
    · exact ih h

theorem follow_error {aim : Aim} {n : Nat} {l : Location} {cs : List String} {e : SystemError}
    (h : fs.follow aim n l cs = .error e) : e.isOfPath := by
  induction n generalizing l cs with
  | zero => exact Except.error.inj h ▸ rfl
  | succ n ih =>
    rw [follow] at h
    split at h
    · cases h
    · rename_i hadv
      exact Except.error.inj h ▸ advance_failed hadv
    · exact ih h

theorem check_error {p : Path} {e : SystemError} (h : p.check = .error e) : e.isOfPath := by
  rw [Path.check] at h
  split at h
  · exact Except.error.inj h ▸ rfl
  split at h
  · exact Except.error.inj h ▸ rfl
  split at h
  · exact Except.error.inj h ▸ rfl
  · cases h

theorem resolve_error {aim : Aim} {p : Path} {steps : List String} {e : SystemError}
    (h : fs.resolve aim p steps = .error e) : e.isOfPath := by
  cases hc : p.check with
  | ok u =>
    rw [resolve_eq fs aim hc] at h
    exact follow_error h
  | error x =>
    obtain rfl : x = e := by simpa [resolve, hc, bind, Except.bind] using h
    exact check_error hc

theorem locate_error {p : Path} {e : SystemError} (h : fs.locate p = .error e) : e.isOfPath := by
  rw [locate] at h
  cases hr : fs.resolve .target p p.steps with
  | error x =>
    obtain rfl : x = e := by simpa [hr, bind, Except.bind] using h
    exact resolve_error hr
  | ok place =>
    cases place with
    | found l => simp [hr, bind, Except.bind, pure, Except.pure] at h
    | vacant d n =>
      obtain rfl : SystemError.notFound = e := by
        simpa [hr, bind, Except.bind, throw, throwThe, MonadExceptOf.throw] using h
      rfl

end FileSystem

end Stencil
