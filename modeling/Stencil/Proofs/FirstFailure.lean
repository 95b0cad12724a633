import Stencil.Proofs.FilledTree
import Stencil.Proofs.WalkOrder

/-!
Why filling in fails.

`Offends` says what keeps the files below a root from being filled in. Main statement: filling in
fails exactly when something offends, as the first that does in the order of the walk, and then
nothing has been written (`fillDirectory_failure`).
-/

namespace Stencil

open FileSystem Run

/-- What stands at `k` below the root keeps the files from being filled in, with this failure. -/
inductive Offends (fs : FileSystem) (root : Path) (l : Location) (bindings : Bindings)
    (policy : Policy) : Location → Failure → Prop
  /-- A text with a name that has no value. -/
  | unresolved {k b text name} : fs.get? (k ++ l) = some (.file b) → textOf? b = some text →
      policy = .fail → firstUnbound? bindings text = some name →
      (root.joinAll k).size ≤ maxPathSize →
      Offends fs root l bindings policy k (.unresolved (root.joinAll k) name)
  /-- A file on a path that is too long. -/
  | unread {k b} : fs.get? (k ++ l) = some (.file b) → maxPathSize < (root.joinAll k).size →
      Offends fs root l bindings policy k
        (.system ("reading " ++ (root.joinAll k).toString) .nameTooLong)
  /-- A directory on a path that is too long. -/
  | unlisted {k} : fs.get? (k ++ l) = some .directory → maxPathSize < (root.joinAll k).size →
      Offends fs root l bindings policy k
        (.system ("walking " ++ root.toString) .nameTooLong)

variable {bindings : Bindings} {policy : Policy} {gs : FileSystem} {root : Path} {l : Location}
  {e : Failure} {w : World}

theorem Offends.isSome {k : Location} (h : Offends gs root l bindings policy k e) :
    (gs.get? (k ++ l)).isSome := by
  cases h with
  | unresolved hb => exact Option.isSome_of_eq_some hb
  | unread hb => exact Option.isSome_of_eq_some hb
  | unlisted hd => exact Option.isSome_of_eq_some hd

section

variable (h : gs.Rooted root l)

include h

/-- Each step that fails comes from something that offends. -/
theorem offends_of_outcome {s : Step} (hs : s ∈ gs.walk false root)
    (he : s.outcome gs root bindings policy = .error e) :
    ∃ k, s.path = root.joinAll k ∧ Offends gs root l bindings policy k e := by
  obtain ⟨n, r, x, hx, -, rfl⟩ | ⟨r, hr, -, hlong, rfl⟩ := h.mem_walk_iff.1 hs
  · refine ⟨n :: r, rfl, ?_⟩
    cases x with
    | file b =>
      rw [Entry.kind, h.outcome_file hx] at he
      split at he
      · rename_i hfit
        cases hf : fate bindings policy b with
        | ok f => simp [hf] at he
        | error name =>
          simp only [hf, Except.error.injEq] at he
          obtain ⟨text, htext, hpolicy, hname⟩ := fate_eq_error_iff.1 hf
          exact he ▸ .unresolved hx htext hpolicy hname hfit
      · rename_i hlong
        exact Except.error.inj he ▸ .unread hx (Nat.lt_of_not_le hlong)
    | _ => simp [Step.outcome, Entry.kind] at he
  · exact ⟨r, rfl, Except.error.inj he ▸ .unlisted hr hlong⟩

/-- The walk fails at whatever offends, or at a directory above it. -/
theorem exists_step_of_offends {k : Location} (ho : Offends gs root l bindings policy k e) :
    ∃ s ∈ gs.walk false root, ∃ q, q <:+ k ∧ (gs.get? (q ++ l)).isSome ∧
      s.path = root.joinAll q ∧ ∃ x, s.outcome gs root bindings policy = .error x := by
  cases ho with
  | unread hb hlong => exact exists_step_of_long h bindings policy hb (by simp [Entry.kind]) hlong
  | unlisted hd hlong =>
    exact exists_step_of_long h bindings policy hd (by simp [Entry.kind]) hlong
  | @unresolved b text name hb htext hpolicy hname hfit =>
    cases k with
    | nil => simp [h.directory] at hb
    | cons n r =>
      have hs := Option.isSome_of_eq_some hb
      refine ⟨_, h.visited hb hfit, n :: r, List.suffix_refl _, hs, rfl,
        .unresolved (root.joinAll (n :: r)) name, ?_⟩
      rw [Entry.kind, h.outcome_file hb, if_pos hfit,
        fate_eq_error_iff.2 ⟨text, htext, hpolicy, hname⟩]

/-- Places come in the order of the paths that lead to them. -/
theorem le_of_precedes {k q : Location} (hk : (gs.get? (k ++ l)).isSome)
    (hq : (gs.get? (q ++ l)).isSome) (hkq : (root.joinAll k).Precedes (root.joinAll q)) :
    k.reverse < q.reverse ∨ k.reverse = q.reverse := by
  rw [Path.Precedes, Path.components_joinAll _ fun n hn => (h.legal hk n hn).ne_empty,
    Path.components_joinAll _ fun n hn => (h.legal hq n hn).ne_empty] at hkq
  exact hkq.imp lt_of_append_lt List.append_cancel_left

/-- Filling in fails as the first that offends. -/
theorem first_offends
    (he : fates gs root bindings policy (gs.walk false root) = .error e) :
    ∃ k, Offends gs root l bindings policy k e ∧
      ∀ k' e', Offends gs root l bindings policy k' e' → k' = k ∨ k.reverse < k'.reverse := by
  obtain ⟨before, s, behind, hwalk, hbefore, hs⟩ := exists_of_fates_error he
  have hmem : s ∈ gs.walk false root := hwalk ▸ List.mem_append_right _ List.mem_cons_self
  obtain ⟨k, hpath, hk⟩ := offends_of_outcome h hmem hs
  refine ⟨k, hk, fun k' e' hk' => ?_⟩
  obtain ⟨t, ht, q, hq, hqsome, hqpath, x, hx⟩ := exists_step_of_offends h hk'
  have hst : s.path.Precedes t.path := by
    have horder := pairwise_walk h.wellFormed false root
    rw [hwalk, List.pairwise_append, List.pairwise_cons] at horder
    rw [hwalk, List.mem_append, List.mem_cons] at ht
    rcases ht with ht | rfl | ht
    · obtain ⟨y, hy⟩ := hbefore t ht
      simp [hx] at hy
    · exact .inr rfl
    · exact horder.2.1.1 t ht
  rw [hpath, hqpath] at hst
  have hkq := le_of_precedes h hk.isSome hqsome hst
  have hqk := lt_or_eq_of_prefix (List.reverse_prefix.2 hq)
  rcases hkq with hlt | heq
  · right
    rcases hqk with hlt' | heq'
    · exact List.lt_trans hlt hlt'
    · exact heq' ▸ hlt
  · rcases hqk with hlt' | heq'
    · exact .inr (heq ▸ hlt')
    · exact .inl (List.reverse_inj.1 (heq.trans heq')).symm

end

/-- Where no name is refused and no path is too long, nothing offends. -/
theorem not_offends
    (hresolved : ∀ {k b}, gs.get? (k ++ l) = some (.file b) → ∃ f, fate bindings policy b = .ok f)
    (hfits : PathsFit gs root l) {k : Location} : ¬ Offends gs root l bindings policy k e := by
  intro hk
  cases hk with
  | unresolved hb htext hpolicy hname =>
    obtain ⟨f, hf⟩ := hresolved hb
    rw [fate_eq_error_iff.2 ⟨_, htext, hpolicy, hname⟩] at hf
    simp at hf
  | unread hb hlong =>
    exact absurd (hfits k _ hb (by simp [Entry.kind])) (Nat.not_le_of_lt hlong)
  | unlisted hd hlong =>
    exact absurd (hfits k _ hd (by simp [Entry.kind])) (Nat.not_le_of_lt hlong)

/-- Filling in the files below a directory fails exactly when something there offends, as the first
that does in the order of the walk. Then nothing has been written. -/
theorem fillDirectory_failure (hwf : w.files.WellFormed) (hroot : w.files.isDirectory root)
    (bindings : Bindings) (policy : Policy) :
    ∃ l, w.files.locate root = .ok l ∧
      ((∃ e w', fillDirectory root bindings policy w = .error e w') ↔
        ∃ k e, Offends w.files root l bindings policy k e) ∧
      ∀ e w', fillDirectory root bindings policy w = .error e w' → w'.files = w.files ∧
        ∃ k, Offends w.files root l bindings policy k e ∧
          ∀ k' e', Offends w.files root l bindings policy k' e' →
            k' = k ∨ k.reverse < k'.reverse := by
  obtain ⟨l, hlocate, h | ⟨hwalk, habsent⟩⟩ := rooted_or_empty hwf hroot
  · have hspec := fillDirectory_spec h bindings policy
    refine ⟨l, hlocate, ⟨?_, ?_⟩, ?_⟩
    · rintro ⟨e, w', hrun⟩
      obtain ⟨k, hk, -⟩ := first_offends h (hspec.of_error hrun).2
      exact ⟨k, e, hk⟩
    · rintro ⟨k, e, hk⟩
      cases hrun : fillDirectory root bindings policy w with
      | error x w' => exact ⟨x, w', rfl⟩
      | ok report w' =>
        obtain ⟨-, hfilled, hfits⟩ := hspec.of_ok hrun
        exact absurd hk (not_offends hfilled.resolved hfits)
    · intro e w' hrun
      obtain ⟨hfiles, he⟩ := hspec.of_error hrun
      exact ⟨hfiles, first_offends h he⟩
  · have hrun := fillDirectory_of_walk_nil hwalk bindings policy
    refine ⟨l, hlocate, ⟨?_, ?_⟩, ?_⟩
    · rintro ⟨e, w', herr⟩
      simp [hrun] at herr
    · rintro ⟨k, e, hk⟩
      have hs := hk.isSome
      simp [habsent] at hs
    · intro e w' herr
      simp [hrun] at herr

/-- Two texts with names that have no value, and a link to the directory that they stand in. -/
def stoppedFiles : FileSystem where
  entries := [
    (["d"], .directory),
    (["sub", "d"], .directory),
    (["z", "d"], .file "{{first}}".toUTF8),
    (["a", "sub", "d"], .file "{{known}} {{second}} {{third}}".toUTF8),
    (["to"], .link ⟨["d"]⟩)]
  workingDirectory := []

/-- The text in `sub` comes first. -/
theorem fillDirectory_failure_first :
    stoppedFiles.WellFormed ∧ stoppedFiles.isDirectory ⟨["to"]⟩ ∧
      ∃ w', fillDirectory ⟨["to"]⟩ ⟨[("known", "x")], by decide⟩ .fail { files := stoppedFiles } =
          .error (.unresolved ⟨["to", "sub", "a"]⟩ "second") w' ∧
        w'.files = stoppedFiles := by
  have hwf : stoppedFiles.WellFormed := by decide
  have hroot : stoppedFiles.isDirectory ⟨["to"]⟩ := by decide +kernel
  obtain ⟨l, -, -, hfailure⟩ := fillDirectory_failure (w := { files := stoppedFiles }) hwf hroot
    ⟨[("known", "x")], by decide⟩ .fail
  have hrun := eq_error_of_failure? (w := { files := stoppedFiles })
    (x := fillDirectory ⟨["to"]⟩ ⟨[("known", "x")], by decide⟩ .fail)
    (e := .unresolved ⟨["to", "sub", "a"]⟩ "second") (by decide +kernel)
  exact ⟨hwf, hroot, _, hrun, (hfailure _ _ hrun).1⟩

/-! ## A path that is too long -/

/-- The directory `d`, on a path that begins with many dots. -/
def dotted (n : Nat) : Path := ⟨"." :: (List.replicate n "." ++ ["d"])⟩

theorem slashedSize_dots (n : Nat) (rest : List String) :
    Path.slashedSize (List.replicate n "." ++ rest) = 2 * n + Path.slashedSize rest := by
  induction n with
  | zero => simp
  | succ n ih =>
    rw [List.replicate_succ, List.cons_append, Path.slashedSize, ih]
    have hdot : ".".utf8ByteSize = 1 := rfl
    omega

theorem size_dotted (n : Nat) :
    (dotted n).size = 2 * n + 3 ∧ ((dotted n).join "file").size = 2 * n + 8 := by
  have hjoin : (dotted n).join "file" = ⟨"." :: (List.replicate n "." ++ ["d", "file"])⟩ := by
    obtain ⟨before, hp, -⟩ | ⟨-, hj⟩ := Path.pieces_join (dotted n) "file"
    · have hlast := congrArg List.getLast? hp
      simp [dotted, List.getLast?_cons] at hlast
    · exact congrArg Path.mk (hj.trans (by simp [dotted]))
  rw [hjoin, dotted, Path.size_cons, Path.size_cons, slashedSize_dots, slashedSize_dots]
  have hdot : ".".utf8ByteSize = 1 := rfl
  have hd : Path.slashedSize ["d"] = 2 := rfl
  have hfile : Path.slashedSize ["d", "file"] = 7 := rfl
  omega

theorem mem_dotted {n : Nat} {piece : String} (h : piece ∈ (dotted n).pieces) :
    piece = "." ∨ piece = "d" := by
  rcases List.mem_cons.1 h with rfl | h
  · exact .inl rfl
  rcases List.mem_append.1 h with h | h
  · exact .inl (List.eq_of_mem_replicate h)
  · exact .inr (List.mem_singleton.1 h)

theorem check_dotted {n : Nat} (h : 2 * n + 3 ≤ maxPathSize) : (dotted n).check = .ok () := by
  rw [Path.check_eq_ok_iff, (size_dotted n).1]
  refine ⟨fun hnul => ?_, by omega, h⟩
  rcases Path.exists_piece_of_mem_toString hnul with hslash | ⟨piece, hpiece, hc⟩
  · exact absurd hslash (by decide)
  · rcases mem_dotted hpiece with rfl | rfl
    · exact absurd hc (by decide)
    · exact absurd hc (by decide)

theorem advance_dots {l : Location} (hl : gs.canEnter l) (n : Nat) (rest : List String) :
    gs.advance .target l (List.replicate n "." ++ rest) = gs.advance .target l rest := by
  induction n with
  | zero => rfl
  | succ n ih =>
    rw [List.replicate_succ, List.cons_append,
      advance_of_moves hl (.stay (.inr rfl)) (by simp), ih]

/-- A file in a directory. -/
def nestedFiles : FileSystem where
  entries := [(["d"], .directory), (["file", "d"], .file "x".toUTF8)]
  workingDirectory := []

theorem rooted_dotted {n : Nat} (h : 2 * n + 3 ≤ maxPathSize) :
    nestedFiles.Rooted (dotted n) ["d"] := by
  have hcomponents : (dotted n).components = List.replicate (n + 1) "." ++ ["d"] := by
    rw [List.replicate_succ, List.cons_append]
    simp [Path.components, dotted]
  have hstart : startOf nestedFiles.workingDirectory (dotted n) = [] := ite_self _
  refine ⟨by decide, ⟨_, .arrived ?_⟩, check_dotted h, rfl⟩
  rw [hstart, hcomponents, advance_dots rfl]
  exact advance_name .target rfl (by decide)

/-- The directory can be listed, but the path of the file is too long. -/
theorem fillDirectory_dotted {n : Nat} (h : 2 * n + 3 ≤ maxPathSize)
    (hlong : maxPathSize < 2 * n + 8) (bindings : Bindings) (policy : Policy) :
    ∃ e w', fillDirectory (dotted n) bindings policy { files := nestedFiles } = .error e w' := by
  cases hrun : fillDirectory (dotted n) bindings policy { files := nestedFiles } with
  | error e w' => exact ⟨e, w', rfl⟩
  | ok report w' =>
    have hroot : ({ files := nestedFiles } : World).files.Rooted _ _ := rooted_dotted h
    have hspec := fillDirectory_spec hroot bindings policy
    obtain ⟨-, -, hfits⟩ := hspec.of_ok hrun
    have hfit := hfits ["file"] (.file "x".toUTF8) rfl (by simp [Entry.kind])
    rw [Path.joinAll_cons, Path.joinAll_nil, (size_dotted n).2] at hfit
    exact absurd hfit (Nat.not_le_of_lt hlong)

/-- No name is without a value, no policy refuses one, and yet the file cannot be read. -/
theorem fillDirectory_long_path :
    nestedFiles.WellFormed ∧ nestedFiles.isDirectory (dotted 2045) ∧
      ∃ e w', fillDirectory (dotted 2045) ⟨[], by decide⟩ .keep { files := nestedFiles } =
        .error e w' := by
  have h : 2 * 2045 + 3 ≤ maxPathSize := by decide
  exact ⟨by decide, isDirectory_iff.2 (rooted_dotted h).status,
    fillDirectory_dotted h (by decide) _ _⟩

end Stencil
