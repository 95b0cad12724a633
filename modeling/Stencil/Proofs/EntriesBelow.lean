import Mathlib.Data.List.Nodup
import Stencil.FileSystem.Walk

/-!
What is listed below a location.

Main statement: everything that stands below a location is listed once, with its place below it
(`mem_below`, `nodup_below`), so that lists of such places can be counted (`length_eq_countP`).
-/

namespace Stencil

theorem nodup_eraseDups (ls : List Location) : ls.eraseDups.Nodup := by
  cases ls with
  | nil => simp
  | cons l ls =>
    rw [List.eraseDups_cons, List.nodup_cons, List.mem_eraseDups]
    exact ⟨by simp, nodup_eraseDups _⟩
termination_by ls.length
decreasing_by
  have hle := List.length_filter_le (fun k => !k == l) ls
  rw [List.length_cons]
  omega

namespace FileSystem

variable {fs : FileSystem} {l k r : Location} {e : Entry}

theorem mem_locations (hk : k ≠ []) : k ∈ fs.locations ↔ (fs.get? k).isSome := by
  obtain ⟨n, d, rfl⟩ := List.exists_cons_of_ne_nil hk
  rw [locations, List.mem_eraseDups, get?, List.lookup_isSome_iff, List.mem_map]
  · simp only [beq_iff_eq, eq_comm (a := n :: d)]
  · simp

/-- The place of `k` below `l` and its entry, if it stands there. -/
def below? (fs : FileSystem) (l k : Location) : Option (Location × Entry) :=
  if l.isSuffixOf k && k ≠ l then
    (fs.get? k).map fun e => (k.take (k.length - l.length), e)
  else none

theorem below?_eq_some_iff :
    fs.below? l k = some (r, e) ↔ k = r ++ l ∧ r ≠ [] ∧ fs.get? (r ++ l) = some e := by
  rw [below?]
  constructor
  · intro h
    split at h
    · rename_i hcond
      simp only [Bool.and_eq_true, List.isSuffixOf_iff_suffix, decide_eq_true_eq] at hcond
      obtain ⟨⟨q, rfl⟩, hne⟩ := hcond
      obtain ⟨x, hx, heq⟩ := Option.map_eq_some_iff.1 h
      have htake : (q ++ l).take ((q ++ l).length - l.length) = q := by simp
      rw [htake] at heq
      obtain ⟨rfl, rfl⟩ := Prod.mk.inj heq
      exact ⟨rfl, fun hq => hne (by simp [hq]), hx⟩
    · cases h
  · rintro ⟨rfl, hr, he⟩
    have hcond : (l.isSuffixOf (r ++ l) && r ++ l ≠ l) = true := by simp [hr]
    rw [if_pos hcond, he]
    simp

theorem below_eq (fs : FileSystem) (l : Location) :
    fs.below l = fs.locations.filterMap (fs.below? l) := rfl

theorem mem_below : (r, e) ∈ fs.below l ↔ r ≠ [] ∧ fs.get? (r ++ l) = some e := by
  rw [below_eq, List.mem_filterMap]
  simp only [below?_eq_some_iff]
  constructor
  · rintro ⟨k, -, -, h⟩
    exact h
  · rintro ⟨hr, he⟩
    refine ⟨r ++ l, (mem_locations (by simp [hr])).2 (Option.isSome_of_eq_some he), rfl, hr, he⟩

theorem nodup_below (fs : FileSystem) (l : Location) : ((fs.below l).map (·.1)).Nodup := by
  rw [below_eq, List.map_filterMap]
  refine (nodup_eraseDups _).filterMap fun k k' r hk hk' => ?_
  obtain ⟨⟨r₁, e₁⟩, h₁, rfl⟩ := Option.map_eq_some_iff.1 hk
  obtain ⟨⟨r₂, e₂⟩, h₂, heq⟩ := Option.map_eq_some_iff.1 hk'
  obtain rfl : r₂ = r₁ := heq
  rw [(below?_eq_some_iff.1 h₁).1, (below?_eq_some_iff.1 h₂).1]

/-- Places that are given once each are as many as the entries that stand there. -/
theorem length_eq_countP (fs : FileSystem) (l : Location) (p : Location × Entry → Bool)
    {ks : List Location} (hks : ks.Nodup)
    (h : ∀ k, k ∈ ks ↔ k ≠ [] ∧ ∃ e, fs.get? (k ++ l) = some e ∧ p (k, e)) :
    ks.length = (fs.below l).countP p := by
  have hnodup : (((fs.below l).filter p).map (·.1)).Nodup :=
    (fs.nodup_below l).sublist (List.filter_sublist.map _)
  have hperm : ks.Perm (((fs.below l).filter p).map (·.1)) := by
    refine (List.perm_ext_iff_of_nodup hks hnodup).2 fun k => ?_
    simp only [h, List.mem_map, List.mem_filter, Prod.exists, mem_below]
    constructor
    · rintro ⟨hk, e, he, hp⟩
      exact ⟨k, e, ⟨⟨hk, he⟩, hp⟩, rfl⟩
    · rintro ⟨k, e, ⟨⟨hk, he⟩, hp⟩, rfl⟩
      exact ⟨hk, e, he, hp⟩
  rw [hperm.length_eq, List.length_map, List.countP_eq_length_filter]

end FileSystem

end Stencil
