import Stencil.Proofs.Walks

/-!
The order of a walk.

Main statement: the steps of a walk come in the order of the names on their paths, where the
outermost names that differ decide and a directory comes before what it holds (`pairwise_walk`).
-/

namespace Stencil

/-- The first path does not come behind the second one, name by name. -/
def Path.Precedes (p q : Path) : Prop := p.components < q.components ∨ p.components = q.components

theorem lt_of_prefixes {α : Type} [LT α] {a b : α} {front xs ys : List α} (hlt : a < b)
    (hx : front ++ [a] <+: xs) (hy : front ++ [b] <+: ys) : xs < ys := by
  obtain ⟨x, rfl⟩ := hx
  obtain ⟨y, rfl⟩ := hy
  rw [List.append_assoc, List.append_assoc]
  exact List.append_left_lt (List.Lex.rel hlt)

theorem lt_or_eq_of_prefix {α : Type} [LT α] {xs ys : List α} (h : xs <+: ys) :
    xs < ys ∨ xs = ys := by
  obtain ⟨rest, rfl⟩ := h
  cases rest with
  | nil => exact .inr (List.append_nil xs).symm
  | cons y rest =>
    left
    have hlt : xs ++ [] < xs ++ y :: rest := List.append_left_lt (List.nil_lt_cons y rest)
    rwa [List.append_nil] at hlt

theorem lt_of_append_lt {front xs ys : List String} (h : front ++ xs < front ++ ys) : xs < ys := by
  induction front with
  | nil => exact h
  | cons x front ih =>
    rcases List.cons_lt_cons_iff.1 h with hlt | ⟨-, hlt⟩
    · exact absurd hlt (String.lt_irrefl x)
    · exact ih hlt

namespace FileSystem

variable {fs : FileSystem} {follow : Bool}

/-- A step at an entry is at its path or among the steps in it. -/
theorem mem_entrySteps_cases {depth : Nat} {inside : List Location} {d : Location} {dir : Path}
    {below : Location} {n : Name} {s : Step}
    (hs : s ∈ fs.entrySteps follow depth inside d dir below n) :
    s.path = dir.join n ∨ s ∈ fs.stepsIn follow depth (d :: inside) (dir.join n) (n :: below) := by
  rw [entrySteps] at hs
  split at hs
  · exact .inl (by rw [List.mem_singleton.1 hs, Step.path])
  · refine (List.mem_cons.1 hs).imp_left fun heq => ?_
    rw [heq, Step.path]
  · exact .inl (by rw [List.mem_singleton.1 hs, Step.path])

variable (hwf : fs.WellFormed)

include hwf

/-- Every step in a directory is at its path or on a longer one. -/
theorem prefix_of_mem_stepsIn {depth : Nat} {inside : List Location} {dir : Path}
    {below : Location} {s : Step} (hs : s ∈ fs.stepsIn follow depth inside dir below) :
    dir.components <+: s.path.components := by
  induction depth generalizing inside dir below with
  | zero =>
    obtain rfl := List.mem_singleton.1 hs
    exact List.prefix_refl _
  | succ depth ih =>
    rw [stepsIn_succ] at hs
    split at hs
    · obtain rfl := List.mem_singleton.1 hs
      exact List.prefix_refl _
    · rename_i d names hl
      obtain ⟨n, hn, hs⟩ := List.mem_flatMap.1 hs
      have hjoin : dir.components <+: (dir.join n).components := by
        rw [Path.components_join _ (get?_of_list hwf hl hn).2.2.ne_empty]
        exact List.prefix_append _ _
      rcases mem_entrySteps_cases hs with heq | hs
      · rwa [heq]
      · exact hjoin.trans (ih hs)

theorem prefix_of_mem_entrySteps {depth : Nat} {inside : List Location} {d : Location}
    {dir : Path} {below : Location} {n : Name} {s : Step}
    (hs : s ∈ fs.entrySteps follow depth inside d dir below n) :
    (dir.join n).components <+: s.path.components := by
  rcases mem_entrySteps_cases hs with heq | hs
  · rw [heq]
  · exact prefix_of_mem_stepsIn hwf hs

theorem pairwise_stepsIn (depth : Nat) (inside : List Location) (dir : Path) (below : Location) :
    (fs.stepsIn follow depth inside dir below).Pairwise fun s t => s.path.Precedes t.path := by
  induction depth generalizing inside dir below with
  | zero => exact List.pairwise_singleton _ _
  | succ depth ih =>
    rw [stepsIn_succ]
    split
    · exact List.pairwise_singleton _ _
    · rename_i d names hl
      rw [List.pairwise_flatMap]
      constructor
      · intro n hn
        rw [entrySteps]
        split
        · exact List.pairwise_singleton _ _
        · refine List.pairwise_cons.2 ⟨fun t ht => ?_, ih _ _ _⟩
          exact lt_or_eq_of_prefix (prefix_of_mem_stepsIn hwf ht)
        · exact List.pairwise_singleton _ _
      · -- what is below one name comes before what is below the next
        obtain ⟨-, -, rfl⟩ := list_eq_ok_iff.1 hl
        refine (pairwise_names fs d).imp_of_mem fun {n m} hn hm hlt s hs t ht => ?_
        have hs := prefix_of_mem_entrySteps hwf hs
        have ht := prefix_of_mem_entrySteps hwf ht
        rw [Path.components_join _ (get?_of_list hwf hl hn).2.2.ne_empty] at hs
        rw [Path.components_join _ (get?_of_list hwf hl hm).2.2.ne_empty] at ht
        exact .inl (lt_of_prefixes hlt hs ht)

theorem pairwise_walk (follow : Bool) (root : Path) :
    (fs.walk follow root).Pairwise fun s t => s.path.Precedes t.path := by
  rw [walk]
  split
  · exact List.pairwise_singleton _ _
  · exact pairwise_stepsIn hwf _ _ _ _
  · exact List.Pairwise.nil

end FileSystem

end Stencil
