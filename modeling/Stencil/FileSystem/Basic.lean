import Stencil.Path

/-!
A tree of files as a value: which entry stands at which location.

Everything else is said through two views. `get? l` is the entry at a location, and `names d`
lists what a directory holds in increasing order of the names. `get?_set` and `mem_names`
describe them for every file system.
-/

namespace Stencil

abbrev Name := String

/-- Where an entry stands: the names on the way to it, its own name first. The root is `[]`. -/
abbrev Location := List Name

/-- The path from the place where the names begin, the outermost one first. -/
def Location.toPath (l : Location) : Path := ⟨l.reverse⟩

/-- Bytes are compared one by one. -/
instance (priority := 2000) decidableEqBytes : DecidableEq ByteArray := ByteArray.instDecidableEq

inductive Entry
  | directory
  | file (bytes : ByteArray)
  /-- A symbolic link, with its target as it was written. -/
  | link (target : Path)
  | pipe
  | socket
  deriving DecidableEq

def Entry.isDirectory : Entry → Bool
  | directory => true
  | _ => false

/-- The entries of a file system, a later one for a location before the earlier ones, and the
directory from which relative paths start. That directory may have been removed. -/
structure FileSystem where
  entries : List (Location × Entry)
  workingDirectory : Location

/-- Put a name in its place among increasing names, unless it is there. -/
def insertName (n : Name) : List Name → List Name
  | [] => [n]
  | m :: ms => if n < m then n :: m :: ms else if n = m then m :: ms else m :: insertName n ms

namespace FileSystem

/-- The entry at a location. The root is always a directory. -/
def get? (fs : FileSystem) : Location → Option Entry
  | [] => some .directory
  | l => fs.entries.lookup l

/-- Put an entry at a location, in place of what is there. -/
def set (fs : FileSystem) (l : Location) (e : Entry) : FileSystem :=
  { fs with entries := (l, e) :: fs.entries }

/-- The location of what stood at `k`, once the entry at `l` has been taken away. What stood at or
below `l` is left without a name that an entry can have, so that nothing comes in its place. -/
def detach (l k : Location) : Location :=
  if l.isSuffixOf k then k.take (k.length - l.length) ++ "" :: l.tail else k

/-- Take away the entry at a location and all that stands below it. -/
def remove (fs : FileSystem) (l : Location) : FileSystem where
  entries := fs.entries.filter fun e => !l.isSuffixOf e.1
  workingDirectory := detach l fs.workingDirectory

/-- Add the name of the entry at `l` if it stands directly in `d`. -/
def addName (d l : Location) (names : List Name) : List Name :=
  match l with
  | [] => names
  | n :: parent => if parent = d then insertName n names else names

/-- The names of what stands in the directory at `d`, in increasing order. -/
def names (fs : FileSystem) (d : Location) : List Name :=
  fs.entries.foldr (fun e ns => addName d e.1 ns) []

end FileSystem

theorem mem_insertName {m n : Name} {ns : List Name} :
    m ∈ insertName n ns ↔ m = n ∨ m ∈ ns := by
  induction ns with
  | nil => simp [insertName]
  | cons a ns ih =>
    simp only [insertName]
    split
    · simp
    · split
      · rename_i h
        simp [h]
      · simp [ih, or_left_comm]

theorem pairwise_insertName {n : Name} {ns : List Name} (h : ns.Pairwise (· < ·)) :
    (insertName n ns).Pairwise (· < ·) := by
  induction ns with
  | nil => simp [insertName]
  | cons a ns ih =>
    obtain ⟨ha, hns⟩ := List.pairwise_cons.1 h
    simp only [insertName]
    split
    · rename_i hlt
      refine List.pairwise_cons.2 ⟨fun b hb => ?_, h⟩
      rcases List.mem_cons.1 hb with rfl | hb
      · exact hlt
      · exact String.lt_trans hlt (ha b hb)
    · split
      · exact h
      · rename_i hlt hne
        refine List.pairwise_cons.2 ⟨fun b hb => ?_, ih hns⟩
        rcases mem_insertName.1 hb with rfl | hb
        · exact Decidable.byContradiction fun hba => hne (String.le_antisymm hba hlt)
        · exact ha b hb

namespace FileSystem

@[simp] theorem get?_root (fs : FileSystem) : fs.get? [] = some .directory := rfl

theorem get?_set (fs : FileSystem) {l : Location} (hl : l ≠ []) (e : Entry) (k : Location) :
    (fs.set l e).get? k = if k = l then some e else fs.get? k := by
  cases k with
  | nil => simp [Ne.symm hl]
  | cons n d =>
    simp only [get?, set, List.lookup_cons]
    by_cases h : n :: d = l
    · simp [h]
    · rw [beq_false_of_ne h, if_neg h]

@[simp] theorem workingDirectory_set (fs : FileSystem) (l : Location) (e : Entry) :
    (fs.set l e).workingDirectory = fs.workingDirectory := rfl

theorem pairwise_names (fs : FileSystem) (d : Location) :
    (fs.names d).Pairwise (· < ·) := by
  unfold names
  induction fs.entries with
  | nil => simp
  | cons e es ih =>
    simp only [List.foldr_cons, addName]
    split
    · exact ih
    · split
      · exact pairwise_insertName ih
      · exact ih

theorem mem_foldr_addName (d : Location) (n : Name) (es : List (Location × Entry)) :
    n ∈ es.foldr (fun e ns => addName d e.1 ns) [] ↔ (es.lookup (n :: d)).isSome := by
  induction es with
  | nil => simp
  | cons e es ih =>
    obtain ⟨l, x⟩ := e
    rw [List.foldr_cons, List.lookup_cons]
    by_cases h : n :: d = l
    · subst h
      simp [addName, mem_insertName]
    · rw [beq_false_of_ne h, ← ih]
      cases l with
      | nil => rfl
      | cons m parent =>
        simp only [addName]
        split
        · rename_i hp
          have hne : n ≠ m := fun hm => h (by rw [hm, hp])
          simp [mem_insertName, hne]
        · rfl

theorem mem_names (fs : FileSystem) (d : Location) (n : Name) :
    n ∈ fs.names d ↔ (fs.get? (n :: d)).isSome :=
  mem_foldr_addName d n fs.entries

end FileSystem

end Stencil
