/-!
Paths as they are written. A path is kept as the pieces between its slashes, so that nothing of
its spelling is lost: `a//b/` has the pieces `a`, nothing, `b`, nothing, and `toString_ofString`
says that writing a path that was read gives the same text.
-/

namespace Stencil

structure Path where
  pieces : List String
  deriving DecidableEq, Repr

namespace Path

/-- Cut at every slash. -/
def cut : List Char → List (List Char)
  | [] => [[]]
  | c :: cs =>
    if c = '/' then [] :: cut cs
    else match cut cs with
      | [] => [[c]]
      | p :: ps => (c :: p) :: ps

def ofString (s : String) : Path := ⟨(cut s.toList).map String.ofList⟩

protected def toString (p : Path) : String :=
  String.ofList (['/'].intercalate (p.pieces.map String.toList))

instance : ToString Path := ⟨Path.toString⟩

/-- The length of the written path in bytes. -/
def size (p : Path) : Nat := p.toString.utf8ByteSize

/-- The pieces that name something. -/
def components (p : Path) : List String := p.pieces.filter (· ≠ "")

/-- The path begins with a slash. -/
def isAbsolute (p : Path) : Bool :=
  match p.pieces with
  | "" :: _ :: _ => true
  | _ => false

/-- The path ends with a slash. -/
def endsInSlash (p : Path) : Bool :=
  match p.pieces.reverse with
  | "" :: _ :: _ => true
  | _ => false

/-- Put a slash between the path and `name`, unless the path is empty or ends with one. -/
def join (p : Path) (name : String) : Path :=
  match p.pieces.reverse with
  | "" :: before => ⟨(name :: before).reverse⟩
  | reversed => ⟨(name :: reversed).reverse⟩

/-- Join several names, the last of which comes first in the list. -/
def joinAll (p : Path) (names : List String) : Path := names.foldr (fun n p => p.join n) p

theorem cut_ne_nil (cs : List Char) : cut cs ≠ [] := by
  cases cs with
  | nil => simp [cut]
  | cons c cs =>
    rw [cut]
    repeat' split
    all_goals simp

theorem intercalate_cut (cs : List Char) : ['/'].intercalate (cut cs) = cs := by
  induction cs with
  | nil => rfl
  | cons c cs ih =>
    cases h : cut cs with
    | nil => exact absurd h (cut_ne_nil cs)
    | cons p ps =>
      rw [h] at ih
      by_cases hc : c = '/'
      · rw [cut, if_pos hc, h, hc, ← ih]
        simp [List.intercalate]
      · cases ps <;> simp_all [cut, List.intercalate]

@[simp] theorem toString_ofString (s : String) : (ofString s).toString = s := by
  have h : (String.toList ∘ String.ofList) = id := by funext cs; simp
  simp [ofString, Path.toString, h, intercalate_cut]

@[simp] theorem joinAll_nil (p : Path) : p.joinAll [] = p := rfl

@[simp] theorem joinAll_cons (p : Path) (n : String) (names : List String) :
    p.joinAll (n :: names) = (p.joinAll names).join n := rfl

example : ((ofString ".").join "demo").toString = "./demo" := by decide
example : ((ofString "").join "demo").toString = "demo" := by decide
example : ((ofString "b").join "").toString = "b/" := by decide
example : ((ofString "/").join "x").toString = "/x" := by decide

end Path

end Stencil
