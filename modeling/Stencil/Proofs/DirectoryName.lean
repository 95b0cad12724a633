import Stencil.Request
import Stencil.Proofs.DashedName
import Stencil.Proofs.JoinedPath
import Stencil.Proofs.Reading

/-!
The directory of a project: which names it can have, and where it stands.

Whatever a name holds, its dash-case form consists of words joined by single dashes (`Dashed`). The
invariant is that no dash has been written last unless `write` is fresh. Main statement: such a name
adds one component to a path, so that no project leaves its base directory
(`destinationOf_beneath`).
-/

namespace Stencil

/-- Letters and digits, none of them an ASCII capital, in words joined by single dashes. -/
structure Dashed (cs : List Char) : Prop where
  made_of : ∀ c ∈ cs, Text.isAlphanumeric c ∨ c = '-'
  small : ∀ c ∈ cs, ¬ c.isUpper
  head : cs.head? ≠ some '-'
  last : cs.getLast? ≠ some '-'
  single : ¬ ['-', '-'] <:+: cs

namespace DashCase

/-! ## Letters and digits made small -/

theorem isAlphanumeric_toLower {c : Char} (h : Text.isAlphanumeric c) :
    Text.isAlphanumeric c.toLower := by
  by_cases hc : c.toNat < 0x80
  · have hall : ∀ n < 0x80, (Char.ofNat n).isAlphanum → (Char.ofNat n).toLower.isAlphanum ∧
        (Char.ofNat n).toLower.toNat < 0x80 := by decide
    have hsmall := hall c.toNat hc
    rw [Char.ofNat_toNat] at hsmall
    rw [Text.isAlphanumeric_of_ascii hc] at h
    rw [Text.isAlphanumeric_of_ascii (hsmall h).2]
    exact (hsmall h).1
  · rwa [toLower_of_not_ascii (by omega)]

theorem not_isAlphanumeric_dash : Text.isAlphanumeric '-' = false := by decide +kernel

theorem toLower_ne_dash {c : Char} (h : Text.isAlphanumeric c) : c.toLower ≠ '-' := by
  intro hdash
  have hlower := isAlphanumeric_toLower h
  rw [hdash, not_isAlphanumeric_dash] at hlower
  cases hlower

/-! ## What is written -/

variable {name cs : List Char} {i : Nat} {fresh : Bool} {c : Char}

/-- At the beginning and behind a dash comes none. -/
theorem head?_write_fresh : (write name i true cs).head? ≠ some '-' := by
  induction cs generalizing i with
  | nil => simp [write]
  | cons c cs ih =>
    unfold write
    cases hc : Text.isAlphanumeric c with
    | false => simpa using ih
    | true => simpa using toLower_ne_dash hc

theorem not_infix_write : ¬ ['-', '-'] <:+: write name i fresh cs := by
  induction cs generalizing i fresh with
  | nil => simp [write]
  | cons c cs ih =>
    simp only [write]
    split
    · split
      · exact ih
      · exact Piece.not_infix_cons.2 ⟨.inr head?_write_fresh, ih⟩
    · rename_i hc
      have hc : c.toLower ≠ '-' := toLower_ne_dash (by simpa using hc)
      have hword : ∀ j, ¬ ['-', '-'] <:+: c.toLower :: write name j false cs := fun j =>
        Piece.not_infix_cons.2 ⟨.inl hc, ih⟩
      split
      · exact Piece.not_infix_cons.2 ⟨.inr (by simpa using hc), hword _⟩
      · exact hword _

/-- What ends in a letter or digit is written so that it does. -/
theorem getLast?_write (h : cs.getLast? = some c) (hc : Text.isAlphanumeric c) :
    (write name i fresh cs).getLast? = some c.toLower := by
  induction cs generalizing i fresh with
  | nil => simp at h
  | cons a cs ih =>
    cases cs with
    | nil =>
      obtain rfl : a = c := by simpa using h
      simp only [write, hc, Bool.not_true, Bool.false_eq_true, if_false]
      split <;> rfl
    | cons b cs =>
      rw [List.getLast?_cons_cons] at h
      have hrest : ∀ x j fresh', (x :: write name j fresh' (b :: cs)).getLast? = some c.toLower := by
        intro x j fresh'
        rw [List.getLast?_cons, ih h]
        rfl
      rw [write]
      split
      · split
        · exact ih h
        · exact hrest _ _ _
      · split
        · rw [List.getLast?_cons, hrest]
          rfl
        · exact hrest _ _ _

theorem getLast?_dropTail (h : (dropTail name).getLast? = some c) : Text.isAlphanumeric c := by
  rw [dropTail, List.getLast?_reverse] at h
  have hnot := List.head?_dropWhile_not (!Text.isAlphanumeric ·) name.reverse
  rw [h] at hnot
  simpa using hnot

end DashCase

theorem dashed_dashCase (name : String) : Dashed (dashCase name).toList := by
  refine ⟨fun c hc => ?_, fun c hc hupper => ?_, ?_, ?_, ?_⟩
  · rw [dashCase, String.toList_ofList] at hc
    obtain rfl | ⟨a, ha, rfl⟩ := DashCase.mem_write hc
    · exact .inr rfl
    · exact .inl (DashCase.isAlphanumeric_toLower ha)
  · have hrange := mem_dashCase hc
    obtain ⟨hlow, hhigh⟩ : 0x41 ≤ c.toNat ∧ c.toNat ≤ 0x5a := of_decide_eq_true hupper
    omega
  · rw [dashCase, String.toList_ofList]
    exact DashCase.head?_write_fresh
  · rw [dashCase, String.toList_ofList, DashCase.ofChars]
    cases hlast : (DashCase.dropTail (Text.trim name.toList)).getLast? with
    | none =>
      rw [List.getLast?_eq_none_iff.1 hlast]
      simp [DashCase.write]
    | some c =>
      have hc := DashCase.getLast?_dropTail hlast
      rw [DashCase.getLast?_write hlast hc]
      simpa using DashCase.toLower_ne_dash hc
  · rw [dashCase, String.toList_ofList]
    exact DashCase.not_infix_write

namespace Path

/-! ## Paths that are read again -/

theorem cut_eq_splitOn (cs : List Char) : cut cs = cs.splitOn '/' := by
  induction cs with
  | nil => rfl
  | cons c cs ih =>
    rw [List.splitOn_cons_eq_if_modifyHead, cut, ih]
    by_cases hc : c = '/'
    · simp [hc]
    · rw [if_neg hc, if_neg (by simpa using hc)]
      cases h : cs.splitOn '/' with
      | nil => exact absurd h (List.splitOn_ne_nil '/' cs)
      | cons p ps => rfl

/-- The path can have been read: there is a slash in none of its pieces. -/
def SlashFree (p : Path) : Prop := p.pieces ≠ [] ∧ ∀ piece ∈ p.pieces, '/' ∉ piece.toList

theorem slash_not_mem_cut {cs piece : List Char} (h : piece ∈ cut cs) : '/' ∉ piece := by
  induction cs generalizing piece with
  | nil =>
    obtain rfl : piece = [] := by simpa [cut] using h
    exact List.not_mem_nil
  | cons c cs ih =>
    rw [cut] at h
    split at h
    · rcases List.mem_cons.1 h with rfl | h
      · exact List.not_mem_nil
      · exact ih h
    · rename_i hc
      split at h
      · rename_i hnil
        exact absurd hnil (cut_ne_nil cs)
      · rename_i p ps hcut
        rw [hcut] at ih
        rcases List.mem_cons.1 h with rfl | h
        · have hp := ih List.mem_cons_self
          simp [Ne.symm hc, hp]
        · exact ih (List.mem_cons_of_mem p h)

theorem slashFree_ofString (s : String) : (ofString s).SlashFree := by
  refine ⟨by simpa [ofString] using cut_ne_nil s.toList, fun piece hpiece => ?_⟩
  obtain ⟨cs, hcs, rfl⟩ := List.mem_map.1 hpiece
  rw [String.toList_ofList]
  exact slash_not_mem_cut hcs

/-- A path that was read is read again from what is written. -/
theorem ofString_toString {p : Path} (h : p.SlashFree) : ofString p.toString = p := by
  have hpieces : cut p.toString.toList = p.pieces.map String.toList := by
    rw [cut_eq_splitOn, Path.toString, String.toList_ofList]
    refine List.splitOn_intercalate '/' (fun cs hcs => ?_) (by simpa using h.1)
    obtain ⟨piece, hpiece, rfl⟩ := List.mem_map.1 hcs
    exact h.2 piece hpiece
  have hchars : String.ofList ∘ String.toList = id := by
    funext s
    simp
  rw [ofString, hpieces, List.map_map, hchars, List.map_id]

theorem SlashFree.join {p : Path} (h : p.SlashFree) {n : String} (hn : '/' ∉ n.toList) :
    (p.join n).SlashFree := by
  obtain ⟨before, hj, hbefore⟩ : ∃ before, (p.join n).pieces = before ++ [n] ∧
      before ⊆ p.pieces := by
    obtain ⟨before, hp, hj⟩ | ⟨-, hj⟩ := pieces_join p n
    · exact ⟨before, hj, by simp [hp]⟩
    · exact ⟨p.pieces, hj, List.Subset.refl _⟩
  refine ⟨by simp [hj], fun piece hpiece => ?_⟩
  rw [hj, List.mem_append, List.mem_singleton] at hpiece
  rcases hpiece with hpiece | rfl
  · exact h.2 piece (hbefore hpiece)
  · exact hn

theorem ofString_of_not_slash {s : String} (h : '/' ∉ s.toList) : ofString s = ⟨[s]⟩ := by
  have hs : (⟨[s]⟩ : Path).SlashFree := ⟨by simp, by simpa using h⟩
  have hwritten : (⟨[s]⟩ : Path).toString = s := by simp [Path.toString, List.intercalate]
  rw [← hwritten, ofString_toString hs, hwritten]

/-- Put a path behind another one; one that is absolute takes its place. -/
def push (p q : Path) : Path :=
  if q.isAbsolute then q
  else match q.pieces with
    | [] => p
    | n :: rest => ⟨(p.join n).pieces ++ rest⟩

/-- A name without a slash is put behind a path as it is joined to it. -/
theorem push_ofString {n : String} (h : '/' ∉ n.toList) (p : Path) :
    p.push (ofString n) = p.join n := by
  rw [ofString_of_not_slash h, push, isAbsolute]
  simp

/-! ## Components -/

/-- What a path is made of. -/
inductive Component
  | root
  /-- The dot with which a relative path begins. -/
  | current
  | parent
  | normal (name : Name)
  deriving DecidableEq, Repr

/-- Nothing between two slashes and a dot say nothing. -/
def Component.ofPiece? (piece : String) : Option Component :=
  if piece = "" || piece = "." then none
  else if piece = ".." then some .parent
  else some (.normal piece)

/-- With what a path begins, if that is no name. -/
def beginning (p : Path) : List Component :=
  if p.isAbsolute then [.root]
  else if p.pieces.head? = some "." then [.current]
  else []

/-- The components of a path, from left to right. -/
def anatomy (p : Path) : List Component := p.beginning ++ p.pieces.filterMap Component.ofPiece?

theorem beginning_join (p : Path) {n : String} (hn : n ≠ ".") :
    (p.join n).beginning = p.beginning := by
  have hhead : (p.join n).pieces.head? = some "." ↔ p.pieces.head? = some "." := by
    obtain ⟨before, hp, hj⟩ | ⟨-, hj⟩ := pieces_join p n
    · rw [hp, hj]
      cases before with
      | nil => simp [hn]
      | cons x ps => simp
    · rw [hj]
      cases p.pieces with
      | nil => simp [hn]
      | cons x ps => simp
  simp only [beginning, isAbsolute_join, hhead]

/-- A name comes behind all components. -/
theorem anatomy_join (p : Path) {n : String} (hne : n ≠ "") (hdot : n ≠ ".") (hdots : n ≠ "..") :
    (p.join n).anatomy = p.anatomy ++ [.normal n] := by
  have hn : Component.ofPiece? n = some (.normal n) := by simp [Component.ofPiece?, hne, hdot, hdots]
  have hempty : Component.ofPiece? "" = none := rfl
  rw [anatomy, anatomy, beginning_join p hdot, List.append_assoc]
  obtain ⟨before, hp, hj⟩ | ⟨-, hj⟩ := pieces_join p n
  · simp [hp, hj, hn, hempty]
  · simp [hj, hn]

end Path

/-- A name that has letters or digits puts its project directly into the base directory, whatever
else it holds: under one name, made of words and single dashes, that is no path of its own. Other
names have no directory. -/
theorem destinationOf_beneath (base name : String) :
    Dashed (dashCase name).toList ∧
      (dashCase name = "" ↔ ∀ c ∈ name.toList, Text.isAlphanumeric c = false) ∧
      destinationOf (.ofString base) name =
        (Path.ofString base).push (.ofString (dashCase name)) ∧
      (dashCase name ≠ "" →
        (dashCase name ≠ "." ∧ dashCase name ≠ "..") ∧ '/' ∉ (dashCase name).toList ∧
          (Path.ofString (destinationOf (.ofString base) name).toString).anatomy =
            (Path.ofString base).anatomy ++ [.normal (dashCase name)]) := by
  have hslash : '/' ∉ (dashCase name).toList := not_mem_dashCase (by decide) (by decide) name
  refine ⟨dashed_dashCase name, dashCase_eq_empty_iff, (Path.push_ofString hslash _).symm,
    fun hne => ?_⟩
  obtain ⟨⟨-, hdot, hdots⟩, -⟩ := dashCase_spec hne
  refine ⟨⟨hdot, hdots⟩, hslash, ?_⟩
  rw [destinationOf, Path.ofString_toString ((Path.slashFree_ofString base).join hslash)]
  exact Path.anatomy_join _ hne hdot hdots

/-- A name that is written like a path out of the base directory. -/
def climbingName : String := "/../..//Etc/\x00Pass  Wd."

theorem destinationOf_beneath_climbing :
    dashCase climbingName ≠ "" ∧
      (Path.ofString (destinationOf (.ofString "./a/../b/") climbingName).toString).anatomy =
        [.current, .normal "a", .parent, .normal "b", .normal "etc-pass-wd"] := by
  have hname : dashCase climbingName = "etc-pass-wd" := by decide +kernel
  have hne : dashCase climbingName ≠ "" := by
    rw [hname]
    decide
  obtain ⟨-, -, -, hinside⟩ := destinationOf_beneath "./a/../b/" climbingName
  refine ⟨hne, (hinside hne).2.2.trans ?_⟩
  rw [hname]
  decide

end Stencil
