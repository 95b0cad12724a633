import Stencil.FileSystem.Resolve

/-!
Paths that grow by one name: their components, their steps, and their length as they are written.

Main statements: a joined path has the components of the path and the name behind them
(`components_join`), it is longer than the path (`size_lt_size_join`), and only its length can
speak against it (`check_join`).
-/

namespace Stencil

namespace Path

/-- A name takes the place of an empty last piece and comes behind any other. -/
theorem pieces_join (p : Path) (n : String) :
    (∃ before, p.pieces = before ++ [""] ∧ (p.join n).pieces = before ++ [n]) ∨
      (p.pieces.getLast? ≠ some "" ∧ (p.join n).pieces = p.pieces ++ [n]) := by
  unfold join
  split
  · rename_i before h
    left
    refine ⟨before.reverse, ?_, by simp⟩
    rw [← List.reverse_reverse p.pieces, h, List.reverse_cons]
  · rename_i h
    right
    refine ⟨fun hlast => ?_, by simp⟩
    rw [← List.head?_reverse] at hlast
    obtain ⟨before, hb⟩ := List.head?_eq_some_iff.1 hlast
    exact h before hb

theorem components_join (p : Path) {n : String} (hn : n ≠ "") :
    (p.join n).components = p.components ++ [n] := by
  obtain ⟨before, hp, hj⟩ | ⟨-, hj⟩ := pieces_join p n
  · simp [components, hp, hj, hn]
  · simp [components, hj, hn]

theorem endsInSlash_join (p : Path) {n : String} (hn : n ≠ "") :
    (p.join n).endsInSlash = false := by
  have hlast : ∀ before : List String, (⟨before ++ [n]⟩ : Path).endsInSlash = false := by
    intro before
    simp only [endsInSlash, List.reverse_append, List.reverse_cons, List.reverse_nil,
      List.nil_append, List.singleton_append]
    split
    · rename_i h
      exact absurd (List.cons.inj h).1 hn
    · rfl
  obtain ⟨before, -, hj⟩ | ⟨-, hj⟩ := pieces_join p n
  · rw [show p.join n = ⟨before ++ [n]⟩ from congrArg mk hj, hlast]
  · rw [show p.join n = ⟨p.pieces ++ [n]⟩ from congrArg mk hj, hlast]

theorem steps_join (p : Path) {n : String} (hn : n ≠ "") :
    (p.join n).steps = p.components ++ [n] := by
  simp [steps, components_join p hn, endsInSlash_join p hn]

theorem isAbsolute_cons_cons (x y : String) (ps : List String) :
    (⟨x :: y :: ps⟩ : Path).isAbsolute = decide (x = "") := by
  by_cases hx : x = ""
  · subst hx
    rfl
  · simp [isAbsolute, hx]

theorem isAbsolute_join (p : Path) (n : String) : (p.join n).isAbsolute = p.isAbsolute := by
  obtain ⟨before, hp, hj⟩ | ⟨hlast, hj⟩ := pieces_join p n
  · rw [show p.join n = ⟨before ++ [n]⟩ from congrArg mk hj,
      show p = ⟨before ++ [""]⟩ from congrArg mk hp]
    rcases before with _ | ⟨x, _ | ⟨y, ps⟩⟩
    · simp [isAbsolute]
    · exact (isAbsolute_cons_cons x n []).trans (isAbsolute_cons_cons x "" []).symm
    · exact (isAbsolute_cons_cons x y _).trans (isAbsolute_cons_cons x y _).symm
  · rw [show p.join n = ⟨p.pieces ++ [n]⟩ from congrArg mk hj]
    rcases p with ⟨_ | ⟨x, _ | ⟨y, ps⟩⟩⟩
    · simp [isAbsolute]
    · have hx : x ≠ "" := by simpa using hlast
      simp [isAbsolute, hx]
    · exact (isAbsolute_cons_cons x y _).trans (isAbsolute_cons_cons x y _).symm

theorem isAbsolute_joinAll (p : Path) (names : List String) :
    (p.joinAll names).isAbsolute = p.isAbsolute := by
  induction names with
  | nil => rfl
  | cons n names ih => rw [joinAll_cons, isAbsolute_join, ih]

theorem components_joinAll (p : Path) {names : List String} (hn : ∀ n ∈ names, n ≠ "") :
    (p.joinAll names).components = p.components ++ names.reverse := by
  induction names with
  | nil => simp
  | cons n names ih =>
    obtain ⟨hn, hnames⟩ := List.forall_mem_cons.1 hn
    rw [joinAll_cons, components_join _ hn, ih hnames, List.reverse_cons, List.append_assoc]

/-! ## The path as it is written -/

/-- Pieces with a slash in front of each. -/
def slashed (ps : List String) : List Char := ps.flatMap fun p => '/' :: p.toList

theorem toList_toString_cons (x : String) (ps : List String) :
    (⟨x :: ps⟩ : Path).toString.toList = x.toList ++ slashed ps := by
  have h : ∀ qs : List (List Char), ∀ a : List Char,
      ['/'].intercalate (a :: qs) = a ++ qs.flatMap fun q => '/' :: q := by
    intro qs
    induction qs with
    | nil => simp [List.intercalate]
    | cons q qs ih =>
      intro a
      have hq := ih q
      simp only [List.intercalate] at hq ⊢
      simp [hq]
  simp [Path.toString, slashed, h, List.flatMap_map]

/-- The written path is followed by the name, with or without a slash in between. -/
theorem toList_toString_join (p : Path) (n : String) :
    (p.join n).toString.toList = p.toString.toList ++ n.toList ∨
      (p.join n).toString.toList = p.toString.toList ++ '/' :: n.toList := by
  obtain ⟨before, hp, hj⟩ | ⟨-, hj⟩ := pieces_join p n
  · left
    rw [show p.join n = ⟨before ++ [n]⟩ from congrArg mk hj,
      show p = ⟨before ++ [""]⟩ from congrArg mk hp]
    cases before with
    | nil => simp [toList_toString_cons, slashed]
    | cons x ps => simp [toList_toString_cons, slashed]
  · rw [show p.join n = ⟨p.pieces ++ [n]⟩ from congrArg mk hj]
    rcases p with ⟨_ | ⟨x, ps⟩⟩
    · left
      simp [Path.toString, List.intercalate]
    · right
      simp [toList_toString_cons, slashed]

/-- A character of a piece is written. -/
theorem mem_toString {p : Path} {piece : String} {c : Char} (hp : piece ∈ p.pieces)
    (hc : c ∈ piece.toList) : c ∈ p.toString.toList := by
  rcases p with ⟨_ | ⟨x, ps⟩⟩
  · simp at hp
  · rw [toList_toString_cons, List.mem_append]
    rcases List.mem_cons.1 hp with rfl | hp
    · exact .inl hc
    · exact .inr (List.mem_flatMap.2 ⟨piece, hp, List.mem_cons_of_mem _ hc⟩)

/-- Whatever is written is a slash or comes from a piece. -/
theorem exists_piece_of_mem_toString {p : Path} {c : Char} (hc : c ∈ p.toString.toList) :
    c = '/' ∨ ∃ piece ∈ p.pieces, c ∈ piece.toList := by
  rcases p with ⟨_ | ⟨x, ps⟩⟩
  · simp [Path.toString, List.intercalate] at hc
  · rw [toList_toString_cons, List.mem_append] at hc
    rcases hc with hc | hc
    · exact .inr ⟨x, by simp, hc⟩
    · obtain ⟨q, hq, hc⟩ := List.mem_flatMap.1 hc
      rcases List.mem_cons.1 hc with rfl | hc
      · exact .inl rfl
      · exact .inr ⟨q, by simp [hq], hc⟩

/-- The length of pieces with a slash in front of each. -/
def slashedSize : List String → Nat
  | [] => 0
  | p :: ps => p.utf8ByteSize + 1 + slashedSize ps

theorem utf8ByteSize_ofList_append (cs ds : List Char) :
    (String.ofList (cs ++ ds)).utf8ByteSize =
      (String.ofList cs).utf8ByteSize + (String.ofList ds).utf8ByteSize := by
  rw [String.ofList_append, String.utf8ByteSize_append]

theorem utf8ByteSize_slashed (ps : List String) :
    (String.ofList (slashed ps)).utf8ByteSize = slashedSize ps := by
  induction ps with
  | nil => rfl
  | cons p ps ih =>
    have hcons : slashed (p :: ps) = ['/'] ++ (p.toList ++ slashed ps) := rfl
    rw [hcons, utf8ByteSize_ofList_append, utf8ByteSize_ofList_append, ih, String.ofList_toList]
    simp only [slashedSize]
    have hslash : (String.ofList ['/']).utf8ByteSize = 1 := rfl
    omega

theorem size_cons (x : String) (ps : List String) :
    (⟨x :: ps⟩ : Path).size = x.utf8ByteSize + slashedSize ps := by
  rw [size, ← String.ofList_toList (s := (⟨x :: ps⟩ : Path).toString), toList_toString_cons,
    utf8ByteSize_ofList_append, utf8ByteSize_slashed, String.ofList_toList]

theorem utf8ByteSize_pos {n : String} (hn : n ≠ "") : 0 < n.utf8ByteSize := by
  rcases Nat.eq_zero_or_pos n.utf8ByteSize with h | h
  · exact absurd (String.utf8ByteSize_eq_zero_iff.1 h) hn
  · exact h

theorem size_lt_size_join (p : Path) {n : String} (hn : n ≠ "") : p.size < (p.join n).size := by
  have hpos := utf8ByteSize_pos hn
  have hsize : ∀ q : Path, q.size = (String.ofList q.toString.toList).utf8ByteSize := by
    intro q
    rw [String.ofList_toList, size]
  rw [hsize (p.join n)]
  rcases toList_toString_join p n with h | h
  · rw [h, utf8ByteSize_ofList_append, ← hsize, String.ofList_toList]
    omega
  · rw [h, show '/' :: n.toList = ['/'] ++ n.toList from rfl, utf8ByteSize_ofList_append,
      utf8ByteSize_ofList_append, ← hsize, String.ofList_toList]
    omega

/-! ## What can be said of it before anything is looked up -/

/-- No NUL character is written. -/
def NulFree (p : Path) : Prop := '\x00' ∉ p.toString.toList

theorem check_eq_ok_iff {p : Path} :
    p.check = .ok () ↔ p.NulFree ∧ 0 < p.size ∧ p.size ≤ maxPathSize := by
  unfold check NulFree
  by_cases hnul : '\x00' ∈ p.toString.toList
  · simp [hnul]
  · by_cases hzero : p.size = 0
    · simp [hnul, hzero]
    · by_cases hlong : p.size > maxPathSize
      · simp [hnul, hzero, hlong]
      · simp [hnul, hzero, hlong]
        omega

theorem nulFree_join {p : Path} {n : String} (hp : p.NulFree) (hn : '\x00' ∉ n.toList) :
    (p.join n).NulFree := by
  intro h
  rcases toList_toString_join p n with hj | hj
  · rw [hj, List.mem_append] at h
    exact h.elim hp hn
  · rw [hj, List.mem_append, List.mem_cons] at h
    rcases h with h | h | h
    · exact hp h
    · exact absurd h (by decide)
    · exact hn h

/-- Only the length of a joined path can speak against it. -/
theorem check_join {p : Path} {n : String} (hp : p.NulFree) (hne : n ≠ "")
    (hn : '\x00' ∉ n.toList) :
    (p.join n).check =
      if (p.join n).size ≤ maxPathSize then .ok () else .error .nameTooLong := by
  have hfree := nulFree_join hp hn
  have hpos : (p.join n).size ≠ 0 := by
    have := size_lt_size_join p hne
    omega
  by_cases hlong : (p.join n).size ≤ maxPathSize
  · rw [if_pos hlong, check_eq_ok_iff]
    exact ⟨hfree, by omega, hlong⟩
  · rw [if_neg hlong, check]
    have hfree' : ((p.join n).toString.toList.contains '\x00') = false := by
      simpa [NulFree] using hfree
    rw [hfree', if_neg (by simp), if_neg hpos, if_pos (by omega)]

theorem nulFree_joinAll {p : Path} {names : List String} (hp : p.NulFree)
    (hn : ∀ n ∈ names, '\x00' ∉ n.toList) : (p.joinAll names).NulFree := by
  induction names with
  | nil => exact hp
  | cons n names ih =>
    obtain ⟨hn, hnames⟩ := List.forall_mem_cons.1 hn
    exact nulFree_join (ih hnames) hn

theorem check_joinAll {p : Path} (hp : p.check = .ok ()) {names : List String}
    (hne : ∀ n ∈ names, n ≠ "") (hn : ∀ n ∈ names, '\x00' ∉ n.toList) :
    (p.joinAll names).check =
      if (p.joinAll names).size ≤ maxPathSize then .ok () else .error .nameTooLong := by
  obtain ⟨hfree, -, hsize⟩ := check_eq_ok_iff.1 hp
  cases names with
  | nil => rw [joinAll_nil, hp, if_pos hsize]
  | cons n names =>
    exact check_join (nulFree_joinAll hfree fun m hm => hn m (List.mem_cons_of_mem n hm))
      (hne n (by simp)) (hn n (by simp))

/-! ## The path without its empty pieces -/

/-- The components of a path, written with single slashes between them. -/
def tidy (p : Path) : Path :=
  (ofString (if p.isAbsolute then "/" else "")).joinAll p.components.reverse

theorem joinAll_of_empty_last (before : List String) {names : List String} (hne : names ≠ [])
    (h : ∀ n ∈ names, n ≠ "") :
    (⟨before ++ [""]⟩ : Path).joinAll names = ⟨before ++ names.reverse⟩ := by
  induction names with
  | nil => exact absurd rfl hne
  | cons n names ih =>
    obtain ⟨-, hnames⟩ := List.forall_mem_cons.1 h
    rcases names with _ | ⟨m, names⟩
    · simp [joinAll, join]
    · rw [joinAll_cons, ih (by simp) hnames]
      have hm : m ≠ "" := hnames m (by simp)
      obtain ⟨xs, hx, -⟩ | ⟨-, hj⟩ := pieces_join ⟨before ++ (m :: names).reverse⟩ n
      · have hlast := congrArg List.getLast? hx
        simp [hm] at hlast
      · exact congrArg mk (hj.trans (by simp))

theorem tidy_eq {p : Path} (hne : p.components ≠ []) :
    p.tidy = ⟨if p.isAbsolute then "" :: p.components else p.components⟩ := by
  have hcomp : ∀ n ∈ p.components.reverse, n ≠ "" := by simp [components]
  have hroot : ofString (if p.isAbsolute then "/" else "") =
      ⟨(if p.isAbsolute then [""] else []) ++ [""]⟩ := by
    cases p.isAbsolute <;> decide
  rw [tidy, hroot, joinAll_of_empty_last _ (by simpa using hne) hcomp, List.reverse_reverse]
  cases p.isAbsolute <;> simp

@[simp] theorem components_components (p : Path) :
    (⟨p.components⟩ : Path).components = p.components := by
  simp [components]

theorem components_tidy {p : Path} (hne : p.components ≠ []) :
    p.tidy.components = p.components := by
  rw [tidy_eq hne]
  cases p.isAbsolute
  · exact components_components p
  · simp [components]

theorem isAbsolute_tidy {p : Path} (hne : p.components ≠ []) :
    p.tidy.isAbsolute = p.isAbsolute := by
  rw [tidy_eq hne]
  obtain ⟨c, cs, hc⟩ := List.exists_cons_of_ne_nil hne
  have hc' : c ≠ "" := by
    have hmem : c ∈ p.components := by simp [hc]
    simpa [components] using (List.mem_filter.1 hmem).2
  cases p.isAbsolute
  · rw [if_neg (by simp), hc]
    rcases cs with _ | ⟨c', cs⟩
    · simp [isAbsolute]
    · rw [isAbsolute_cons_cons, decide_eq_false hc']
  · rw [if_pos rfl, hc, isAbsolute_cons_cons, decide_eq_true rfl]

theorem slashedSize_filter_le (ps : List String) (f : String → Bool) :
    slashedSize (ps.filter f) ≤ slashedSize ps := by
  induction ps with
  | nil => simp
  | cons p ps ih =>
    rw [List.filter_cons]
    split
    · simp only [slashedSize] at ih ⊢
      omega
    · simp only [slashedSize] at ih ⊢
      omega

theorem size_tidy_le {p : Path} (hne : p.components ≠ []) : p.tidy.size ≤ p.size := by
  obtain ⟨c, cs, hc⟩ := List.exists_cons_of_ne_nil hne
  rw [tidy_eq hne]
  rcases p with ⟨_ | ⟨x, ps⟩⟩
  · simp [components] at hc
  · have hle := slashedSize_filter_le (x :: ps) (· ≠ "")
    rw [show (x :: ps).filter (· ≠ "") = c :: cs from hc] at hle
    simp only [slashedSize] at hle
    cases habs : (⟨x :: ps⟩ : Path).isAbsolute
    · rw [if_neg (by simp), hc, size_cons, size_cons]
      omega
    · have hx : x = "" := by
        rcases ps with _ | ⟨y, ps⟩
        · simp [isAbsolute] at habs
        · simpa [isAbsolute_cons_cons] using habs
      have hle' := slashedSize_filter_le ps (· ≠ "")
      have hcs : ps.filter (· ≠ "") = c :: cs := by
        rw [← hc]
        simp [components, hx]
      rw [hcs] at hle'
      rw [if_pos rfl, hc, size_cons, size_cons, hx]
      omega

theorem check_tidy {p : Path} (hne : p.components ≠ []) (h : p.check = .ok ()) :
    p.tidy.check = .ok () := by
  obtain ⟨hfree, -, hlong⟩ := check_eq_ok_iff.1 h
  have hpieces : ∀ piece ∈ p.tidy.pieces, piece = "" ∨ piece ∈ p.pieces := by
    rw [tidy_eq hne]
    intro piece hpiece
    have hcomp : ∀ c ∈ p.components, c ∈ p.pieces := fun c hc => (List.mem_filter.1 hc).1
    cases habs : p.isAbsolute
    · exact .inr (hcomp piece (by simpa [habs] using hpiece))
    · rw [habs] at hpiece
      exact (List.mem_cons.1 hpiece).imp_right (hcomp piece)
  rw [check_eq_ok_iff]
  refine ⟨fun hnul => ?_, ?_, Nat.le_trans (size_tidy_le hne) hlong⟩
  · rcases exists_piece_of_mem_toString hnul with hslash | ⟨piece, hpiece, hc⟩
    · exact absurd hslash (by decide)
    · rcases hpieces piece hpiece with rfl | hmem
      · simp at hc
      · exact hfree (mem_toString hmem hc)
  · obtain ⟨c, cs, hc⟩ := List.exists_cons_of_ne_nil hne
    have hcne : c ≠ "" := by
      have hmem : c ∈ p.components := by simp [hc]
      simpa [components] using (List.mem_filter.1 hmem).2
    have hpos := utf8ByteSize_pos hcne
    rw [tidy_eq hne, hc]
    cases p.isAbsolute
    · rw [if_neg (by simp), size_cons]
      omega
    · rw [if_pos rfl, size_cons]
      simp only [slashedSize]
      omega

end Path

end Stencil
