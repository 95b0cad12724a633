import Stencil.Proofs.DirectoryName
import Stencil.Wizard

/-!
Dash-case names that are written in dash case again.

Writing such a name again can only add dashes: in front of a digit or a letter beyond ASCII that
goes on a word and stands beside a small letter. `Unbroken` says that there is none. Main statement:
exactly then the name is kept, and leads to the directory that it is the name of
(`dashCase_dashCase_iff`).
-/

namespace Stencil

namespace DashCase

/-- A dash is written in front of `c`, which stands in `name` behind `front`: it goes on a word,
counts as the first letter of one, and stands beside a small letter. Its neighbours are looked at by
the number of bytes in front of it. -/
structure Breaks (name front : List Char) (c : Char) : Prop where
  letter : c ≠ '-'
  goes_on : ∃ a, front.getLast? = some a ∧ a ≠ '-'
  starts : startsWord c
  beside : besideLowercase name (String.ofList front).utf8ByteSize

/-- No dash comes behind `front`: it is empty or ends with one. -/
def freshBehind (front : List Char) : Bool := front.getLast?.all (· == '-')

end DashCase

/-- No word is broken when the name is written again. -/
def Unbroken (name : List Char) : Prop :=
  ∀ front c rest, name = front ++ c :: rest → ¬ DashCase.Breaks name front c

namespace DashCase

variable {name front cs : List Char} {i : Nat} {fresh : Bool} {c : Char}

theorem freshBehind_concat (front : List Char) (c : Char) :
    freshBehind (front ++ [c]) = (c == '-') := by
  simp [freshBehind]

theorem freshBehind_eq_false_iff :
    freshBehind front = false ↔ ∃ a, front.getLast? = some a ∧ a ≠ '-' := by
  rw [freshBehind]
  cases front.getLast? <;> simp

theorem toLower_of_not_upper (h : ¬ c.isUpper) : c.toLower = c :=
  dif_neg fun hcapital => h (decide_eq_true hcapital)

/-! ## One character -/

/-- A small letter or digit is kept as it is, if no dash comes in front of it. -/
theorem write_letter_iff (hc : Text.isAlphanumeric c) (hsmall : c.toLower = c) :
    write name i fresh (c :: cs) = c :: cs ↔
      ¬ (fresh = false ∧ startsWord c ∧ besideLowercase name i) ∧
        write name (i + c.utf8Size) false cs = cs := by
  have hdash : c ≠ '-' := by
    rintro rfl
    simp [not_isAlphanumeric_dash] at hc
  rw [write]
  by_cases hbreak : fresh = false ∧ startsWord c ∧ besideLowercase name i
  · simp [hc, hbreak, hdash.symm]
  · have hcond : (!fresh && startsWord c && besideLowercase name i) = false := by
      simpa [Bool.and_assoc] using hbreak
    simp [hc, hcond, hbreak, hsmall]

theorem write_dash_iff :
    write name i false ('-' :: cs) = '-' :: cs ↔ write name (i + '-'.utf8Size) true cs = cs := by
  rw [write]
  simp [not_isAlphanumeric_dash]

/-- What is said of all characters is said of the first one and of those behind it. -/
theorem forall_split_cons {P : List Char → Char → Prop} :
    (∀ middle d rest, c :: cs = middle ++ d :: rest → P middle d) ↔
      P [] c ∧ ∀ middle d rest, cs = middle ++ d :: rest → P (c :: middle) d := by
  constructor
  · intro h
    exact ⟨h [] c cs rfl, fun middle d rest heq => h (c :: middle) d rest (by simp [heq])⟩
  · rintro ⟨hfirst, hrest⟩ middle d rest heq
    rcases List.cons_eq_append_iff.1 heq with ⟨rfl, hcons⟩ | ⟨middle', rfl, heq⟩
    · obtain ⟨rfl, -⟩ := List.cons.inj hcons
      exact hfirst
    · exact hrest middle' d rest (List.cons.inj heq).2

/-! ## The whole name -/

/-- A single dash stands behind a letter or digit. -/
theorem freshBehind_of_dash (h : Dashed name) (hname : name = front ++ '-' :: cs) :
    freshBehind front = false := by
  rw [freshBehind_eq_false_iff]
  cases hlast : front.getLast? with
  | none =>
    obtain rfl := List.getLast?_eq_none_iff.1 hlast
    exact absurd (by rw [hname]; rfl) h.head
  | some a =>
    refine ⟨a, rfl, ?_⟩
    rintro rfl
    obtain ⟨before, rfl⟩ := List.getLast?_eq_some_iff.1 hlast
    exact h.single ⟨before, cs, by simp [hname]⟩

/-- Writing small letters and single dashes again can only break words. -/
theorem write_eq_self_iff (h : Dashed name) (hname : name = front ++ cs) :
    write name (String.ofList front).utf8ByteSize (freshBehind front) cs = cs ↔
      ∀ middle c rest, cs = middle ++ c :: rest → ¬ Breaks name (front ++ middle) c := by
  induction cs generalizing front with
  | nil => simp [write]
  | cons c cs ih =>
    have hmem : c ∈ name := by simp [hname]
    have hsize : (String.ofList (front ++ [c])).utf8ByteSize =
        (String.ofList front).utf8ByteSize + c.utf8Size := by
      rw [Path.utf8ByteSize_ofList_append]
      simp
    have hbehind : name = front ++ [c] ++ cs := by simp [hname]
    have hrest := ih hbehind
    rw [freshBehind_concat, hsize] at hrest
    simp only [List.append_assoc, List.singleton_append] at hrest
    rw [forall_split_cons, List.append_nil, ← hrest]
    by_cases hdash : c = '-'
    · subst hdash
      have hkeeps : ¬ Breaks name front '-' := fun hbreaks => hbreaks.letter rfl
      rw [freshBehind_of_dash h hname, write_dash_iff]
      simp [hkeeps]
    · have hletter : Text.isAlphanumeric c := (h.made_of c hmem).resolve_right hdash
      have hbreaks : Breaks name front c ↔ freshBehind front = false ∧ startsWord c ∧
          besideLowercase name (String.ofList front).utf8ByteSize := by
        rw [freshBehind_eq_false_iff]
        constructor
        · intro hbreaks
          exact ⟨hbreaks.goes_on, hbreaks.starts, hbreaks.beside⟩
        · rintro ⟨hgoes, hstarts, hbeside⟩
          exact ⟨hdash, hgoes, hstarts, hbeside⟩
      have hsmall := toLower_of_not_upper (h.small c hmem)
      rw [write_letter_iff hletter hsmall, ← hbreaks, beq_false_of_ne hdash]

end DashCase

/-! ## Names that are kept -/

theorem dropWhile_of_head? {p : Char → Bool} {cs : List Char}
    (h : ∀ c, cs.head? = some c → p c = false) : cs.dropWhile p = cs := by
  cases cs with
  | nil => rfl
  | cons c cs => exact List.dropWhile_cons_of_neg (by simp [h c rfl])

theorem Dashed.not_blank {cs : List Char} (h : Dashed cs) {c : Char} (hc : c ∈ cs) :
    Text.isBlank c = false := by
  rcases h.made_of c hc with hletter | rfl
  · exact not_blank_of_isAlphanumeric hletter
  · decide

theorem Dashed.trim_eq {cs : List Char} (h : Dashed cs) : Text.trim cs = cs := by
  rw [Text.trim, dropWhile_of_head? fun c hc => h.not_blank (List.mem_of_head? hc),
    dropWhile_of_head? fun c hc => h.not_blank (List.mem_reverse.1 (List.mem_of_head? hc)),
    List.reverse_reverse]

theorem Dashed.dropTail_eq {cs : List Char} (h : Dashed cs) : DashCase.dropTail cs = cs := by
  rw [DashCase.dropTail, dropWhile_of_head?, List.reverse_reverse]
  intro c hc
  rw [List.head?_reverse] at hc
  have hletter : Text.isAlphanumeric c := by
    refine (h.made_of c (List.mem_of_getLast? hc)).resolve_right ?_
    rintro rfl
    exact h.last hc
  simp [hletter]

/-- The names that are their own dash-case form. -/
theorem dashCase_eq_self_iff {name : String} :
    dashCase name = name ↔ Dashed name.toList ∧ Unbroken name.toList := by
  have hkept : Dashed name.toList → (dashCase name = name ↔ Unbroken name.toList) := by
    intro h
    rw [dashCase, ← String.toList_inj, String.toList_ofList, DashCase.ofChars, h.trim_eq,
      h.dropTail_eq]
    exact DashCase.write_eq_self_iff h (List.nil_append _).symm
  constructor
  · intro h
    have hdashed : Dashed name.toList := h ▸ dashed_dashCase name
    exact ⟨hdashed, (hkept hdashed).1 h⟩
  · rintro ⟨hdashed, hunbroken⟩
    exact (hkept hdashed).2 hunbroken

/-! ## Names in ASCII -/

/-- A digit that goes on a word stands neither behind a small letter nor in front of one. -/
def DigitsApart (name : List Char) : Prop :=
  ∀ front a d rest, name = front ++ a :: d :: rest → a ≠ '-' → d.isDigit →
    ¬ a.isLower ∧ ∀ b, rest.head? = some b → ¬ b.isLower

theorem utf8ByteSize_of_ascii {cs : List Char} (h : ∀ c ∈ cs, c.toNat < 0x80) :
    (String.ofList cs).utf8ByteSize = cs.length := by
  induction cs with
  | nil => rfl
  | cons c cs ih =>
    obtain ⟨hc, hcs⟩ := List.forall_mem_cons.1 h
    have hone : c.utf8Size = 1 := Char.utf8Size_eq_one_iff.2 (Nat.le_of_lt_succ hc)
    have hfirst : (String.ofList [c]).utf8ByteSize = 1 := by simpa using hone
    rw [← List.singleton_append, Path.utf8ByteSize_ofList_append, hfirst, ih hcs,
      List.length_append, List.length_singleton]

theorem startsWord_iff_of_ascii {c : Char} (hc : c.toNat < 0x80) :
    DashCase.startsWord c ↔ ¬ c.isLower := by
  have hall : ∀ n < 0x80, DashCase.startsWord (Char.ofNat n) ↔ ¬ (Char.ofNat n).isLower := by
    decide
  have hn := hall c.toNat hc
  rwa [Char.ofNat_toNat] at hn

theorem Dashed.isDigit_iff {name : List Char} (h : Dashed name) {c : Char} (hc : c ∈ name)
    (hascii : c.toNat < 0x80) : c.isDigit ↔ c ≠ '-' ∧ DashCase.startsWord c := by
  rw [startsWord_iff_of_ascii hascii]
  rcases h.made_of c hc with hletter | rfl
  · have hdash : c ≠ '-' := by
      rintro rfl
      simp [DashCase.not_isAlphanumeric_dash] at hletter
    rw [Text.isAlphanumeric_of_ascii hascii] at hletter
    have hall : ∀ n < 0x80, (Char.ofNat n).isAlphanum → ¬ (Char.ofNat n).isUpper →
        ((Char.ofNat n).isDigit ↔ ¬ (Char.ofNat n).isLower) := by
      decide
    have hdigit := hall c.toNat hascii
    rw [Char.ofNat_toNat] at hdigit
    rw [and_iff_right hdash]
    exact hdigit hletter (h.small c hc)
  · decide

/-- In ASCII the number of bytes in front of a character is that of the characters, so that its
own neighbours are looked at. -/
theorem besideLowercase_iff_of_ascii {front rest : List Char} {a d : Char}
    (hascii : ∀ c ∈ front ++ a :: d :: rest, c.toNat < 0x80) :
    DashCase.besideLowercase (front ++ a :: d :: rest)
        (String.ofList (front ++ [a])).utf8ByteSize ↔
      a.isLower ∨ ∃ b, rest.head? = some b ∧ b.isLower := by
  have hsize : (String.ofList (front ++ [a])).utf8ByteSize = front.length + 1 := by
    rw [utf8ByteSize_of_ascii fun c hc => hascii c (by simp at hc ⊢; tauto)]
    simp
  have hbefore : (front ++ a :: d :: rest)[front.length]? = some a := by simp
  have hbehind : (front ++ a :: d :: rest)[front.length + 1 + 1]? = rest.head? := by
    rw [Nat.add_assoc, List.getElem?_append_right (Nat.le_add_right _ _), Nat.add_sub_cancel_left]
    simp [List.head?_eq_getElem?]
  rw [hsize, DashCase.besideLowercase, Nat.add_sub_cancel, hbefore, hbehind, Bool.or_eq_true,
    or_comm, Option.any_some, Text.isLowercase_of_ascii (hascii a (by simp)), Option.any_eq_true]
  refine or_congr_right (exists_congr fun b => and_congr_right fun hb => ?_)
  have hmem : b ∈ rest := List.mem_of_head? hb
  rw [Text.isLowercase_of_ascii (hascii b (by simp [hmem]))]

/-- In ASCII only digits can break a word. -/
theorem unbroken_iff_of_ascii {name : List Char} (h : Dashed name)
    (hascii : ∀ c ∈ name, c.toNat < 0x80) : Unbroken name ↔ DigitsApart name := by
  constructor
  · rintro hunbroken front a d rest rfl hdash hdigit
    obtain ⟨hletter, hstarts⟩ := (h.isDigit_iff (by simp) (hascii d (by simp))).1 hdigit
    have hnot := hunbroken (front ++ [a]) d rest (by simp)
    have hbeside : ¬ (a.isLower ∨ ∃ b, rest.head? = some b ∧ b.isLower) := fun hbeside =>
      hnot ⟨hletter, ⟨a, by simp, hdash⟩, hstarts, (besideLowercase_iff_of_ascii hascii).2 hbeside⟩
    rw [not_or, not_exists] at hbeside
    exact ⟨hbeside.1, fun b hb hlower => hbeside.2 b ⟨hb, hlower⟩⟩
  · rintro hapart front d rest rfl ⟨hletter, ⟨a, ha, hdash⟩, hstarts, hbeside⟩
    obtain ⟨front, rfl⟩ := List.getLast?_eq_some_iff.1 ha
    rw [List.append_assoc, List.singleton_append] at h hascii hapart hbeside
    have hdigit := (h.isDigit_iff (by simp) (hascii d (by simp))).2 ⟨hletter, hstarts⟩
    obtain ⟨hbefore, hbehind⟩ := hapart front a d rest rfl hdash hdigit
    rcases (besideLowercase_iff_of_ascii hascii).1 hbeside with hlower | ⟨b, hb, hlower⟩
    · exact hbefore hlower
    · exact hbehind b hb hlower

/-! ## The directory of a project -/

theorem Path.getLast?_join (p : Path) (n : String) : (p.join n).pieces.getLast? = some n := by
  obtain ⟨before, -, hj⟩ | ⟨-, hj⟩ := pieces_join p n
  · simp [hj]
  · simp [hj]

theorem Path.join_inj {p : Path} {n m : String} : p.join n = p.join m ↔ n = m := by
  constructor
  · intro h
    have hlast := p.getLast?_join n
    rw [h, p.getLast?_join m] at hlast
    exact (Option.some.inj hlast).symm
  · exact congrArg p.join

/-- The dash-case form of a name is kept, and leads to the directory that it is the name of, exactly
when no word of it is broken. Otherwise it leads to another directory. -/
theorem dashCase_dashCase_iff (name : String) :
    (dashCase (dashCase name) = dashCase name ↔ Unbroken (dashCase name).toList) ∧
      (∀ base, destinationOf base (dashCase name) = destinationOf base name ↔
        Unbroken (dashCase name).toList) ∧
      (Unbroken (dashCase name).toList → ∀ (files : FileSystem) base,
        files.isAvailable base (dashCase name) = files.isAvailable base name) ∧
      ((∀ c ∈ (dashCase name).toList, c.toNat < 0x80) →
        (Unbroken (dashCase name).toList ↔ DigitsApart (dashCase name).toList)) := by
  have hkept : dashCase (dashCase name) = dashCase name ↔ Unbroken (dashCase name).toList := by
    rw [dashCase_eq_self_iff]
    exact and_iff_right (dashed_dashCase name)
  refine ⟨hkept, fun base => ?_, fun hunbroken files base => ?_,
    unbroken_iff_of_ascii (dashed_dashCase name)⟩
  · rw [destinationOf, destinationOf, Path.join_inj]
    exact hkept
  · rw [FileSystem.isAvailable, FileSystem.isAvailable, destinationOf, destinationOf,
      hkept.2 hunbroken]

/-- The digit begins a word, and the small letters behind it do not. -/
theorem dashCase_dashCase_kept :
    (∀ c ∈ (dashCase "My App, 2nd").toList, c.toNat < 0x80) ∧
      DigitsApart (dashCase "My App, 2nd").toList ∧
      dashCase (dashCase "My App, 2nd") = dashCase "My App, 2nd" := by
  obtain ⟨hkept, -, -, happart⟩ := dashCase_dashCase_iff "My App, 2nd"
  have hform : dashCase "My App, 2nd" = "my-app-2nd" := by decide +kernel
  have hascii : ∀ c ∈ (dashCase "My App, 2nd").toList, c.toNat < 0x80 := by
    rw [hform]
    simp
  have hsame : dashCase (dashCase "My App, 2nd") = dashCase "My App, 2nd" := by
    rw [hform]
    decide +kernel
  exact ⟨hascii, (happart hascii).1 (hkept.1 hsame), hsame⟩

/-! ## A name that is not kept -/

/-- The directory of a project with the name `A1`. -/
def numberedFiles : FileSystem where
  entries := [(["a1"], .directory)]
  workingDirectory := []

/-- In the form of `A1` the digit comes to stand behind a small letter, and the directory is not
found under its own name. -/
theorem dashCase_dashCase_digit :
    dashCase "A1" = "a1" ∧ dashCase (dashCase "A1") ≠ dashCase "A1" ∧
      numberedFiles.isAvailable ⟨["."]⟩ "A1" = false ∧
      numberedFiles.isAvailable ⟨["."]⟩ (dashCase "A1") = true := by
  decide +kernel

end Stencil
