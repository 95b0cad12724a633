import Stencil.DashCase

/-!
Dash-case names: which characters they are made of (`mem_dashCase`), and which names have none
(`dashCase_eq_empty_iff`).
-/

namespace Stencil

/-- A character that need not be dropped is still there. -/
theorem mem_dropWhile {p : Char → Bool} {c : Char} {cs : List Char} (h : c ∈ cs)
    (hc : p c = false) : c ∈ cs.dropWhile p := by
  induction cs with
  | nil => exact h
  | cons a cs ih =>
    rw [List.dropWhile_cons]
    split
    · rename_i ha
      refine ih ((List.mem_cons.1 h).resolve_left ?_)
      rintro rfl
      simp [hc] at ha
    · exact h

theorem mem_trim {c : Char} {cs : List Char} (h : c ∈ cs) (hc : Text.isBlank c = false) :
    c ∈ Text.trim cs := by
  rw [Text.trim, List.mem_reverse]
  exact mem_dropWhile (List.mem_reverse.2 (mem_dropWhile h hc)) hc

theorem mem_of_mem_trim {c : Char} {cs : List Char} (h : c ∈ Text.trim cs) : c ∈ cs := by
  rw [Text.trim, List.mem_reverse] at h
  have hdropped := (List.dropWhile_sublist _).mem h
  exact (List.dropWhile_sublist _).mem (List.mem_reverse.1 hdropped)

namespace DashCase

theorem mem_write {c : Char} {name cs : List Char} {i : Nat} {fresh : Bool}
    (h : c ∈ write name i fresh cs) :
    c = '-' ∨ ∃ a, Text.isAlphanumeric a ∧ c = a.toLower := by
  induction cs generalizing i fresh with
  | nil => simp [write] at h
  | cons a cs ih =>
    simp only [write] at h
    split at h
    · split at h
      · exact ih h
      · rcases List.mem_cons.1 h with rfl | h
        · exact .inl rfl
        · exact ih h
    · rename_i ha
      have ha' : Text.isAlphanumeric a := by simpa using ha
      split at h
      · rcases List.mem_cons.1 h with rfl | h
        · exact .inl rfl
        · rcases List.mem_cons.1 h with rfl | h
          · exact .inr ⟨a, ha', rfl⟩
          · exact ih h
      · rcases List.mem_cons.1 h with rfl | h
        · exact .inr ⟨a, ha', rfl⟩
        · exact ih h

/-- Nothing is written where there is no letter or digit. -/
theorem write_eq_nil_iff {name cs : List Char} {i : Nat} :
    write name i true cs = [] ↔ ∀ c ∈ cs, Text.isAlphanumeric c = false := by
  induction cs generalizing i with
  | nil => simp [write]
  | cons c cs ih =>
    rw [write, List.forall_mem_cons]
    cases hc : Text.isAlphanumeric c with
    | false => simpa using ih
    | true => simp

theorem mem_dropTail_iff {name : List Char} {c : Char} (hc : Text.isAlphanumeric c) :
    c ∈ dropTail name ↔ c ∈ name := by
  rw [dropTail, List.mem_reverse]
  constructor
  · intro h
    exact List.mem_reverse.1 ((List.dropWhile_sublist _).mem h)
  · intro h
    exact mem_dropWhile (List.mem_reverse.2 h) (by simp [hc])

end DashCase

theorem inRanges_cons_iff {first after n : Nat} {rest : List Nat} :
    Text.inRanges (first :: after :: rest) n ↔
      first ≤ n ∧ (n < after ∨ Text.inRanges rest n) := by
  rw [Text.inRanges_cons]
  by_cases h : n < first
  · simp [h, Nat.not_le_of_lt h]
  · simp [h, Nat.le_of_not_lt h]

/-- No blank is a letter or a digit. -/
theorem not_blank_of_isAlphanumeric {c : Char} (hc : Text.isAlphanumeric c) :
    Text.isBlank c = false := by
  have hall : ∀ n ∈ [0x9, 0xa, 0xb, 0xc, 0xd, 0x20, 0x85, 0xa0, 0x1680, 0x2000, 0x2001, 0x2002,
      0x2003, 0x2004, 0x2005, 0x2006, 0x2007, 0x2008, 0x2009, 0x200a, 0x2028, 0x2029, 0x202f,
      0x205f, 0x3000], Text.isAlphanumeric (Char.ofNat n) = false := by
    decide +kernel
  rw [Bool.eq_false_iff]
  intro hblank
  simp only [Text.isBlank, Text.blankRanges, inRanges_cons_iff, Text.inRanges_nil,
    Bool.false_eq_true, or_false] at hblank
  have hnot := hall c.toNat (by
    simp only [List.mem_cons, List.not_mem_nil, or_false]
    omega)
  rw [Char.ofNat_toNat, hc] at hnot
  cases hnot

/-- A name has no dash-case form if it has neither a letter nor a digit. -/
theorem dashCase_eq_empty_iff {name : String} :
    dashCase name = "" ↔ ∀ c ∈ name.toList, Text.isAlphanumeric c = false := by
  rw [dashCase, ← String.toList_eq_nil_iff, String.toList_ofList, DashCase.ofChars,
    DashCase.write_eq_nil_iff]
  constructor
  · intro h c hc
    rw [Bool.eq_false_iff]
    intro halpha
    have hmem := mem_trim hc (not_blank_of_isAlphanumeric halpha)
    exact absurd halpha (by simp [h c ((DashCase.mem_dropTail_iff halpha).2 hmem)])
  · intro h c hc
    rw [Bool.eq_false_iff]
    intro halpha
    have hmem := mem_of_mem_trim ((DashCase.mem_dropTail_iff halpha).1 hc)
    exact absurd halpha (by simp [h c hmem])

theorem toLower_of_not_ascii {c : Char} (h : 0x80 ≤ c.toNat) : c.toLower = c := by
  have hcapital : ¬ (c.val ≥ 'A'.val ∧ c.val ≤ 'Z'.val) := by
    rintro ⟨-, hle⟩
    have : c.toNat ≤ 0x5a := hle
    omega
  exact dif_neg hcapital

/-- Dashes, digits, small ASCII letters, and characters beyond ASCII. -/
theorem mem_dashCase {c : Char} {name : String} (h : c ∈ (dashCase name).toList) :
    c.toNat = 0x2d ∨ (0x30 ≤ c.toNat ∧ c.toNat ≤ 0x39) ∨ (0x61 ≤ c.toNat ∧ c.toNat ≤ 0x7a) ∨
      0x80 ≤ c.toNat := by
  rw [dashCase, String.toList_ofList] at h
  obtain rfl | ⟨a, ha, rfl⟩ := DashCase.mem_write h
  · exact .inl rfl
  · by_cases hascii : a.toNat < 0x80
    · rw [Text.isAlphanumeric_of_ascii hascii] at ha
      have hall : ∀ n < 0x80, (Char.ofNat n).isAlphanum →
          (0x30 ≤ (Char.ofNat n).toLower.toNat ∧ (Char.ofNat n).toLower.toNat ≤ 0x39) ∨
            (0x61 ≤ (Char.ofNat n).toLower.toNat ∧ (Char.ofNat n).toLower.toNat ≤ 0x7a) := by
        decide
      have hlower := hall a.toNat hascii
      rw [Char.ofNat_toNat] at hlower
      have hlower := hlower ha
      omega
    · rw [toLower_of_not_ascii (Nat.le_of_not_lt hascii)]
      omega

theorem not_mem_dashCase {c : Char} (hlow : c.toNat < 0x30) (hdash : c.toNat ≠ 0x2d)
    (name : String) : c ∉ (dashCase name).toList := by
  intro hmem
  have := mem_dashCase hmem
  omega

/-- A name that is not empty and not too long gives a name that an entry can have. -/
theorem dashCase_spec {name : String} (h : dashCase name ≠ "") :
    (dashCase name ≠ "" ∧ dashCase name ≠ "." ∧ dashCase name ≠ "..") ∧
      '\x00' ∉ (dashCase name).toList := by
  have hdot : '.' ∉ (dashCase name).toList := not_mem_dashCase (by decide) (by decide) name
  refine ⟨⟨h, fun heq => ?_, fun heq => ?_⟩, not_mem_dashCase (by decide) (by decide) name⟩
  · rw [heq] at hdot
    exact hdot (by decide)
  · rw [heq] at hdot
    exact hdot (by decide)

end Stencil
