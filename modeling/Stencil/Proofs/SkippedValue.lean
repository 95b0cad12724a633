import Stencil.Proofs.JsonText

/-!
Values that are skipped.

The grammar says what a value is; the reader that skips it goes by its bytes and at most a given
number of steps. Main statement: a value of any kind and depth is skipped to its end, if something
follows that does not go on a number (`skipAny_value`).
-/

namespace Stencil.Json

/-! ## Numbers -/

/-- What comes next goes on neither a number nor a word. -/
def Delimited (bs : Bytes) : Prop := ∀ b ∈ bs.head?, isBlank b ∨ b ∈ [0x2c, 0x5d, 0x7d]

theorem utf8EncodeChar_digit {c : Char} (h : c.isDigit) :
    ∃ b, String.utf8EncodeChar c = [b] ∧ isDigit b ∧ b.toNat = c.toNat := by
  obtain ⟨hlow, hhigh⟩ : 0x30 ≤ c.toNat ∧ c.toNat ≤ 0x39 := Char.isDigit_iff_toNat.1 h
  refine ⟨_, utf8EncodeChar_of_ascii (by omega), ?_, by rw [UInt8.toNat_ofNat']; omega⟩
  simp only [isDigit, Bool.and_eq_true, decide_eq_true_eq, UInt8.le_iff_toNat_le,
    UInt8.toNat_ofNat']
  have : (0x30 : UInt8).toNat = 0x30 ∧ (0x39 : UInt8).toNat = 0x39 := ⟨rfl, rfl⟩
  omega

theorem Digits.exists_cons {cs : List Char} (h : Digits cs) :
    ∃ b bs, utf8 cs = b :: bs ∧ isDigit b ∧ (b = 0x30 → cs.head? = some '0') := by
  obtain ⟨c, cs, rfl⟩ := List.exists_cons_of_ne_nil h.1
  obtain ⟨b, hb, hdigit, hcode⟩ := utf8EncodeChar_digit (h.2 c List.mem_cons_self)
  refine ⟨b, utf8 cs, utf8_cons_eq hb cs, hdigit, ?_⟩
  rintro rfl
  have hc : '0' = c := Char.toNat_inj.1 hcode
  rw [hc]
  rfl

/-- Digits are skipped up to what is none. -/
theorem dropWhile_digits {cs : List Char} (h : ∀ c ∈ cs, c.isDigit) {bs : Bytes}
    (hbs : ∀ b ∈ bs.head?, ¬ isDigit b) : (utf8 cs ++ bs).dropWhile isDigit = bs := by
  have hdigit : ∀ b ∈ utf8 cs, isDigit b := by
    intro b hb
    obtain ⟨c, hc, hb⟩ := List.mem_flatMap.1 hb
    obtain ⟨x, hx, hdigit, -⟩ := utf8EncodeChar_digit (h c hc)
    rw [hx, List.mem_singleton] at hb
    exact hb ▸ hdigit
  rw [List.dropWhile_append_of_pos hdigit]
  cases bs with
  | nil => rfl
  | cons b bs => exact List.dropWhile_cons_of_neg (hbs b rfl)

/-- Neither a digit nor anything else that goes on a number comes next. -/
def Stops (bs : Bytes) : Prop := ∀ b ∈ bs.head?, ¬ isDigit b ∧ b ∉ [0x2e, 0x65, 0x45]

theorem Delimited.stops {bs : Bytes} (h : Delimited bs) : Stops bs := by
  intro b hb
  have hcases : b ∈ [0x20, 0x0a, 0x0d, 0x09, 0x2c, 0x5d, 0x7d] := by
    have := h b hb
    simp only [isBlank, Bool.or_eq_true, beq_iff_eq, List.mem_cons, List.not_mem_nil,
      or_false] at this ⊢
    tauto
  have hall : ∀ x ∈ ([0x20, 0x0a, 0x0d, 0x09, 0x2c, 0x5d, 0x7d] : Bytes),
      ¬ isDigit x ∧ x ∉ ([0x2e, 0x65, 0x45] : Bytes) := List.all_iff_forall_prop.1 (by decide)
  exact hall b hcases

theorem skipExponent_digits {sign digits : List Char} (hsign : sign ∈ [[], ['+'], ['-']])
    (hdigits : Digits digits) {bs : Bytes} (hbs : Stops bs) :
    skipExponent (utf8 (sign ++ digits) ++ bs) = .ok bs := by
  have hdrop := dropWhile_digits hdigits.2 fun b hb => (hbs b hb).1
  obtain ⟨d, ds, hds, hd, -⟩ := hdigits.exists_cons
  have hunsigned : d ≠ 0x2b ∧ d ≠ 0x2d := by
    constructor <;> rintro rfl <;> exact absurd hd (by decide)
  rw [hds, List.cons_append, List.dropWhile_cons_of_pos hd] at hdrop
  simp only [List.mem_cons, List.not_mem_nil, or_false] at hsign
  rcases hsign with rfl | rfl | rfl
  · rw [List.nil_append, hds, List.cons_append, skipExponent]
    · simp [hd, hdrop]
    · exact fun _ heq => hunsigned.1 (List.cons.inj heq).1
    · exact fun _ heq => hunsigned.2 (List.cons.inj heq).1
  · rw [List.singleton_append, utf8_cons_ascii (by decide), hds]
    simp [skipExponent, hd, hdrop]
  · rw [List.singleton_append, utf8_cons_ascii (by decide), hds]
    simp [skipExponent, hd, hdrop]

/-- The bytes of an exponent begin with its letter, if there is one. -/
theorem Exponent.cases_utf8 {exponent : List Char} (h : Exponent exponent) {bs : Bytes}
    (hbs : Stops bs) :
    (utf8 exponent ++ bs = bs) ∨
      ∃ later, (utf8 exponent ++ bs = 0x65 :: later ∨ utf8 exponent ++ bs = 0x45 :: later) ∧
        skipExponent later = .ok bs := by
  cases h with
  | none => exact .inl rfl
  | @some e sign digits he hsign hdigits =>
    refine .inr ⟨_, ?_, skipExponent_digits hsign hdigits hbs⟩
    simp only [List.mem_cons, List.not_mem_nil, or_false] at he
    rcases he with rfl | rfl
    · exact .inl (congrArg (· ++ bs) (utf8_cons_ascii (by decide) _))
    · exact .inr (congrArg (· ++ bs) (utf8_cons_ascii (by decide) _))

theorem skipNumberTail_of_stops {bs : Bytes} (h : Stops bs) : skipNumberTail bs = .ok bs := by
  cases bs with
  | nil => rfl
  | cons b bs =>
    obtain ⟨-, hb⟩ := h b rfl
    simp only [List.mem_cons, List.not_mem_nil, or_false, not_or] at hb
    rw [skipNumberTail] <;> simp [hb]

theorem Exponent.head? {exponent : List Char} (h : Exponent exponent) {bs : Bytes}
    (hbs : Stops bs) : ∀ b ∈ (utf8 exponent ++ bs).head?, ¬ isDigit b := by
  intro b hb
  obtain heq | ⟨later, heq | heq, -⟩ := h.cases_utf8 hbs
  · rw [heq] at hb
    exact (hbs b hb).1
  · obtain rfl : 0x65 = b := by simpa [heq] using hb
    decide
  · obtain rfl : 0x45 = b := by simpa [heq] using hb
    decide

/-- What follows the digits before the point is skipped, and it begins with none. -/
theorem skipNumberTail_eq {fraction exponent : List Char} (hf : Fraction fraction)
    (he : Exponent exponent) {bs : Bytes} (hbs : Stops bs) :
    skipNumberTail (utf8 fraction ++ (utf8 exponent ++ bs)) = .ok bs ∧
      ∀ b ∈ (utf8 fraction ++ (utf8 exponent ++ bs)).head?, ¬ isDigit b := by
  have hhead := he.head? hbs
  cases hf with
  | none =>
    refine ⟨?_, hhead⟩
    rw [utf8_nil, List.nil_append]
    obtain heq | ⟨later, heq | heq, hskip⟩ := he.cases_utf8 hbs
    · rw [heq, skipNumberTail_of_stops hbs]
    · rw [heq]
      exact hskip
    · rw [heq]
      exact hskip
  | @some digits hdigits =>
    have hdrop := dropWhile_digits hdigits.2 hhead
    obtain ⟨d, ds, hds, hd, -⟩ := hdigits.exists_cons
    rw [hds, List.cons_append] at hdrop
    have hpoint : utf8 ('.' :: digits) = 0x2e :: utf8 digits := utf8_cons_ascii (by decide) digits
    rw [hpoint, hds]
    refine ⟨?_, by simp; decide⟩
    show skipFraction (d :: (ds ++ (utf8 exponent ++ bs))) = .ok bs
    rw [skipFraction, if_pos hd, hdrop]
    obtain heq | ⟨later, heq | heq, hskip⟩ := he.cases_utf8 hbs
    · rw [heq]
      split
      · obtain ⟨-, hb⟩ := hbs 0x65 rfl
        exact absurd (by decide) hb
      · obtain ⟨-, hb⟩ := hbs 0x45 rfl
        exact absurd (by decide) hb
      · rfl
    · rw [heq]
      exact hskip
    · rw [heq]
      exact hskip

theorem Whole.exists_cons {whole : List Char} (h : Whole whole) :
    ∃ b bs, utf8 whole = b :: bs ∧ isDigit b := by
  cases h with
  | zero => exact ⟨0x30, [], by decide, by decide⟩
  | digits hdigits _ =>
    obtain ⟨b, bs, hbs, hb, -⟩ := hdigits.exists_cons
    exact ⟨b, bs, hbs, hb⟩

theorem skipNumber_whole {whole : List Char} (h : Whole whole) {bs rest : Bytes}
    (hskip : skipNumberTail bs = .ok rest) (hbs : ∀ b ∈ bs.head?, ¬ isDigit b) :
    skipNumber (utf8 whole ++ bs) = .ok rest := by
  cases h with
  | zero =>
    have hzero : utf8 ['0'] = [0x30] := by decide
    rw [hzero, List.singleton_append, skipNumber, if_neg, hskip]
    cases bs with
    | nil => simp
    | cons b bs => simpa using hbs b rfl
  | digits hdigits hzero =>
    have hdrop := dropWhile_digits hdigits.2 hbs
    obtain ⟨d, ds, hds, hd, hd'⟩ := hdigits.exists_cons
    have hne : d ≠ 0x30 := fun heq => hzero (hd' heq)
    rw [hds, List.cons_append, List.dropWhile_cons_of_pos hd] at hdrop
    rw [hds, List.cons_append, skipNumber]
    · rw [if_pos hd, hdrop, hskip]
    · exact hne

theorem not_isBlank_of_isDigit {d : UInt8} (hd : isDigit d) : ¬ isBlank d := by
  intro hblank
  simp only [isBlank, Bool.or_eq_true, beq_iff_eq] at hblank
  rcases hblank with ((rfl | rfl) | rfl) | rfl <;> exact absurd hd (by decide)

/-- A digit in place of a value begins a number. -/
theorem skipValue_digit {d : UInt8} (hd : isDigit d) (n : Nat) (bs : Bytes) :
    skipValue (n + 1) (d :: bs) = skipNumber (d :: bs) := by
  have hother : ∀ {x : UInt8} {xs : Bytes}, d :: bs = x :: xs → ¬ isDigit x → False := by
    rintro x xs heq hx
    exact hx ((List.cons.inj heq).1 ▸ hd)
  rw [skipValue, skipBlanks, List.dropWhile_cons_of_neg (not_isBlank_of_isDigit hd)]
  split
  · rename_i heq
    cases heq
  all_goals
    rename_i heq
    first
      | exact (hother heq (by decide)).elim
      | obtain ⟨rfl, rfl⟩ := List.cons.inj heq
        rw [if_pos hd]

theorem skipValue_number {cs : List Char} (h : Number cs) {bs : Bytes} (hbs : Delimited bs)
    (n : Nat) : skipValue (n + 1) (utf8 cs ++ bs) = .ok bs := by
  cases h with
  | @mk sign whole fraction exponent hsign hwhole hfraction hexponent =>
    obtain ⟨htail, hhead⟩ := skipNumberTail_eq hfraction hexponent hbs.stops
    have hskip := skipNumber_whole hwhole htail hhead
    simp only [utf8_append, List.append_assoc]
    simp only [List.mem_cons, List.not_mem_nil, or_false] at hsign
    rcases hsign with rfl | rfl
    · rw [utf8_nil, List.nil_append]
      obtain ⟨d, ds, hds, hd⟩ := hwhole.exists_cons
      rw [hds, List.cons_append] at hskip ⊢
      rw [skipValue_digit hd, hskip]
    · rw [utf8_cons_ascii (by decide)]
      exact hskip

/-! ## What stands between brackets -/

theorem delimited_gap {gap : List Char} (h : Gap gap) {b : UInt8} (hb : b ∈ [0x2c, 0x5d, 0x7d])
    (bs : Bytes) : Delimited (utf8 gap ++ b :: bs) := by
  cases gap with
  | nil =>
    rintro x hx
    obtain rfl : b = x := by simpa using hx
    exact .inr hb
  | cons c gap =>
    obtain ⟨hascii, hblank⟩ := h.blank List.mem_cons_self
    rw [utf8_cons_ascii hascii]
    rintro x hx
    obtain rfl : UInt8.ofNat c.toNat = x := by simpa using hx
    exact .inl hblank

section

variable {gap : List Char} (h : Gap gap) (n : Nat) (bs : Bytes)

include h

theorem skipValue_gap : skipValue n (utf8 gap ++ bs) = skipValue n bs := by
  cases n with
  | zero => rw [skipValue, skipValue]
  | succ n => rw [skipValue, skipValue, skipBlanks_gap h]

theorem skipItems_gap : skipItems n (utf8 gap ++ bs) = skipItems n bs := by
  cases n with
  | zero => rw [skipItems, skipItems]
  | succ n => rw [skipItems, skipItems, skipValue_gap h]

theorem skipMembers_gap : skipMembers n (utf8 gap ++ bs) = skipMembers n bs := by
  cases n with
  | zero => rw [skipMembers, skipMembers]
  | succ n => rw [skipMembers, skipMembers, skipBlanks_gap h]

end

/-- A value begins with a byte that is neither a blank nor a bracket at an end. -/
theorem Derives.exists_cons {cs : List Char} (h : Derives .value cs) :
    ∃ b bs, utf8 cs = b :: bs ∧ ¬ isBlank b ∧ b ∉ [0x5d, 0x7d] := by
  have hascii : ∀ {c : Char} (cs : List Char), c ∈ ['-', '"', '[', '{'] →
      ∃ b bs, utf8 (c :: cs) = b :: bs ∧ ¬ isBlank b ∧ b ∉ [0x5d, 0x7d] := by
    intro c cs hc
    have hall : ∀ c ∈ ['-', '"', '[', '{'], c.toNat < 0x80 ∧
        ¬ isBlank (UInt8.ofNat c.toNat) ∧ UInt8.ofNat c.toNat ∉ ([0x5d, 0x7d] : Bytes) :=
      List.all_iff_forall_prop.1 (by decide)
    obtain ⟨hc, hother⟩ := hall c hc
    exact ⟨_, utf8 cs, utf8_cons_ascii hc cs, hother⟩
  cases h with
  | @word word hword =>
    simp only [List.mem_cons, List.not_mem_nil, or_false] at hword
    rcases hword with rfl | rfl | rfl
    · exact ⟨0x6e, [0x75, 0x6c, 0x6c], by decide⟩
    · exact ⟨0x74, [0x72, 0x75, 0x65], by decide⟩
    · exact ⟨0x66, [0x61, 0x6c, 0x73, 0x65], by decide⟩
  | number hnumber =>
    cases hnumber with
    | mk hsign hwhole _ _ =>
      simp only [List.mem_cons, List.not_mem_nil, or_false] at hsign
      rcases hsign with rfl | rfl
      · obtain ⟨d, ds, hds, hd⟩ := hwhole.exists_cons
        rw [List.nil_append, utf8_append, hds]
        refine ⟨d, _, rfl, not_isBlank_of_isDigit hd, fun hmem => ?_⟩
        simp only [List.mem_cons, List.not_mem_nil, or_false] at hmem
        rcases hmem with rfl | rfl <;> exact absurd hd (by decide)
      · exact hascii _ (by decide)
  | string _ => exact hascii _ (by decide)
  | emptyArray _ => exact hascii _ (by decide)
  | array _ => exact hascii _ (by decide)
  | emptyObject _ => exact hascii _ (by decide)
  | object _ => exact hascii _ (by decide)

/-- Between brackets there is, behind white space, something else than the end. -/
theorem Derives.exists_gap {stretch : Stretch} {cs : List Char} (h : Derives stretch cs)
    (hstretch : stretch ≠ .value) :
    ∃ gap b bs, Gap gap ∧ utf8 cs = utf8 gap ++ b :: bs ∧ ¬ isBlank b ∧ b ∉ [0x5d, 0x7d] := by
  have hitem : ∀ {gap value : List Char} (later : List Char), Gap gap → Derives .value value →
      ∃ gap' b bs, Gap gap' ∧ utf8 (gap ++ (value ++ later)) = utf8 gap' ++ b :: bs ∧
        ¬ isBlank b ∧ b ∉ [0x5d, 0x7d] := by
    intro gap value later hgap hvalue
    obtain ⟨b, bs, hbs, hb⟩ := hvalue.exists_cons
    exact ⟨gap, b, bs ++ utf8 later, hgap, by rw [utf8_append, utf8_append, hbs]; rfl, hb⟩
  have hmember : ∀ {gap : List Char} (later : List Char), Gap gap →
      ∃ gap' b bs, Gap gap' ∧ utf8 (gap ++ '"' :: later) = utf8 gap' ++ b :: bs ∧
        ¬ isBlank b ∧ b ∉ [0x5d, 0x7d] := by
    intro gap later hgap
    refine ⟨gap, 0x22, utf8 later, hgap, ?_, by decide, by decide⟩
    rw [utf8_append, utf8_cons_ascii (by decide)]
    rfl
  cases h with
  | lastItem hgap hvalue => exact hitem _ hgap hvalue
  | item hgap hvalue => exact hitem _ hgap hvalue
  | lastMember hgap => exact hmember _ hgap
  | member hgap => exact hmember _ hgap
  | _ => exact absurd rfl hstretch

section

variable {gap gap₁ gap₂ gap' : List Char} {b : UInt8} {bs rest later : Bytes} {n : Nat}

theorem skipBlanks_gap_cons (h : Gap gap) (hb : ¬ isBlank b) (bs : Bytes) :
    skipBlanks (utf8 gap ++ b :: bs) = b :: bs := by
  rw [skipBlanks_gap h, skipBlanks, List.dropWhile_cons_of_neg hb]

theorem skipValue_emptyArray (h : Gap gap) :
    skipValue (n + 1) (0x5b :: (utf8 gap ++ 0x5d :: bs)) = .ok bs := by
  have hopen : ∀ bs, skipBlanks (0x5b :: bs) = 0x5b :: bs := fun _ => rfl
  simp only [skipValue, hopen, skipBlanks_gap_cons h (b := 0x5d) (by decide)]

theorem skipValue_emptyObject (h : Gap gap) :
    skipValue (n + 1) (0x7b :: (utf8 gap ++ 0x7d :: bs)) = .ok bs := by
  have hopen : ∀ bs, skipBlanks (0x7b :: bs) = 0x7b :: bs := fun _ => rfl
  simp only [skipValue, hopen, skipBlanks_gap_cons h (b := 0x7d) (by decide)]

theorem skipValue_array (h : Gap gap) (hb : ¬ isBlank b) (hend : b ≠ 0x5d) :
    skipValue (n + 1) (0x5b :: (utf8 gap ++ b :: bs)) = skipItems n (utf8 gap ++ b :: bs) := by
  have hopen : ∀ bs, skipBlanks (0x5b :: bs) = 0x5b :: bs := fun _ => rfl
  simp only [skipValue, hopen, skipBlanks_gap_cons h hb, skipItems_gap h]
  split
  · rename_i heq
    exact absurd (List.cons.inj heq).1 hend
  · rfl

theorem skipValue_object (h : Gap gap) (hb : ¬ isBlank b) (hend : b ≠ 0x7d) :
    skipValue (n + 1) (0x7b :: (utf8 gap ++ b :: bs)) = skipMembers n (utf8 gap ++ b :: bs) := by
  have hopen : ∀ bs, skipBlanks (0x7b :: bs) = 0x7b :: bs := fun _ => rfl
  simp only [skipValue, hopen, skipBlanks_gap_cons h hb, skipMembers_gap h]
  split
  · rename_i heq
    exact absurd (List.cons.inj heq).1 hend
  · rfl

theorem skipItems_last (h : Gap gap) (h' : Gap gap')
    (hvalue : skipValue n rest = .ok (utf8 gap' ++ 0x5d :: bs)) :
    skipItems (n + 1) (utf8 gap ++ rest) = .ok bs := by
  simp only [skipItems, skipValue_gap h, hvalue, skipBlanks_gap_cons h' (b := 0x5d) (by decide)]

theorem skipItems_next (h : Gap gap) (h' : Gap gap')
    (hvalue : skipValue n rest = .ok (utf8 gap' ++ 0x2c :: bs)) :
    skipItems (n + 1) (utf8 gap ++ rest) = skipItems n bs := by
  simp only [skipItems, skipValue_gap h, hvalue, skipBlanks_gap_cons h' (b := 0x2c) (by decide)]

section

variable {name : List Char} (h : Gap gap) (hname : StringBody name) (h₁ : Gap gap₁)
  (h₂ : Gap gap₂) (h' : Gap gap')

include h hname h₁ h₂ h'

theorem skipMembers_last (hvalue : skipValue n rest = .ok (utf8 gap' ++ 0x7d :: bs)) :
    skipMembers (n + 1)
        (utf8 gap ++ 0x22 :: (utf8 name ++ 0x22 :: (utf8 gap₁ ++ 0x3a :: (utf8 gap₂ ++ rest)))) =
      .ok bs := by
  simp only [skipMembers, skipBlanks_gap_cons h (b := 0x22) (by decide), skipString_body hname,
    skipBlanks_gap_cons h₁ (b := 0x3a) (by decide), skipValue_gap h₂, hvalue,
    skipBlanks_gap_cons h' (b := 0x7d) (by decide)]

theorem skipMembers_next (hvalue : skipValue n rest = .ok (utf8 gap' ++ 0x2c :: bs)) :
    skipMembers (n + 1)
        (utf8 gap ++ 0x22 :: (utf8 name ++ 0x22 :: (utf8 gap₁ ++ 0x3a :: (utf8 gap₂ ++ rest)))) =
      skipMembers n bs := by
  simp only [skipMembers, skipBlanks_gap_cons h (b := 0x22) (by decide), skipString_body hname,
    skipBlanks_gap_cons h₁ (b := 0x3a) (by decide), skipValue_gap h₂, hvalue,
    skipBlanks_gap_cons h' (b := 0x2c) (by decide)]

end

end

/-- The reader that skips a stretch. -/
def Stretch.skip : Stretch → Nat → Bytes → Except Fault Bytes
  | value => skipValue
  | items => skipItems
  | members => skipMembers

/-- Whatever is derived is skipped to its end. -/
theorem Derives.skip_eq {stretch : Stretch} {cs : List Char} (h : Derives stretch cs) :
    ∀ n bs, 2 * cs.length ≤ n → (stretch = .value → Delimited bs) →
      stretch.skip (n + 1) (utf8 cs ++ bs) = .ok bs := by
  induction h with
  | word hword =>
    intro n bs hn hbs
    simp only [List.mem_cons, List.not_mem_nil, or_false] at hword
    rcases hword with rfl | rfl | rfl
    · have hutf8 : utf8 "null".toList = [0x6e, 0x75, 0x6c, 0x6c] := by decide
      rw [hutf8]
      rfl
    · have hutf8 : utf8 "true".toList = [0x74, 0x72, 0x75, 0x65] := by decide
      rw [hutf8]
      rfl
    · have hutf8 : utf8 "false".toList = [0x66, 0x61, 0x6c, 0x73, 0x65] := by decide
      rw [hutf8]
      rfl
  | number hnumber => exact fun n bs _ hbs => skipValue_number hnumber (hbs rfl) n
  | @string cs hbody =>
    intro n bs hn hbs
    simp (disch := decide) only [utf8_append, utf8_cons_ascii, utf8_nil, List.append_assoc,
      List.cons_append, List.nil_append]
    exact skipString_body hbody bs
  | @emptyArray gap hgap =>
    intro n bs hn hbs
    simp (disch := decide) only [utf8_append, utf8_cons_ascii, utf8_nil, List.append_assoc,
      List.cons_append, List.nil_append]
    exact skipValue_emptyArray hgap
  | @array cs hitems ih =>
    intro n bs hn hbs
    obtain ⟨gap, b, later, hgap, hutf8, hb, hend⟩ := hitems.exists_gap (by simp)
    rw [List.length_cons] at hn
    obtain ⟨n, rfl⟩ : ∃ m, n = m + 1 := ⟨n - 1, by omega⟩
    have hitems := ih n bs (by omega) (by simp)
    rw [hutf8, List.append_assoc] at hitems
    rw [utf8_cons_ascii (by decide), List.cons_append, hutf8, List.append_assoc]
    exact (skipValue_array hgap hb (by simp_all)).trans hitems
  | @emptyObject gap hgap =>
    intro n bs hn hbs
    simp (disch := decide) only [utf8_append, utf8_cons_ascii, utf8_nil, List.append_assoc,
      List.cons_append, List.nil_append]
    exact skipValue_emptyObject hgap
  | @object cs hmembers ih =>
    intro n bs hn hbs
    obtain ⟨gap, b, later, hgap, hutf8, hb, hend⟩ := hmembers.exists_gap (by simp)
    rw [List.length_cons] at hn
    obtain ⟨n, rfl⟩ : ∃ m, n = m + 1 := ⟨n - 1, by omega⟩
    have hmembers := ih n bs (by omega) (by simp)
    rw [hutf8, List.append_assoc] at hmembers
    rw [utf8_cons_ascii (by decide), List.cons_append, hutf8, List.append_assoc]
    exact (skipValue_object hgap hb (by simp_all)).trans hmembers
  | @lastItem gap value gap' hgap hvalue hgap' ih =>
    intro n bs hn hbs
    simp only [List.length_append, List.length_cons, List.length_nil] at hn
    obtain ⟨n, rfl⟩ : ∃ m, n = m + 1 := ⟨n - 1, by omega⟩
    have hvalue := ih n (utf8 gap' ++ 0x5d :: bs) (by omega)
      fun _ => delimited_gap hgap' (by decide) bs
    simp (disch := decide) only [utf8_append, utf8_cons_ascii, utf8_nil, List.append_assoc,
      List.cons_append, List.nil_append]
    exact skipItems_last hgap hgap' hvalue
  | @item gap value gap' later hgap hvalue hgap' hlater ih ih' =>
    intro n bs hn hbs
    simp only [List.length_append, List.length_cons] at hn
    obtain ⟨n, rfl⟩ : ∃ m, n = m + 1 := ⟨n - 1, by omega⟩
    have hvalue := ih n (utf8 gap' ++ 0x2c :: (utf8 later ++ bs)) (by omega)
      fun _ => delimited_gap hgap' (by decide) _
    simp (disch := decide) only [utf8_append, utf8_cons_ascii, List.append_assoc,
      List.cons_append]
    exact (skipItems_next hgap hgap' hvalue).trans (ih' n bs (by omega) (by simp))
  | @lastMember gap name gap₁ gap₂ value gap' hgap hname hgap₁ hgap₂ hvalue hgap' ih =>
    intro n bs hn hbs
    simp only [List.length_append, List.length_cons, List.length_nil] at hn
    obtain ⟨n, rfl⟩ : ∃ m, n = m + 1 := ⟨n - 1, by omega⟩
    have hvalue := ih n (utf8 gap' ++ 0x7d :: bs) (by omega)
      fun _ => delimited_gap hgap' (by decide) bs
    simp (disch := decide) only [utf8_append, utf8_cons_ascii, utf8_nil, List.append_assoc,
      List.cons_append, List.nil_append]
    exact skipMembers_last hgap hname hgap₁ hgap₂ hgap' hvalue
  | @member gap name gap₁ gap₂ value gap' later hgap hname hgap₁ hgap₂ hvalue hgap' hlater ih ih' =>
    intro n bs hn hbs
    simp only [List.length_append, List.length_cons] at hn
    obtain ⟨n, rfl⟩ : ∃ m, n = m + 1 := ⟨n - 1, by omega⟩
    have hvalue := ih n (utf8 gap' ++ 0x2c :: (utf8 later ++ bs)) (by omega)
      fun _ => delimited_gap hgap' (by decide) _
    simp (disch := decide) only [utf8_append, utf8_cons_ascii, List.append_assoc,
      List.cons_append]
    exact (skipMembers_next hgap hname hgap₁ hgap₂ hgap' hvalue).trans
      (ih' n bs (by omega) (by simp))

theorem skipAny_value {gap cs : List Char} (hgap : Gap gap) (h : Derives .value cs) {bs : Bytes}
    (hbs : Delimited bs) : skipAny (utf8 (gap ++ cs) ++ bs) = .ok bs := by
  have hlength := length_le_utf8 cs
  rw [skipAny, utf8_append, List.append_assoc, skipValue_gap hgap]
  refine h.skip_eq (2 * (utf8 gap ++ (utf8 cs ++ bs)).length + 1) bs ?_ fun _ => hbs
  simp only [List.length_append]
  omega

end Stencil.Json
