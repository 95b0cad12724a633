import Stencil.Proofs.QuotedText
import Stencil.Proofs.SpelledText

/-!
The grammar of JSON texts, and how strings are read.

Main statements: a string is read back however its characters are spelled (`stringText_spelled`),
and one that need not be text is skipped to its end (`skipString_body`).
-/

namespace Stencil.Json

/-! ## The grammar -/

/-- White space between the parts of a text. -/
def Gap (cs : List Char) : Prop := ∀ c ∈ cs, c ∈ [' ', '\n', '\r', '\t']

/-- The characters that a letter behind a backslash stands for. -/
def letterEscapes : List (Char × Char) :=
  [('"', '"'), ('\\', '\\'), ('/', '/'), ('\x08', 'b'), ('\x0c', 'f'), ('\n', 'n'), ('\r', 'r'),
    ('\t', 't')]

/-- The ways in which a character stands between the quotes. One beyond the first plane can be
written as two surrogates. -/
inductive Spelling : Char → List Char → Prop
  | plain {c : Char} : Unescaped c → Spelling c [c]
  | letter {c e : Char} : (c, e) ∈ letterEscapes → Spelling c ['\\', e]
  | unit {c : Char} {digits : List Char} : digits.length = 4 → HexNumeral c.toNat digits →
      Spelling c ('\\' :: 'u' :: digits)
  | pair {c : Char} {high low : Nat} {digits digits' : List Char} :
      digits.length = 4 → digits'.length = 4 → HexNumeral high digits → HexNumeral low digits' →
      0xd800 ≤ high ∧ high < 0xdc00 → 0xdc00 ≤ low ∧ low < 0xe000 →
      c.toNat = 0x10000 + (high - 0xd800) * 0x400 + (low - 0xdc00) →
      Spelling c ('\\' :: 'u' :: (digits ++ '\\' :: 'u' :: digits'))

/-- A string between its quotes. -/
def Quoted (s : String) (cs : List Char) : Prop :=
  ∃ text, Spelled Spelling s.toList text ∧ cs = '"' :: (text ++ ['"'])

/-- What stands between the quotes of a string that need not be text: a surrogate may be alone. -/
inductive StringBody : List Char → Prop
  | nil : StringBody []
  | plain {c : Char} {cs : List Char} : Unescaped c → StringBody cs → StringBody (c :: cs)
  | letter {c e : Char} {cs : List Char} : (c, e) ∈ letterEscapes → StringBody cs →
      StringBody ('\\' :: e :: cs)
  | unit {n : Nat} {digits cs : List Char} : digits.length = 4 → HexNumeral n digits →
      StringBody cs → StringBody ('\\' :: 'u' :: (digits ++ cs))

def Digits (cs : List Char) : Prop := cs ≠ [] ∧ ∀ c ∈ cs, c.isDigit

/-- The digits before the point: no zero in front of others. -/
inductive Whole : List Char → Prop
  | zero : Whole ['0']
  | digits {cs : List Char} : Digits cs → cs.head? ≠ some '0' → Whole cs

inductive Fraction : List Char → Prop
  | none : Fraction []
  | some {digits : List Char} : Digits digits → Fraction ('.' :: digits)

inductive Exponent : List Char → Prop
  | none : Exponent []
  | some {e : Char} {sign digits : List Char} : e ∈ ['e', 'E'] → sign ∈ [[], ['+'], ['-']] →
      Digits digits → Exponent (e :: (sign ++ digits))

inductive Number : List Char → Prop
  | mk {sign whole fraction exponent : List Char} : sign ∈ [[], ['-']] → Whole whole →
      Fraction fraction → Exponent exponent → Number (sign ++ (whole ++ (fraction ++ exponent)))

/-- What a stretch of a text is: a value, or the items of an array or the members of an object up
to the closing bracket. -/
inductive Stretch
  | value
  | items
  | members

/-- The grammar of the texts. -/
inductive Derives : Stretch → List Char → Prop
  | word {word : String} : word ∈ ["null", "true", "false"] → Derives .value word.toList
  | number {cs : List Char} : Number cs → Derives .value cs
  | string {cs : List Char} : StringBody cs → Derives .value ('"' :: (cs ++ ['"']))
  | emptyArray {gap : List Char} : Gap gap → Derives .value ('[' :: (gap ++ [']']))
  | array {cs : List Char} : Derives .items cs → Derives .value ('[' :: cs)
  | emptyObject {gap : List Char} : Gap gap → Derives .value ('{' :: (gap ++ ['}']))
  | object {cs : List Char} : Derives .members cs → Derives .value ('{' :: cs)
  | lastItem {gap value gap' : List Char} : Gap gap → Derives .value value → Gap gap' →
      Derives .items (gap ++ (value ++ (gap' ++ [']'])))
  | item {gap value gap' later : List Char} : Gap gap → Derives .value value → Gap gap' →
      Derives .items later → Derives .items (gap ++ (value ++ (gap' ++ ',' :: later)))
  | lastMember {gap name gap₁ gap₂ value gap' : List Char} : Gap gap → StringBody name →
      Gap gap₁ → Gap gap₂ → Derives .value value → Gap gap' →
      Derives .members (gap ++ '"' :: (name ++ '"' :: (gap₁ ++ ':' :: (gap₂ ++
        (value ++ (gap' ++ ['}']))))))
  | member {gap name gap₁ gap₂ value gap' later : List Char} : Gap gap → StringBody name →
      Gap gap₁ → Gap gap₂ → Derives .value value → Gap gap' → Derives .members later →
      Derives .members (gap ++ '"' :: (name ++ '"' :: (gap₁ ++ ':' :: (gap₂ ++
        (value ++ (gap' ++ ',' :: later))))))

/-! ## Bytes of the texts -/

theorem utf8_cons_eq {c : Char} {b : UInt8} (h : String.utf8EncodeChar c = [b]) (cs : List Char) :
    utf8 (c :: cs) = b :: utf8 cs := by
  rw [utf8_cons, h]
  rfl

/-- A character of ASCII is one byte. -/
theorem utf8_cons_ascii {c : Char} (h : c.toNat < 0x80) (cs : List Char) :
    utf8 (c :: cs) = UInt8.ofNat c.toNat :: utf8 cs :=
  utf8_cons_eq (utf8EncodeChar_of_ascii h) cs

theorem length_le_utf8 (cs : List Char) : cs.length ≤ (utf8 cs).length := by
  induction cs with
  | nil => rfl
  | cons c cs ih =>
    have hpos := String.length_utf8EncodeChar c ▸ c.utf8Size_pos
    rw [utf8_cons, List.length_append, List.length_cons]
    omega

theorem Gap.blank {gap : List Char} (h : Gap gap) {c : Char} (hc : c ∈ gap) :
    c.toNat < 0x80 ∧ isBlank (UInt8.ofNat c.toNat) := by
  have hall : ∀ c ∈ [' ', '\n', '\r', '\t'], c.toNat < 0x80 ∧ isBlank (UInt8.ofNat c.toNat) :=
    List.all_iff_forall_prop.1 (by decide)
  exact hall c (h c hc)

theorem skipBlanks_gap {gap : List Char} (h : Gap gap) (bs : Bytes) :
    skipBlanks (utf8 gap ++ bs) = skipBlanks bs := by
  have hblank : ∀ b ∈ utf8 gap, isBlank b := by
    intro b hb
    obtain ⟨c, hc, hb⟩ := List.mem_flatMap.1 hb
    obtain ⟨hascii, hblank⟩ := h.blank hc
    rw [utf8EncodeChar_of_ascii hascii, List.mem_singleton] at hb
    exact hb ▸ hblank
  rw [skipBlanks, skipBlanks, List.dropWhile_append_of_pos hblank]

theorem gap_nil : Gap [] := fun _ h => absurd h List.not_mem_nil

/-! ## Strings -/

theorem hexValue?_of_hexDigit {v : Nat} {c : Char} (h : HexDigit v c) :
    c.toNat < 0x80 ∧ hexValue? (UInt8.ofNat c.toNat) = some v :=
  h.of_forall (p := fun v c => c.toNat < 0x80 ∧ hexValue? (UInt8.ofNat c.toNat) = some v)
    (by decide)

theorem exists_hexUnit? {n : Nat} {digits : List Char} (hlength : digits.length = 4)
    (h : HexNumeral n digits) :
    ∃ a b c d, utf8 digits = [a, b, c, d] ∧ hexUnit? a b c d = some n := by
  obtain ⟨values, hdigits, rfl⟩ := h
  obtain ⟨c₁, c₂, c₃, c₄, rfl⟩ : ∃ c₁ c₂ c₃ c₄, [c₁, c₂, c₃, c₄] = digits := by
    simpa [List.length_eq_succ_iff] using hlength
  cases hdigits with
  | @cons v₁ _ _ _ h₁ hdigits => cases hdigits with
  | @cons v₂ _ _ _ h₂ hdigits => cases hdigits with
  | @cons v₃ _ _ _ h₃ hdigits => cases hdigits with
  | @cons v₄ _ _ _ h₄ hdigits =>
  cases hdigits
  obtain ⟨hascii₁, h₁⟩ := hexValue?_of_hexDigit h₁
  obtain ⟨hascii₂, h₂⟩ := hexValue?_of_hexDigit h₂
  obtain ⟨hascii₃, h₃⟩ := hexValue?_of_hexDigit h₃
  obtain ⟨hascii₄, h₄⟩ := hexValue?_of_hexDigit h₄
  refine ⟨UInt8.ofNat c₁.toNat, UInt8.ofNat c₂.toNat, UInt8.ofNat c₃.toNat,
    UInt8.ofNat c₄.toNat, ?_, ?_⟩
  · rw [utf8_cons_ascii hascii₁, utf8_cons_ascii hascii₂, utf8_cons_ascii hascii₃,
      utf8_cons_ascii hascii₄, utf8_nil]
  · have hn : v₁ * 4096 + v₂ * 256 + v₃ * 16 + v₄ = Nat.ofDigits 16 [v₁, v₂, v₃, v₄].reverse := by
      simp [Nat.ofDigits]
      omega
    simp [hexUnit?, h₁, h₂, h₃, h₄, hn]

theorem letter_cases {c e : Char} (h : (c, e) ∈ letterEscapes) :
    ∃ b x, String.utf8EncodeChar c = [b] ∧ String.utf8EncodeChar e = [x] ∧ escaped? x = some b := by
  have hall : ∀ p ∈ letterEscapes, p.1.toNat < 0x80 ∧ p.2.toNat < 0x80 ∧
      escaped? (UInt8.ofNat p.2.toNat) = some (UInt8.ofNat p.1.toNat) := by decide
  obtain ⟨hc, he, hesc⟩ := hall _ h
  exact ⟨_, _, utf8EncodeChar_of_ascii hc, utf8EncodeChar_of_ascii he, hesc⟩

/-- The beginning of an escape of four digits. -/
theorem utf8_unit (cs : List Char) : utf8 ('\\' :: 'u' :: cs) = 0x5c :: 0x75 :: utf8 cs := by
  rw [utf8_cons_ascii (by decide), utf8_cons_ascii (by decide)]
  rfl

/-- No character is a surrogate. -/
theorem isSurrogate_toNat (c : Char) :
    isLowSurrogate c.toNat = false ∧ isHighSurrogate c.toNat = false := by
  have hvalid : c.toNat < 0xd800 ∨ 0xdfff < c.toNat ∧ c.toNat < 0x110000 := c.valid
  simp only [isLowSurrogate, isHighSurrogate, Bool.and_eq_false_iff, decide_eq_false_iff_not]
  omega

theorem stringBytes_spelling {c : Char} {part : List Char} (h : Spelling c part) (read bs : Bytes) :
    stringBytes read none (utf8 part ++ bs) =
      stringBytes ((String.utf8EncodeChar c).reverse ++ read) none bs := by
  cases h with
  | plain hplain =>
    rw [utf8_cons, utf8_nil, List.append_nil]
    exact stringBytes_append (fun b hb => plain_of_unescaped hplain hb) read bs
  | letter hmem =>
    obtain ⟨b, x, hc, he, hesc⟩ := letter_cases hmem
    rw [utf8_cons_ascii (by decide), utf8_cons_eq he, hc]
    exact stringBytes_escaped hesc read bs
  | unit hlength hn =>
    obtain ⟨x₁, x₂, x₃, x₄, hdigits, hunit⟩ := exists_hexUnit? hlength hn
    obtain ⟨hlow, hhigh⟩ := isSurrogate_toNat c
    rw [utf8_unit, hdigits, ← pushCodePoint_toNat]
    simp [stringBytes, hunit, hlow, hhigh]
  | @pair high low digits digits' hlength hlength' hn hn' hhigh hlow hc =>
    obtain ⟨x₁, x₂, x₃, x₄, hdigits, hunit⟩ := exists_hexUnit? hlength hn
    obtain ⟨y₁, y₂, y₃, y₄, hdigits', hunit'⟩ := exists_hexUnit? hlength' hn'
    have hfirst : isLowSurrogate high = false ∧ isHighSurrogate high = true := by
      simp only [isLowSurrogate, isHighSurrogate, Bool.and_eq_false_iff, Bool.and_eq_true,
        decide_eq_false_iff_not, decide_eq_true_eq]
      omega
    have hsecond : isLowSurrogate low = true := by
      simpa only [isLowSurrogate, Bool.and_eq_true, decide_eq_true_eq] using hlow
    have hvalue : pairValue high low = c.toNat := by
      rw [pairValue, hc]
      omega
    rw [utf8_unit, utf8_append, utf8_unit, hdigits, hdigits', ← pushCodePoint_toNat]
    simp [stringBytes, hunit, hunit', hfirst, hsecond, hvalue]

theorem stringBytes_spelled {cs text : List Char} (h : Spelled Spelling cs text)
    (read bs : Bytes) :
    stringBytes read none (utf8 text ++ 0x22 :: bs) = .ok (read.reverse ++ utf8 cs, bs) := by
  induction h generalizing read with
  | nil => rw [utf8_nil, List.nil_append, stringBytes_quote, List.append_nil]
  | cons hpart _ ih =>
    rw [utf8_append, List.append_assoc, stringBytes_spelling hpart, ih, utf8_cons]
    simp

/-- A string is read back however its characters are spelled. -/
theorem stringText_spelled {s : String} {text : List Char} (h : Spelled Spelling s.toList text)
    (bs : Bytes) : stringText (utf8 text ++ 0x22 :: bs) = .ok (s, bs) := by
  rw [stringText, stringBytes_spelled h]
  simp [bind, Except.bind, fromUTF8?_utf8, pure, Except.pure]

/-- A text that needs no escapes may stand as it is. -/
theorem quoted_self {v : String} (h : v.toList.all fun c => Unescaped c) :
    Quoted v ('"' :: (v.toList ++ ['"'])) := by
  have hspelled : ∀ cs : List Char, (∀ c ∈ cs, Unescaped c) → Spelled Spelling cs cs := by
    intro cs
    induction cs with
    | nil => exact fun _ => .nil
    | cons c cs ih =>
      intro hcs
      obtain ⟨hc, hcs⟩ := List.forall_mem_cons.1 hcs
      exact Spelled.cons (.plain hc) (ih hcs)
  exact ⟨v.toList, hspelled v.toList (List.all_iff_forall_prop.1 h), rfl⟩

theorem skipString_body {cs : List Char} (h : StringBody cs) (bs : Bytes) :
    skipString (utf8 cs ++ 0x22 :: bs) = .ok bs := by
  induction h with
  | nil => simp [skipString]
  | plain hplain _ ih =>
    rw [utf8_cons, List.append_assoc, skipString_append, ih]
    exact fun b hb => plain_of_unescaped hplain hb
  | letter hmem _ ih =>
    obtain ⟨b, x, -, he, hesc⟩ := letter_cases hmem
    rw [utf8_cons_ascii (by decide), utf8_cons_eq he]
    exact (skipString_escaped_byte hesc _).trans ih
  | unit hlength hn _ ih =>
    obtain ⟨x₁, x₂, x₃, x₄, hdigits, hunit⟩ := exists_hexUnit? hlength hn
    rw [utf8_unit, utf8_append, hdigits]
    simp [skipString, hunit, ih]

end Stencil.Json
