import Stencil.Json.Quoted
import Stencil.Json.Record

/-!
Strings written and read again.

Main statements: what is written between the quotes is read back (`stringText_escaped`), and
skipping it ends behind the closing quote (`skipString_escaped`).
-/

namespace Stencil.Json

/-- The bytes of characters in UTF-8. -/
def utf8 (cs : List Char) : Bytes := cs.flatMap String.utf8EncodeChar

@[simp] theorem utf8_nil : utf8 [] = [] := rfl

theorem utf8_cons (c : Char) (cs : List Char) :
    utf8 (c :: cs) = String.utf8EncodeChar c ++ utf8 cs := rfl

@[simp] theorem utf8_append (cs ds : List Char) : utf8 (cs ++ ds) = utf8 cs ++ utf8 ds :=
  List.flatMap_append

theorem toUTF8_ofList (cs : List Char) : (String.ofList cs).toUTF8.data.toList = utf8 cs := by
  have h : (String.ofList cs).toUTF8 = (utf8 cs).toByteArray := rfl
  rw [h, List.data_toByteArray]

theorem toUTF8_eq_utf8 (s : String) : s.toUTF8.data.toList = utf8 s.toList := by
  rw [← toUTF8_ofList, String.ofList_toList]

theorem fromUTF8?_toUTF8 (s : String) : String.fromUTF8? s.toUTF8 = some s := by
  have h : s.toUTF8.IsValidUTF8 := s.isValidUTF8
  rw [String.fromUTF8?, dif_pos h]
  rfl

theorem fromUTF8?_utf8 (cs : List Char) :
    String.fromUTF8? ⟨⟨utf8 cs⟩⟩ = some (String.ofList cs) := by
  rw [← fromUTF8?_toUTF8, ← toUTF8_ofList]

/-- A byte of a character beyond ASCII is none of ASCII. -/
theorem mem_utf8EncodeChar {b : UInt8} {c : Char} (h : b ∈ String.utf8EncodeChar c) :
    (c.toNat < 0x80 ∧ b.toNat = c.toNat) ∨ (0x80 ≤ c.toNat ∧ 0x80 ≤ b.toNat) := by
  have hc : c.toNat = c.val.toNat := rfl
  rw [String.utf8EncodeChar] at h
  by_cases hascii : c.val.toNat ≤ 0x7f
  · rw [if_pos hascii, List.mem_singleton] at h
    refine .inl ⟨by omega, ?_⟩
    rw [h, hc, UInt8.toNat_ofNat']
    omega
  · refine .inr ⟨by omega, ?_⟩
    rw [if_neg hascii] at h
    split at h
    · simp only [List.mem_cons, List.not_mem_nil, or_false] at h
      rcases h with rfl | rfl <;> rw [UInt8.toNat_ofNat'] <;> omega
    · split at h
      · simp only [List.mem_cons, List.not_mem_nil, or_false] at h
        rcases h with rfl | rfl | rfl <;> rw [UInt8.toNat_ofNat'] <;> omega
      · simp only [List.mem_cons, List.not_mem_nil, or_false] at h
        rcases h with rfl | rfl | rfl | rfl <;> rw [UInt8.toNat_ofNat'] <;> omega

theorem utf8EncodeChar_of_ascii {c : Char} (h : c.toNat < 0x80) :
    String.utf8EncodeChar c = [UInt8.ofNat c.toNat] := by
  have hc : c.val.toNat ≤ 0x7f := by
    have : c.toNat = c.val.toNat := rfl
    omega
  rw [String.utf8EncodeChar]
  exact if_pos hc

/-! ## Bytes that stand for themselves -/

/-- A byte that may stand between quotes as it is. -/
def Plain (b : UInt8) : Prop := b ≠ 0x22 ∧ b ≠ 0x5c ∧ ¬ b < 0x20

theorem stringBytes_plain {b : UInt8} (h : Plain b) (read bs : Bytes) :
    stringBytes read none (b :: bs) = stringBytes (b :: read) none bs := by
  obtain ⟨hquote, hback, hlow⟩ := h
  rw [stringBytes.eq_def]
  split
  · rename_i heq
    cases heq
  · rename_i heq
    cases heq
    exact absurd rfl hback
  · rename_i heq
    cases heq
    exact absurd rfl hback
  · rename_i heq
    cases heq
    exact absurd rfl hback
  · rename_i heq
    cases heq
    simp [hquote, hback, hlow]

theorem skipString_plain {b : UInt8} (h : Plain b) (bs : Bytes) :
    skipString (b :: bs) = skipString bs := by
  obtain ⟨hquote, hback, hlow⟩ := h
  rw [skipString] <;> simp [hquote, hback, hlow]

theorem stringBytes_append {xs : Bytes} (h : ∀ b ∈ xs, Plain b) (read bs : Bytes) :
    stringBytes read none (xs ++ bs) = stringBytes (xs.reverse ++ read) none bs := by
  induction xs generalizing read with
  | nil => rfl
  | cons b xs ih =>
    obtain ⟨hb, hxs⟩ := List.forall_mem_cons.1 h
    rw [List.cons_append, stringBytes_plain hb, ih hxs, List.reverse_cons, List.append_assoc]
    rfl

theorem skipString_append {xs : Bytes} (h : ∀ b ∈ xs, Plain b) (bs : Bytes) :
    skipString (xs ++ bs) = skipString bs := by
  induction xs with
  | nil => rfl
  | cons b xs ih =>
    obtain ⟨hb, hxs⟩ := List.forall_mem_cons.1 h
    rw [List.cons_append, skipString_plain hb, ih hxs]

/-- A character that JSON writes as it is. -/
def Unescaped (c : Char) : Prop := c ≠ '"' ∧ c ≠ '\\' ∧ ¬ c.toNat < 0x20

instance (c : Char) : Decidable (Unescaped c) := inferInstanceAs (Decidable (_ ∧ _ ∧ _))

theorem plain_of_unescaped {c : Char} (hc : Unescaped c) {b : UInt8}
    (hb : b ∈ String.utf8EncodeChar c) : Plain b := by
  obtain ⟨hquote, hback, hlow⟩ := hc
  have hquote' : c.toNat ≠ 0x22 := fun h => hquote (Char.toNat_inj.1 h)
  have hback' : c.toNat ≠ 0x5c := fun h => hback (Char.toNat_inj.1 h)
  have hcases := mem_utf8EncodeChar hb
  refine ⟨?_, ?_, ?_⟩
  · rintro rfl
    have : (0x22 : UInt8).toNat = 0x22 := rfl
    omega
  · rintro rfl
    have : (0x5c : UInt8).toNat = 0x5c := rfl
    omega
  · rw [UInt8.lt_iff_toNat_lt]
    have : (0x20 : UInt8).toNat = 0x20 := rfl
    omega

/-! ## Escapes -/

theorem stringBytes_escaped {e b : UInt8} (h : escaped? e = some b) (read bs : Bytes) :
    stringBytes read none (0x5c :: e :: bs) = stringBytes (b :: read) none bs := by
  have he : e ≠ 0x75 := by
    rintro rfl
    simp [escaped?] at h
  rw [stringBytes.eq_def]
  split
  · rename_i heq
    cases heq
  · rename_i heq
    cases heq
  · rename_i heq
    cases heq
    exact absurd rfl he
  · rename_i heq
    cases heq
    exact absurd rfl he
  · rename_i heq
    cases heq
    simp [h]

theorem skipString_escaped_byte {e b : UInt8} (h : escaped? e = some b) (bs : Bytes) :
    skipString (0x5c :: e :: bs) = skipString bs := by
  have he : e ≠ 0x75 := by
    rintro rfl
    simp [escaped?] at h
  rw [skipString] <;> simp [h, he]

theorem hexUnit?_control {n : Nat} (hn : n < 0x20) :
    hexUnit? 0x30 0x30 (UInt8.ofNat (hexDigit (n / 16)).toNat)
      (UInt8.ofNat (hexDigit (n % 16)).toNat) = some n := by
  have h : ∀ n < 0x20, hexUnit? 0x30 0x30 (UInt8.ofNat (hexDigit (n / 16)).toNat)
      (UInt8.ofNat (hexDigit (n % 16)).toNat) = some n := by decide
  exact h n hn

theorem hexDigit_ascii {n : Nat} (hn : n < 16) : (hexDigit n).toNat < 0x80 := by
  have h : ∀ n < 16, (hexDigit n).toNat < 0x80 := by decide
  exact h n hn

theorem utf8_control {n : Nat} (hn : n < 0x20) :
    utf8 ['\\', 'u', '0', '0', hexDigit (n / 16), hexDigit (n % 16)] =
      [0x5c, 0x75, 0x30, 0x30, UInt8.ofNat (hexDigit (n / 16)).toNat,
        UInt8.ofNat (hexDigit (n % 16)).toNat] := by
  have hdiv := utf8EncodeChar_of_ascii (hexDigit_ascii (n := n / 16) (by omega))
  have hmod := utf8EncodeChar_of_ascii (hexDigit_ascii (n := n % 16) (by omega))
  simp only [utf8, List.flatMap_cons, List.flatMap_nil, hdiv, hmod]
  rfl

theorem pushCodePoint_toNat (c : Char) (read : Bytes) :
    pushCodePoint c.toNat read = (String.utf8EncodeChar c).reverse ++ read := by
  rw [pushCodePoint, Char.ofNat_toNat]

/-- Every way in which a character can be written. -/
theorem escape_cases (c : Char) :
    (∃ x e b, escape c = ['\\', x] ∧ (x ≠ '{' ∧ x ≠ '}') ∧ utf8 (escape c) = [0x5c, e] ∧
        escaped? e = some b ∧ String.utf8EncodeChar c = [b]) ∨
      (c.toNat < 0x20 ∧
        escape c = ['\\', 'u', '0', '0', hexDigit (c.toNat / 16), hexDigit (c.toNat % 16)]) ∨
      (Unescaped c ∧ escape c = [c]) := by
  rw [escape]
  by_cases h₁ : c = '"'
  · subst h₁
    exact .inl ⟨'"', 0x22, 0x22, by decide⟩
  rw [if_neg h₁]
  by_cases h₂ : c = '\\'
  · subst h₂
    exact .inl ⟨'\\', 0x5c, 0x5c, by decide⟩
  rw [if_neg h₂]
  by_cases h₃ : c = '\x08'
  · subst h₃
    exact .inl ⟨'b', 0x62, 0x08, by decide⟩
  rw [if_neg h₃]
  by_cases h₄ : c = '\x0c'
  · subst h₄
    exact .inl ⟨'f', 0x66, 0x0c, by decide⟩
  rw [if_neg h₄]
  by_cases h₅ : c = '\n'
  · subst h₅
    exact .inl ⟨'n', 0x6e, 0x0a, by decide⟩
  rw [if_neg h₅]
  by_cases h₆ : c = '\r'
  · subst h₆
    exact .inl ⟨'r', 0x72, 0x0d, by decide⟩
  rw [if_neg h₆]
  by_cases h₇ : c = '\t'
  · subst h₇
    exact .inl ⟨'t', 0x74, 0x09, by decide⟩
  rw [if_neg h₇]
  by_cases hlow : c.toNat < 0x20
  · rw [if_pos hlow]
    exact .inr (.inl ⟨hlow, rfl⟩)
  · rw [if_neg hlow]
    exact .inr (.inr ⟨⟨h₁, h₂, hlow⟩, rfl⟩)

theorem escape_of_unescaped {c : Char} (h : Unescaped c) : escape c = [c] := by
  obtain ⟨hquote, hback, hlow⟩ := h
  have hne : ∀ d : Char, d.toNat < 0x20 → c ≠ d := by
    rintro d hd rfl
    exact hlow hd
  rw [escape, if_neg hquote, if_neg hback, if_neg (hne _ (by decide)), if_neg (hne _ (by decide)),
    if_neg (hne _ (by decide)), if_neg (hne _ (by decide)), if_neg (hne _ (by decide)),
    if_neg hlow]

theorem flatMap_escape_of_unescaped {cs : List Char} (h : ∀ c ∈ cs, Unescaped c) :
    cs.flatMap escape = cs := by
  induction cs with
  | nil => rfl
  | cons c cs ih =>
    obtain ⟨hc, hcs⟩ := List.forall_mem_cons.1 h
    rw [List.flatMap_cons, escape_of_unescaped hc, ih hcs]
    rfl

theorem stringBytes_escape (c : Char) (read bs : Bytes) :
    stringBytes read none (utf8 (escape c) ++ bs) =
      stringBytes ((String.utf8EncodeChar c).reverse ++ read) none bs := by
  obtain ⟨-, e, b, -, -, hutf8, hesc, hc⟩ | ⟨hlow, hesc⟩ | ⟨hplain, hesc⟩ := escape_cases c
  · rw [hutf8, hc]
    exact stringBytes_escaped hesc read bs
  · rw [hesc, utf8_control hlow, ← pushCodePoint_toNat]
    have hlow' : isLowSurrogate c.toNat = false := by
      simp only [isLowSurrogate, Bool.and_eq_false_iff, decide_eq_false_iff_not]
      omega
    have hhigh' : isHighSurrogate c.toNat = false := by
      simp only [isHighSurrogate, Bool.and_eq_false_iff, decide_eq_false_iff_not]
      omega
    simp [stringBytes, hexUnit?_control hlow, hlow', hhigh']
  · rw [hesc, utf8_cons, utf8_nil, List.append_nil]
    exact stringBytes_append (fun b hb => plain_of_unescaped hplain hb) read bs

theorem skipString_escape (c : Char) (bs : Bytes) :
    skipString (utf8 (escape c) ++ bs) = skipString bs := by
  obtain ⟨-, e, b, -, -, hutf8, hesc, -⟩ | ⟨hlow, hesc⟩ | ⟨hplain, hesc⟩ := escape_cases c
  · rw [hutf8]
    exact skipString_escaped_byte hesc bs
  · rw [hesc, utf8_control hlow]
    simp [skipString, hexUnit?_control hlow]
  · rw [hesc, utf8_cons, utf8_nil, List.append_nil]
    exact skipString_append (fun b hb => plain_of_unescaped hplain hb) bs

theorem zero_not_mem_escaped (cs : List Char) : 0 ∉ utf8 (cs.flatMap escape) := by
  have hcontrol : ∀ n < 0x20,
      0 ∉ utf8 ['\\', 'u', '0', '0', hexDigit (n / 16), hexDigit (n % 16)] := by
    decide
  induction cs with
  | nil => simp
  | cons c cs ih =>
    rw [List.flatMap_cons, utf8_append, List.mem_append, not_or]
    refine ⟨?_, ih⟩
    obtain ⟨-, e, b, -, -, hutf8, he, -⟩ | ⟨hlow, hesc⟩ | ⟨hplain, hesc⟩ := escape_cases c
    · have hne : e ≠ 0 := by
        rintro rfl
        simp [escaped?] at he
      simp [hutf8, hne.symm]
    · rw [hesc]
      exact hcontrol _ hlow
    · rw [hesc, utf8_cons, utf8_nil, List.append_nil]
      exact fun hmem => (plain_of_unescaped hplain hmem).2.2 (by decide)

/-! ## Whole strings -/

theorem stringBytes_quote (read rest : Bytes) :
    stringBytes read none (0x22 :: rest) = .ok (read.reverse, rest) := by
  rw [stringBytes.eq_def]
  split
  · rename_i heq
    cases heq
  · rename_i heq
    cases heq
  · rename_i heq
    cases heq
  · rename_i heq
    cases heq
  · rename_i heq
    cases heq
    simp

theorem stringBytes_escaped_chars (cs : List Char) (read rest : Bytes) :
    stringBytes read none (utf8 (cs.flatMap escape) ++ 0x22 :: rest) =
      .ok (read.reverse ++ utf8 cs, rest) := by
  induction cs generalizing read with
  | nil => simp [stringBytes_quote]
  | cons c cs ih =>
    rw [List.flatMap_cons, utf8_append, List.append_assoc, stringBytes_escape, ih, utf8_cons]
    simp

/-- What stands between the quotes is read back. -/
theorem stringText_escaped (cs : List Char) (rest : Bytes) :
    stringText (utf8 (cs.flatMap escape) ++ 0x22 :: rest) = .ok (String.ofList cs, rest) := by
  rw [stringText, stringBytes_escaped_chars]
  simp [bind, Except.bind, fromUTF8?_utf8, pure, Except.pure]

theorem skipString_escaped (cs : List Char) (rest : Bytes) :
    skipString (utf8 (cs.flatMap escape) ++ 0x22 :: rest) = .ok rest := by
  induction cs with
  | nil => simp [skipString]
  | cons c cs ih =>
    rw [List.flatMap_cons, utf8_append, List.append_assoc, skipString_escape, ih]

end Stencil.Json
