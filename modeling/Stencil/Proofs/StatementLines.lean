import Mathlib.Data.List.DropRight
import Stencil.Proofs.SpelledText
import Stencil.Toml.Statement

/-!
Strings between double quotes, and texts of lines each of which holds a statement at most.

The forms are those of the TOML grammar: a bare key and a string of one line, or the header of a
table, with blanks around their parts, a comment behind them and a line end of one or two
characters. Main statement: the statements are read off the lines (`readStatements_lines`).
-/

namespace Stencil.Toml

/-! ## Strings -/

/-- The characters that a letter behind a backslash stands for. -/
def letterEscapes : List (Char × Char) :=
  [('\x08', 'b'), ('\t', 't'), ('\n', 'n'), ('\x0c', 'f'), ('\r', 'r'), ('"', '"'), ('\\', '\\')]

/-- The ways in which a character stands between double quotes. -/
inductive Spelling : Char → List Char → Prop
  | plain {c : Char} : c ≠ '"' → c ≠ '\\' → c = '\t' ∨ 0x20 ≤ c.toNat → c.toNat ≠ 0x7f →
      Spelling c [c]
  | letter {c e : Char} : (c, e) ∈ letterEscapes → Spelling c ['\\', e]
  | short {c : Char} {digits : List Char} : digits.length = 4 → HexNumeral c.toNat digits →
      Spelling c ('\\' :: 'u' :: digits)
  | long {c : Char} {digits : List Char} : digits.length = 8 → HexNumeral c.toNat digits →
      Spelling c ('\\' :: 'U' :: digits)

theorem hexValue?_of_hexDigit {v : Nat} {c : Char} (h : HexDigit v c) : hexValue? c = some v :=
  h.of_forall (p := fun v c => hexValue? c = some v) (by decide)

theorem mapM_hexValue? {values : List Nat} {digits : List Char}
    (h : List.Forall₂ HexDigit values digits) : digits.mapM hexValue? = some values := by
  induction h with
  | nil => rfl
  | cons hd _ ih => simp [List.mapM_cons, hexValue?_of_hexDigit hd, ih]

theorem hexChar?_of_hexNumeral {c : Char} {digits : List Char} (h : HexNumeral c.toNat digits) :
    hexChar? digits = some c := by
  obtain ⟨values, hdigits, hn⟩ := h
  rw [ofDigits_reverse] at hn
  have hchar : ∀ n, n = c.toNat →
      (if h : n.isValidChar then some (Char.ofNatAux n h) else none) = some c := by
    rintro n rfl
    have hvalid : c.toNat.isValidChar := c.valid
    have hself := Char.ofNat_toNat c
    rw [Char.ofNat, dif_pos hvalid] at hself
    rw [dif_pos hvalid, hself]
  rw [hexChar?, mapM_hexValue? hdigits]
  exact hchar _ hn

variable {c : Char} {part rest : List Char}

theorem basicChars_spelling (h : Spelling c part) (read rest : List Char) :
    basicChars read (part ++ rest) = basicChars (c :: read) rest := by
  cases h with
  | plain hquote hback hlow hdel =>
    have hplain : isPlain c := by
      simpa [isPlain, hdel] using hlow
    rw [List.singleton_append, basicChars]
    all_goals simp_all
  | letter hmem =>
    simp only [letterEscapes, List.mem_cons, List.not_mem_nil, or_false, Prod.mk.injEq] at hmem
    rcases hmem with ⟨rfl, rfl⟩ | ⟨rfl, rfl⟩ | ⟨rfl, rfl⟩ | ⟨rfl, rfl⟩ | ⟨rfl, rfl⟩ | ⟨rfl, rfl⟩ |
      ⟨rfl, rfl⟩ <;> simp [basicChars, escaped?]
  | @short digits hlength hn =>
    obtain ⟨d₁, d₂, d₃, d₄, rfl⟩ : ∃ d₁ d₂ d₃ d₄, [d₁, d₂, d₃, d₄] = digits := by
      simpa [List.length_eq_succ_iff] using hlength
    simp [basicChars, hexChar?_of_hexNumeral hn]
  | @long digits hlength hn =>
    obtain ⟨d₁, d₂, d₃, d₄, d₅, d₆, d₇, d₈, rfl⟩ : ∃ d₁ d₂ d₃ d₄ d₅ d₆ d₇ d₈,
        [d₁, d₂, d₃, d₄, d₅, d₆, d₇, d₈] = digits := by
      simpa [List.length_eq_succ_iff] using hlength
    simp [basicChars, hexChar?_of_hexNumeral hn]

theorem basicChars_spelled {cs text : List Char} (h : Spelled Spelling cs text)
    (read rest : List Char) :
    basicChars read (text ++ '"' :: rest) = some (read.reverse ++ cs, rest) := by
  induction h generalizing read with
  | nil => rw [List.nil_append, basicChars, List.append_nil]
  | cons hpart _ ih =>
    rw [List.append_assoc, basicChars_spelling hpart, ih, List.reverse_cons, List.append_assoc]
    rfl

/-- What is spelled does not begin with a quote. -/
theorem head?_spelled {cs text : List Char} (h : Spelled Spelling cs text) :
    text.head? ≠ some '"' := by
  cases h with
  | nil => simp
  | cons hpart _ =>
    cases hpart with
    | plain hquote => simpa using hquote
    | letter => simp
    | short => simp
    | long => simp

/-- Behind the closing quote there must not be another one, or the string would be taken for one
of several lines. -/
theorem readString_spelled {cs text : List Char} (h : Spelled Spelling cs text)
    (hrest : rest.head? ≠ some '"') :
    readString ('"' :: (text ++ '"' :: rest)) = some (String.ofList cs, rest) := by
  have hsimple :
      readSimpleString ('"' :: (text ++ '"' :: rest)) = some (String.ofList cs, rest) := by
    rw [readSimpleString, basicChars_spelled h]
    rfl
  rw [readString]
  · exact hsimple
  · intro tail htail
    obtain ⟨-, htail⟩ := List.cons.inj htail
    cases text with
    | nil =>
      obtain ⟨-, rfl⟩ := List.cons.inj htail
      exact hrest rfl
    | cons c text =>
      obtain ⟨rfl, -⟩ := List.cons.inj htail
      exact head?_spelled h rfl
  · intro tail htail
    exact absurd (List.cons.inj htail).1 (by decide)

/-! ## Lines -/

def Blanks (gap : List Char) : Prop := ∀ c ∈ gap, c = ' ' ∨ c = '\t'

theorem blanks_nil : Blanks [] := fun _ h => absurd h List.not_mem_nil

theorem blanks_single : Blanks [' '] := by simp [Blanks]

/-- A key that stands without quotes. -/
def BareKey (key : String) : Prop := key ≠ "" ∧ ∀ c ∈ key.toList, isBareKeyChar c

/-- What may stand on a line behind a statement: blanks, and a comment behind them. -/
inductive LineTail : List Char → Prop
  | blanks {gap : List Char} : Blanks gap → LineTail gap
  | comment {gap cs : List Char} : Blanks gap → (∀ c ∈ cs, isPlain c) → LineTail (gap ++ '#' :: cs)

/-- The statements on a line without its end. -/
inductive Line : List Statement → List Char → Prop
  | empty {tail : List Char} : LineTail tail → Line [] tail
  | member {key s : String} {gap₁ gap₂ gap₃ text tail : List Char} :
      BareKey key → Spelled Spelling s.toList text →
      Blanks gap₁ → Blanks gap₂ → Blanks gap₃ → LineTail tail →
      Line [.member [key] (.text s)]
        (gap₁ ++ (key.toList ++ (gap₂ ++ '=' :: (gap₃ ++ '"' :: (text ++ '"' :: tail)))))
  | header {key : String} {gap₁ gap₂ gap₃ tail : List Char} :
      BareKey key → Blanks gap₁ → Blanks gap₂ → Blanks gap₃ → LineTail tail →
      Line [.header [key]] (gap₁ ++ '[' :: (gap₂ ++ (key.toList ++ (gap₃ ++ ']' :: tail))))

/-- The statements of a text. The last line need not have an end. -/
inductive Lines : List Statement → List Char → Prop
  | last {statements : List Statement} {line : List Char} :
      Line statements line → Lines statements line
  | next {statements later : List Statement} {line newline text : List Char} :
      Line statements line → newline ∈ [['\n'], ['\r', '\n']] → Lines later text →
      Lines (statements ++ later) (line ++ (newline ++ text))

/-- Nothing comes behind a line, or a line end and the rest do. -/
inductive Ended : List Char → List Char → Prop
  | last : Ended [] []
  | newline (rest : List Char) : Ended ('\n' :: rest) rest
  | crlf (rest : List Char) : Ended ('\r' :: '\n' :: rest) rest

theorem skipBlanks_append {gap : List Char} (h : Blanks gap) (cs : List Char) :
    skipBlanks (gap ++ cs) = skipBlanks cs := by
  have hblank : ∀ c ∈ gap, isBlank c := by
    intro c hc
    simpa [isBlank] using h c hc
  rw [skipBlanks, skipBlanks, List.dropWhile_append_of_pos hblank]

theorem Ended.skipBlanks_eq {after rest : List Char} (h : Ended after rest) :
    skipBlanks after = after := by
  cases h <;> rfl

theorem endLine_tail {tail after rest : List Char} (h : LineTail tail) (hafter : Ended after rest) :
    endLine (tail ++ after) = some rest := by
  have hskip : (if after.isEmpty then some [] else skipNewline after) = some rest := by
    cases hafter <;> rfl
  cases h with
  | blanks hgap =>
    rw [endLine, skipBlanks_append hgap, hafter.skipBlanks_eq]
    cases hafter <;> rfl
  | @comment gap cs hgap hplain =>
    have hhash : ∀ cs, skipBlanks ('#' :: cs) = '#' :: cs := fun _ => rfl
    have hstop : after.dropWhile isPlain = after := by cases hafter <;> rfl
    rw [endLine, List.append_assoc, skipBlanks_append hgap, List.cons_append, hhash]
    simp only [List.dropWhile_append_of_pos hplain, hstop, hskip]

section

variable {key s : String} {gap gap' gap₁ gap₂ gap₃ text tail after rest : List Char} {c : Char}

theorem BareKey.exists_cons (h : BareKey key) :
    ∃ c cs, key.toList = c :: cs ∧ isBareKeyChar c := by
  cases hkey : key.toList with
  | nil => exact absurd (String.toList_eq_nil_iff.1 hkey) h.1
  | cons c cs =>
    refine ⟨c, cs, rfl, h.2 c ?_⟩
    rw [hkey]
    exact List.mem_cons_self

/-- Neither a blank nor anything else that has a meaning on a line is a character of a key. -/
theorem ne_of_isBareKeyChar (h : isBareKeyChar c) :
    c ∉ [' ', '\t', '\n', '\r', '#', '[', ']', '=', '.', '"', '\''] := by
  intro hmem
  have hnone : ∀ d ∈ [' ', '\t', '\n', '\r', '#', '[', ']', '=', '.', '"', '\''],
      isBareKeyChar d = false := List.all_iff_forall_prop.1 (by decide)
  rw [hnone c hmem] at h
  cases h

theorem skipBlanks_key (hkey : BareKey key) (rest : List Char) :
    skipBlanks (key.toList ++ rest) = key.toList ++ rest := by
  obtain ⟨k, ks, hks, hk⟩ := hkey.exists_cons
  have hblank : ¬ isBlank k := by
    intro hblank
    refine ne_of_isBareKeyChar hk ?_
    rcases (by simpa [isBlank] using hblank : k = ' ' ∨ k = '\t') with rfl | rfl <;> decide
  rw [hks, List.cons_append, skipBlanks, List.dropWhile_cons_of_neg hblank]

theorem readKeyPart_bare (hkey : BareKey key) (hgap : Blanks gap) (hgap' : Blanks gap')
    (hc : c = '=' ∨ c = ']') :
    readKeyPart (gap ++ (key.toList ++ (gap' ++ c :: rest))) = some (key, c :: rest) := by
  obtain ⟨b, bs, hb, hstop⟩ : ∃ b bs, gap' ++ c :: rest = b :: bs ∧ ¬ isBareKeyChar b := by
    cases gap' with
    | nil => exact ⟨c, rest, rfl, by rcases hc with rfl | rfl <;> decide⟩
    | cons b gap' =>
      exact ⟨b, _, rfl, by rcases hgap' b List.mem_cons_self with rfl | rfl <;> decide⟩
  have hskip : skipBlanks (gap' ++ c :: rest) = c :: rest := by
    rw [skipBlanks_append hgap']
    rcases hc with rfl | rfl <;> rfl
  have hbare : ∀ d ∈ key.toList, isBareKeyChar d := hkey.2
  have htake : (key.toList ++ (gap' ++ c :: rest)).takeWhile isBareKeyChar = key.toList := by
    rw [List.takeWhile_append_of_pos hbare, hb, List.takeWhile_cons_of_neg hstop, List.append_nil]
  have hdrop : (key.toList ++ (gap' ++ c :: rest)).dropWhile isBareKeyChar = gap' ++ c :: rest := by
    rw [List.dropWhile_append_of_pos hbare, hb, List.dropWhile_cons_of_neg hstop]
  obtain ⟨k, ks, hks, hk⟩ := hkey.exists_cons
  rw [readKeyPart, skipBlanks_append hgap, skipBlanks_key hkey]
  simp only [htake, hdrop, hskip]
  split
  · rename_i heq
    rw [hks] at heq
    obtain ⟨rfl, -⟩ := List.cons.inj heq
    exact absurd hk (by decide)
  · rename_i heq
    rw [hks] at heq
    obtain ⟨rfl, -⟩ := List.cons.inj heq
    exact absurd hk (by decide)
  · have hne : key.toList.isEmpty = false := by rw [hks]; rfl
    simp [hne]

theorem readKey_bare (hkey : BareKey key) (hgap : Blanks gap) (hgap' : Blanks gap')
    (hc : c = '=' ∨ c = ']') :
    readKey (gap ++ (key.toList ++ (gap' ++ c :: rest))) = some ([key], c :: rest) := by
  rw [readKey, maxKeyParts, readKeyParts, readKeyPart_bare hkey hgap hgap' hc]
  rcases hc with rfl | rfl <;> rfl

theorem head?_blanks {cs : List Char} (h : Blanks gap) (hc : c ≠ ' ' ∧ c ≠ '\t')
    (hcs : cs.head? ≠ some c) : (gap ++ cs).head? ≠ some c := by
  cases gap with
  | nil => exact hcs
  | cons b gap =>
    rcases h b List.mem_cons_self with rfl | rfl
    · simpa using hc.1.symm
    · simpa using hc.2.symm

theorem head?_tail (h : LineTail tail) (hc : c ≠ ' ' ∧ c ≠ '\t' ∧ c ≠ '#')
    (hafter : after.head? ≠ some c) : (tail ++ after).head? ≠ some c := by
  cases h with
  | blanks hgap => exact head?_blanks hgap ⟨hc.1, hc.2.1⟩ hafter
  | comment hgap _ =>
    rw [List.append_assoc]
    exact head?_blanks hgap ⟨hc.1, hc.2.1⟩ (by simpa using hc.2.2.symm)

theorem endLine_skipBlanks (cs : List Char) : endLine (skipBlanks cs) = endLine cs := by
  rw [endLine, endLine, skipBlanks, skipBlanks, List.dropWhile_idempotent]

theorem readValue_quoted (depth : Nat) (cs : List Char) :
    readValue (depth + 1) ('"' :: cs) = (readString ('"' :: cs)).map fun (s, rest) =>
      (.text s, rest) := by
  rw [readValue, readLeaf] <;> simp

theorem readMember_line (hkey : BareKey key) (hs : Spelled Spelling s.toList text)
    (hgap₁ : Blanks gap₁) (hgap₂ : Blanks gap₂) (hgap₃ : Blanks gap₃) (htail : LineTail tail)
    (hafter : Ended after rest) :
    readMember (readValue maxNesting)
        (gap₁ ++ (key.toList ++
          (gap₂ ++ '=' :: (gap₃ ++ '"' :: (text ++ '"' :: (tail ++ after)))))) =
      some (([key], .text s), skipBlanks (tail ++ after)) := by
  have hquote : ∀ cs, skipBlanks ('"' :: cs) = '"' :: cs := fun _ => rfl
  have hunquoted : (tail ++ after).head? ≠ some '"' :=
    head?_tail htail (by decide) (by cases hafter <;> simp)
  rw [readMember, readKey_bare hkey hgap₁ hgap₂ (.inl rfl)]
  simp only [Option.bind_eq_bind, Option.bind_some, skipBlanks_append hgap₃, hquote, maxNesting,
    readValue_quoted, readString_spelled hs hunquoted, Option.map_some,
    String.ofList_toList]
  rfl

theorem readStatement_member (hkey : BareKey key) (hs : Spelled Spelling s.toList text)
    (hgap₂ : Blanks gap₂) (hgap₃ : Blanks gap₃) (htail : LineTail tail)
    (hafter : Ended after rest) :
    readStatement
        (key.toList ++ (gap₂ ++ '=' :: (gap₃ ++ '"' :: (text ++ '"' :: (tail ++ after))))) =
      some (.member [key] (.text s), rest) := by
  have hmember := readMember_line hkey hs blanks_nil hgap₂ hgap₃ htail hafter
  rw [List.nil_append] at hmember
  obtain ⟨k, ks, hks, hk⟩ := hkey.exists_cons
  have hopen : ∀ cs ds, key.toList ++ cs ≠ '[' :: ds := by
    rintro cs ds heq
    rw [hks] at heq
    obtain ⟨rfl, -⟩ := List.cons.inj heq
    exact absurd hk (by decide)
  rw [readStatement]
  · simp [hmember, endLine_skipBlanks, endLine_tail htail hafter]
  · exact fun ds => hopen _ _
  · exact fun ds => hopen _ _

theorem readStatement_header (hkey : BareKey key) (hgap₂ : Blanks gap₂) (hgap₃ : Blanks gap₃)
    (htail : LineTail tail) (hafter : Ended after rest) :
    readStatement ('[' :: (gap₂ ++ (key.toList ++ (gap₃ ++ ']' :: (tail ++ after))))) =
      some (.header [key], rest) := by
  have hopen : ∀ ds, gap₂ ++ (key.toList ++ (gap₃ ++ ']' :: (tail ++ after))) ≠ '[' :: ds := by
    intro ds heq
    cases gap₂ with
    | nil =>
      obtain ⟨k, ks, hks, hk⟩ := hkey.exists_cons
      rw [hks] at heq
      obtain ⟨rfl, -⟩ := List.cons.inj heq
      exact absurd hk (by decide)
    | cons b gap₂ =>
      obtain ⟨rfl, -⟩ := List.cons.inj heq
      exact absurd (hgap₂ _ List.mem_cons_self) (by decide)
  rw [readStatement]
  · simp [readKey_bare hkey hgap₂ hgap₃ (.inr rfl), endLine_tail htail hafter]
  · intro ds heq
    exact hopen ds heq

theorem readStatements_of_statement {cs later : List Char} {statement : Statement}
    (hskip : skipBlanks cs = c :: later) (hc : c ∉ ['#', '\n', '\r'])
    (hread : readStatement (c :: later) = some (statement, rest)) (n : Nat) :
    readStatements (n + 1) cs = (readStatements n rest).map (statement :: ·) := by
  rw [readStatements, hskip]
  split
  · rename_i heq
    cases heq
  · rename_i heq
    cases heq
    simp at hc
  · rename_i heq
    cases heq
    simp at hc
  · rename_i heq
    cases heq
    simp at hc
  · simp only [hread, Option.bind_eq_bind, Option.bind_some]
    cases readStatements n rest <;> rfl

/-- A line gives its statements, and reading goes on behind its end. -/
theorem readStatements_line {statements : List Statement} {line : List Char}
    (h : Line statements line) (hafter : Ended after rest) (n : Nat) :
    readStatements (n + 2) (line ++ after) =
      (readStatements (n + 1) rest).map (statements ++ ·) := by
  cases h with
  | empty htail =>
    have hmap : (readStatements (n + 1) rest).map ([] ++ ·) = readStatements (n + 1) rest := by
      cases readStatements (n + 1) rest <;> rfl
    rw [hmap]
    cases htail with
    | blanks hgap =>
      rw [readStatements, skipBlanks_append hgap]
      cases hafter <;> rfl
    | @comment gap cs hgap hplain =>
      have hend : endLine ('#' :: cs ++ after) = some rest :=
        endLine_tail (.comment blanks_nil hplain) hafter
      have hhash : skipBlanks ('#' :: cs ++ after) = '#' :: cs ++ after := rfl
      rw [readStatements, List.append_assoc, skipBlanks_append hgap, hhash]
      simp only [List.cons_append] at hend ⊢
      rw [hend]
      rfl
  | @member key s gap₁ gap₂ gap₃ text tail hkey hs hgap₁ hgap₂ hgap₃ htail =>
    have hread := readStatement_member hkey hs hgap₂ hgap₃ htail hafter
    have hskip := (skipBlanks_append hgap₁ _).trans (skipBlanks_key hkey
      (gap₂ ++ '=' :: (gap₃ ++ '"' :: (text ++ '"' :: (tail ++ after)))))
    obtain ⟨k, ks, hks, hk⟩ := hkey.exists_cons
    have hne : k ∉ ['#', '\n', '\r'] := by
      intro hmem
      refine ne_of_isBareKeyChar hk ?_
      revert hmem
      simp +contextual [or_imp]
    simp only [List.append_assoc, List.cons_append]
    rw [hks] at hread hskip ⊢
    exact readStatements_of_statement hskip hne hread _
  | header hkey hgap₁ hgap₂ hgap₃ htail =>
    have hbracket : ∀ cs, skipBlanks ('[' :: cs) = '[' :: cs := fun _ => rfl
    simp only [List.append_assoc, List.cons_append]
    exact readStatements_of_statement ((skipBlanks_append hgap₁ _).trans (hbracket _)) (by decide)
      (readStatement_header hkey hgap₂ hgap₃ htail hafter) _

/-- No line begins with a byte-order mark. -/
theorem head?_line {statements : List Statement} {line : List Char} (h : Line statements line)
    (hafter : after.head? ≠ some '\ufeff') : (line ++ after).head? ≠ some '\ufeff' := by
  cases h with
  | empty htail => exact head?_tail htail (by decide) hafter
  | member hkey _ hgap₁ =>
    obtain ⟨k, ks, hks, hk⟩ := hkey.exists_cons
    rw [List.append_assoc, hks]
    refine head?_blanks hgap₁ (by decide) fun heq => ?_
    obtain rfl : k = '\ufeff' := by simpa using heq
    exact absurd hk (by decide)
  | header _ hgap₁ =>
    rw [List.append_assoc]
    exact head?_blanks hgap₁ (by decide) (by simp)

theorem head?_lines {statements : List Statement} (h : Lines statements text) :
    text.head? ≠ some '\ufeff' := by
  induction h with
  | @last _ line hline =>
    rw [← List.append_nil line]
    exact head?_line hline (by simp)
  | next hline hnewline _ _ =>
    refine head?_line hline ?_
    simp only [List.mem_cons, List.not_mem_nil, or_false] at hnewline
    rcases hnewline with rfl | rfl <;> simp

/-- The statements are read off the lines. -/
theorem readStatements_lines {statements : List Statement} (h : Lines statements text) {n : Nat}
    (hn : text.length < n) : readStatements n text = some statements := by
  induction h generalizing n with
  | @last statements line hline =>
    have hread : ∀ n, readStatements (n + 2) line = some statements := by
      intro n
      have hnil : readStatements (n + 1) [] = some [] := rfl
      simpa [hnil] using readStatements_line hline .last n
    match n, hn with
    | 0, hn => exact absurd hn (Nat.not_lt_zero _)
    | 1, hn =>
      -- the line is empty, and then one step is enough
      obtain rfl : line = [] := List.length_eq_zero_iff.1 (Nat.lt_one_iff.1 hn)
      exact hread 0
    | n + 2, _ => exact hread n
  | @next statements later line newline text hline hnewline _ ih =>
    obtain ⟨hended, hlength⟩ :
        Ended (newline ++ text) text ∧ text.length + 1 ≤ (newline ++ text).length := by
      simp only [List.mem_cons, List.not_mem_nil, or_false] at hnewline
      rcases hnewline with rfl | rfl
      · exact ⟨.newline text, by simp⟩
      · exact ⟨.crlf text, by simp⟩
    rw [List.length_append] at hn
    obtain ⟨m, rfl⟩ : ∃ m, n = m + 2 := ⟨n - 2, by omega⟩
    rw [readStatements_line hline hended, ih (by omega)]
    rfl

end

end Stencil.Toml
