import Stencil.Descriptor
import Stencil.Proofs.QuotedText

/-!
A descriptor written and read again.

The text of a descriptor is a row of fields, each with a lead of its own. Main statements: what is
written is read back (`ofBytes_render`), and a row that lacks a field is no descriptor
(`eq_fields_of_ofBytes`).
-/

namespace Stencil.Json

/-- The name of a member behind some blanks, up to its value. -/
def keyed (gap key : String) : List Char := gap.toList ++ quotedChars key.toList ++ [':', ' ']

variable {σ : Type} {member : String → σ → Bytes → Except Fault (σ × Bytes)} {n : Nat} {s : σ}

theorem utf8_quotedChars (cs rest : List Char) :
    utf8 (quotedChars cs ++ rest) = 0x22 :: (utf8 (cs.flatMap escape) ++ 0x22 :: utf8 rest) := by
  have hquote : String.utf8EncodeChar '"' = [0x22] := by decide
  simp [quotedChars, utf8_cons, hquote]

theorem toList_quoted (s : String) : (quoted s).toList = quotedChars s.toList := by
  rw [quoted, String.toList_ofList]

theorem skipBlanks_append {gap : Bytes} (h : ∀ b ∈ gap, isBlank b) (bs : Bytes) :
    skipBlanks (gap ++ bs) = skipBlanks bs := by
  rw [skipBlanks, skipBlanks, List.dropWhile_append_of_pos h]

theorem skipBlanks_keyed {gap key : String} (h : (utf8 gap.toList).all isBlank)
    (rest : List Char) :
    skipBlanks (utf8 (keyed gap key ++ rest)) =
      0x22 :: (utf8 (key.toList.flatMap escape) ++ 0x22 :: 0x3a :: 0x20 :: utf8 rest) := by
  have hcolon : String.utf8EncodeChar ':' = [0x3a] ∧ String.utf8EncodeChar ' ' = [0x20] := by decide
  rw [keyed, List.append_assoc, List.append_assoc, utf8_append,
    skipBlanks_append (List.all_eq_true.1 h), utf8_quotedChars, List.cons_append, List.cons_append,
    utf8_cons, utf8_cons, hcolon.1, hcolon.2]
  rfl

theorem stringText_key (key : String) (rest : Bytes) :
    stringText (utf8 (key.toList.flatMap escape) ++ 0x22 :: rest) = .ok (key, rest) := by
  rw [stringText_escaped, String.ofList_toList]

theorem readMembers_first {gap key : String} (h : (utf8 gap.toList).all isBlank)
    (rest : List Char) :
    readMembers member (n + 1) true s (utf8 (keyed gap key ++ rest)) =
      (member key s (0x3a :: 0x20 :: utf8 rest)).bind fun (s, bs) =>
        readMembers member n false s bs := by
  rw [readMembers, skipBlanks_keyed h]
  simp [stringText_key, bind, Except.bind]

theorem readMembers_next {gap key : String} (h : (utf8 gap.toList).all isBlank)
    (rest : List Char) :
    readMembers member (n + 1) false s (utf8 (',' :: (keyed gap key ++ rest))) =
      (member key s (0x3a :: 0x20 :: utf8 rest)).bind fun (s, bs) =>
        readMembers member n false s bs := by
  have hcomma : String.utf8EncodeChar ',' = [0x2c] := by decide
  have hskip : ∀ bs, skipBlanks (0x2c :: bs) = 0x2c :: bs := fun _ => rfl
  rw [readMembers, utf8_cons, hcomma, List.singleton_append, hskip]
  simp [-utf8_append, skipBlanks_keyed h, stringText_key, bind, Except.bind]

theorem readText_quoted (cs rest : List Char) :
    readText (0x20 :: utf8 (quotedChars cs ++ rest)) = .ok (String.ofList cs, utf8 rest) := by
  have hskip : ∀ bs, skipBlanks (0x20 :: 0x22 :: bs) = 0x22 :: bs := fun _ => rfl
  rw [readText, utf8_quotedChars, hskip]
  exact stringText_escaped cs (utf8 rest)

theorem readOnce_text (cs rest : List Char) :
    readOnce none readText (0x3a :: 0x20 :: utf8 (quotedChars cs ++ rest)) =
      .ok (String.ofList cs, utf8 rest) := by
  have hskip : ∀ bs, skipBlanks (0x3a :: bs) = 0x3a :: bs := fun _ => rfl
  rw [readOnce, readMemberValue, hskip]
  exact readText_quoted cs rest

theorem skipMemberValue_text (cs rest : List Char) :
    skipMemberValue (0x3a :: 0x20 :: utf8 (quotedChars cs ++ rest)) = .ok (utf8 rest) := by
  have hskip : ∀ bs, skipBlanks (0x3a :: bs) = 0x3a :: bs := fun _ => rfl
  have hskip' : ∀ bs, skipBlanks (0x20 :: 0x22 :: bs) = 0x22 :: bs := fun _ => rfl
  rw [skipMemberValue, readMemberValue, hskip]
  simp only [skipAny, utf8_quotedChars, skipValue, hskip', skipString_escaped, Except.map]

end Stencil.Json

namespace Stencil.Descriptor

open Json

/-- The texts of a descriptor, as they follow one another. -/
inductive Field
  | name
  | description
  | version
  | author
  | email
  deriving DecidableEq, Repr

/-- What stands before the value of a field. -/
def Field.lead : Field → List Char
  | name => '{' :: keyed "\n  " "name"
  | description => ',' :: keyed "\n  " "description"
  | version => ',' :: keyed "\n  " "version"
  | author => ',' :: (keyed "\n  " "author" ++ '{' :: keyed "\n    " "name")
  | email => ',' :: keyed "\n    " "email"

/-- What stands behind the last field. -/
def closing : List Char := ['\n', ' ', ' ', '}', '\n', '}']

/-- A row of fields and its end. -/
def written : List (Field × List Char) → List Char
  | [] => closing
  | (f, cs) :: fs => f.lead ++ (quotedChars cs ++ written fs)

def fields (d : Descriptor) : List (Field × List Char) :=
  [(.name, d.name.toList), (.description, d.description.toList), (.version, d.version.toList),
    (.author, d.author.name.toList), (.email, d.author.email.toList)]

theorem toList_render (d : Descriptor) : d.render.toList = written d.fields := by
  have hopen : "\x7b\n".toList = ['{', '\n'] ∧ "\x7b".toList = ['{'] ∧ "\n".toList = ['\n'] := by
    decide
  have hnext : ",\n".toList = [',', '\n'] ∧ ": ".toList = [':', ' '] := by decide
  have hindent : "  ".toList = [' ', ' '] ∧ "    ".toList = [' ', ' ', ' ', ' '] := by decide
  have hgap : "\n  ".toList = ['\n', ' ', ' '] ∧ "\n    ".toList = ['\n', ' ', ' ', ' ', ' '] := by
    decide
  have hclose : "  \x7d\n\x7d".toList = [' ', ' ', '}', '\n', '}'] := by decide
  unfold render
  simp only [memberLine, String.toList_append, toList_quoted, written, fields, Field.lead, keyed,
    closing, hopen, hnext, hindent, hgap, hclose, List.append_assoc, List.cons_append,
    List.nil_append]

theorem zero_not_mem_written (fs : List (Field × List Char)) : 0 ∉ utf8 (written fs) := by
  induction fs with
  | nil => decide
  | cons f fs ih =>
    obtain ⟨f, cs⟩ := f
    have hlead : 0 ∉ utf8 f.lead := by cases f <;> decide
    have hescaped := zero_not_mem_escaped cs
    rw [written, utf8_append, utf8_quotedChars]
    simp [hlead, hescaped, ih]

theorem le_length_written (fs : List (Field × List Char)) : 6 ≤ (utf8 (written fs)).length := by
  induction fs with
  | nil => decide
  | cons f fs ih =>
    rw [written, utf8_append, utf8_append, List.length_append, List.length_append]
    omega

/-- There is always room for six more members. -/
theorem exists_length_eq (cs : List Char) (fs : List (Field × List Char)) :
    ∃ n, (utf8 (cs ++ written fs)).length + 1 = n + 6 := by
  have hlen := le_length_written fs
  refine ⟨(utf8 (cs ++ written fs)).length - 5, ?_⟩
  rw [utf8_append, List.length_append]
  omega

section Readers

variable {σ : Type} {member : String → σ → Bytes → Except Fault (σ × Bytes)} {n : Nat} {s s' : σ}
  {first : Bool} {bs : Bytes}

theorem readMembers_closing :
    readMembers member (n + 1) first s (utf8 (written [])) = .ok (s, utf8 ['\n', '}']) := by
  have hskip : skipBlanks (utf8 (written [])) = 0x7d :: utf8 ['\n', '}'] := by decide
  rw [readMembers, hskip]
  rfl

theorem eq_of_readMembers_closing
    (h : readMembers member n first s (utf8 (written [])) = .ok (s', bs)) : s' = s := by
  cases n with
  | zero => simp [readMembers] at h
  | succ n =>
    rw [readMembers_closing] at h
    exact (congrArg Prod.fst (Except.ok.inj h)).symm

end Readers

/-! ## The author -/

section

variable {n : Nat} {cs ds : List Char}

theorem author_parse_eq (cs : List Char) (fs : List (Field × List Char)) :
    ∃ n, Author.parse
        (0x20 :: utf8 ('{' :: (keyed "\n    " "name" ++ (quotedChars cs ++ written fs)))) =
      (readMembers Author.member (n + 5) false { name := some (String.ofList cs) }
        (utf8 (written fs))).bind fun (s, bs) => s.complete.map (·, bs) := by
  have hskip : ∀ bs, skipBlanks (0x20 :: 0x7b :: bs) = 0x7b :: bs := fun _ => rfl
  have hbrace : String.utf8EncodeChar '{' = [0x7b] := by decide
  obtain ⟨n, hn⟩ := exists_length_eq (keyed "\n    " "name" ++ quotedChars cs) fs
  rw [List.append_assoc] at hn
  refine ⟨n, ?_⟩
  rw [Author.parse, utf8_cons, hbrace, List.singleton_append, hskip]
  simp only [hn]
  rw [readMembers_first (by decide)]
  simp only [Author.member, readOnce_text, bind, Except.bind, pure, Except.pure]
  cases readMembers Author.member (n + 5) false { name := some (String.ofList cs) }
      (utf8 (written fs)) with
  | error e => rfl
  | ok p => cases p.1.complete <;> rfl

theorem author_parse :
    Author.parse (0x20 :: utf8 ('{' :: (keyed "\n    " "name" ++
        (quotedChars cs ++ written [(.email, ds)])))) =
      .ok (⟨String.ofList cs, String.ofList ds⟩, utf8 ['\n', '}']) := by
  obtain ⟨n, hn⟩ := author_parse_eq cs [(.email, ds)]
  rw [hn, written, Field.lead, List.cons_append, readMembers_next (by decide)]
  simp only [Author.member, readOnce_text, bind, Except.bind, pure, Except.pure,
    readMembers_closing]
  rfl

theorem author_parse_short :
    Author.parse (0x20 :: utf8 ('{' :: (keyed "\n    " "name" ++ (quotedChars cs ++ written [])))) =
      .error .mismatched := by
  obtain ⟨n, hn⟩ := author_parse_eq cs []
  rw [hn, readMembers_closing]
  rfl

end

/-! ## The fields -/

section

variable {n : Nat} {s s' : Found} {cs ds : List Char} {fs : List (Field × List Char)} {bs : Bytes}
  {d : Descriptor}

theorem readMembers_description (h : s.description = none) :
    readMembers member (n + 1) false s (utf8 (written ((.description, cs) :: fs))) =
      readMembers member n false { s with description := some (String.ofList cs) }
        (utf8 (written fs)) := by
  rw [written, Field.lead, List.cons_append, readMembers_next (by decide)]
  simp only [member, h, readOnce_text, bind, Except.bind, pure, Except.pure]

theorem readMembers_version (h : s.version = none) :
    readMembers member (n + 1) false s (utf8 (written ((.version, cs) :: fs))) =
      readMembers member n false { s with version := some (String.ofList cs) }
        (utf8 (written fs)) := by
  rw [written, Field.lead, List.cons_append, readMembers_next (by decide)]
  simp only [member, h, readOnce_text, bind, Except.bind, pure, Except.pure]

/-- Outside of the author the address is not known. -/
theorem readMembers_email :
    readMembers member (n + 1) false s (utf8 (written ((.email, cs) :: fs))) =
      readMembers member n false s (utf8 (written fs)) := by
  have hmember : ∀ bs, member "email" s bs = (skipMemberValue bs).bind fun bs => .ok (s, bs) := by
    intro bs
    rw [member]
    · rfl
    all_goals decide
  rw [written, Field.lead, List.cons_append, readMembers_next (by decide), hmember,
    skipMemberValue_text]
  rfl

theorem readMembers_author (h : s.author = none) :
    readMembers member (n + 1) false s (utf8 (written ((.author, cs) :: fs))) =
      (Author.parse (0x20 :: utf8 ('{' :: (keyed "\n    " "name" ++
        (quotedChars cs ++ written fs))))).bind fun (a, bs) =>
          readMembers member n false { s with author := some a } bs := by
  have hskip : ∀ bs, skipBlanks (0x3a :: bs) = 0x3a :: bs := fun _ => rfl
  rw [written, Field.lead, List.cons_append, List.append_assoc, List.cons_append,
    readMembers_next (by decide)]
  simp only [member, h, readOnce, readMemberValue, hskip, bind, Except.bind, pure, Except.pure]
  cases Author.parse (0x20 :: utf8 ('{' :: (keyed "\n    " "name" ++
    (quotedChars cs ++ written fs)))) <;> rfl

theorem parse_written (cs : List Char) (fs : List (Field × List Char)) :
    ∃ n, parse (utf8 (written ((.name, cs) :: fs))) =
      (readMembers member (n + 5) false { name := some (String.ofList cs) }
        (utf8 (written fs))).bind fun (s, bs) => s.complete.map (·, bs) := by
  have hskip : ∀ bs, skipBlanks (0x7b :: bs) = 0x7b :: bs := fun _ => rfl
  have hbrace : String.utf8EncodeChar '{' = [0x7b] := by decide
  obtain ⟨n, hn⟩ := exists_length_eq (keyed "\n  " "name" ++ quotedChars cs) fs
  rw [List.append_assoc] at hn
  refine ⟨n, ?_⟩
  rw [parse, written, Field.lead, List.cons_append, utf8_cons, hbrace, List.singleton_append, hskip]
  simp only [hn]
  rw [readMembers_first (by decide)]
  simp only [member, readOnce_text, bind, Except.bind, pure, Except.pure]
  cases readMembers member (n + 5) false { name := some (String.ofList cs) }
      (utf8 (written fs)) with
  | error e => rfl
  | ok p => cases p.1.complete <;> rfl

theorem parse_fields (d : Descriptor) : parse (utf8 (written d.fields)) = .ok (d, []) := by
  obtain ⟨n, hn⟩ := parse_written d.name.toList d.fields.tail
  have hread := hn
  rw [fields, List.tail_cons, readMembers_description rfl, readMembers_version rfl,
    readMembers_author rfl, author_parse] at hread
  rw [fields, hread]
  simp only [Except.bind, String.ofList_toList]
  rw [readMembers]
  rfl

/-- What is written is read back. -/
theorem ofBytes_render (d : Descriptor) : ofBytes d.render.toUTF8 = .ok d := by
  rw [ofBytes, toUTF8_eq_utf8, toList_render, parse_fields]
  rfl

/-! ## Rows that lack a field -/

/-- Either the first of the fields is missing, or the row begins with it. -/
theorem missing_or_first {f : Field} {l : List Field}
    (h : (fs.map Prod.fst).Sublist (f :: l)) :
    (fs.map Prod.fst).Sublist l ∨
      ∃ cs gs, fs = (f, cs) :: gs ∧ (gs.map Prod.fst).Sublist l := by
  cases fs with
  | nil => exact .inl (List.nil_sublist _)
  | cons g fs =>
    obtain ⟨g, cs⟩ := g
    rw [List.map_cons] at h
    cases h with
    | cons _ h => exact .inl h
    | cons_cons _ h => exact .inr ⟨cs, fs, rfl, h⟩

theorem nil_or_single {f : Field} (h : (fs.map Prod.fst).Sublist [f]) :
    fs = [] ∨ ∃ cs, fs = [(f, cs)] := by
  obtain h' | ⟨cs, gs, rfl, h'⟩ := missing_or_first h
  · exact .inl (List.map_eq_nil_iff.1 (List.sublist_nil.1 h'))
  · obtain rfl := List.map_eq_nil_iff.1 (List.sublist_nil.1 h')
    exact .inr ⟨cs, rfl⟩

theorem complete_eq_ok (h : s.complete = .ok d) :
    s = ⟨some d.name, some d.description, some d.version, some d.author⟩ := by
  unfold Found.complete at h
  split at h
  · obtain rfl := Except.ok.inj h
    rfl
  · cases h

theorem author_of_complete (hs : s.author = none)
    (hsub : (fs.map Prod.fst).Sublist [.author, .email])
    (h : readMembers member n false s (utf8 (written fs)) = .ok (s', bs))
    (hd : s'.complete = .ok d) :
    ∃ cs ds, fs = [(.author, cs), (.email, ds)] ∧
      s' = { s with author := some ⟨String.ofList cs, String.ofList ds⟩ } := by
  have hne : s' ≠ s := by
    rintro rfl
    simp [complete_eq_ok hd] at hs
  cases n with
  | zero => simp [readMembers] at h
  | succ n =>
    obtain hrest | ⟨cs, gs, rfl, hrest⟩ := missing_or_first hsub
    · -- the text ends, or the address stands alone
      obtain rfl | ⟨ds, rfl⟩ := nil_or_single hrest
      · exact absurd (eq_of_readMembers_closing h) hne
      · rw [readMembers_email] at h
        exact absurd (eq_of_readMembers_closing h) hne
    · rw [readMembers_author hs] at h
      obtain rfl | ⟨ds, rfl⟩ := nil_or_single hrest
      · simp [author_parse_short, Except.bind] at h
      · rw [author_parse] at h
        refine ⟨cs, ds, rfl, ?_⟩
        cases n with
        | zero => simp [Except.bind, readMembers] at h
        | succ n =>
          have hskip : skipBlanks (utf8 ['\n', '}']) = [0x7d] := by decide
          simp only [Except.bind, readMembers, hskip] at h
          exact (congrArg Prod.fst (Except.ok.inj h)).symm

theorem version_of_complete (hs : s.version = none ∧ s.author = none)
    (hsub : (fs.map Prod.fst).Sublist [.version, .author, .email])
    (h : readMembers member n false s (utf8 (written fs)) = .ok (s', bs))
    (hd : s'.complete = .ok d) :
    ∃ v cs ds, fs = [(.version, v), (.author, cs), (.email, ds)] ∧
      s' = { s with
        version := some (String.ofList v)
        author := some ⟨String.ofList cs, String.ofList ds⟩ } := by
  obtain hrest | ⟨v, gs, rfl, hrest⟩ := missing_or_first hsub
  · obtain ⟨cs, ds, -, rfl⟩ := author_of_complete hs.2 hrest h hd
    have hfound := complete_eq_ok hd
    simp [hs.1] at hfound
  · cases n with
    | zero => simp [readMembers] at h
    | succ n =>
      rw [readMembers_version hs.1] at h
      obtain ⟨cs, ds, rfl, rfl⟩ := author_of_complete (by exact hs.2) hrest h hd
      exact ⟨v, cs, ds, rfl, rfl⟩

theorem description_of_complete
    (hs : s.description = none ∧ s.version = none ∧ s.author = none)
    (hsub : (fs.map Prod.fst).Sublist [.description, .version, .author, .email])
    (h : readMembers member n false s (utf8 (written fs)) = .ok (s', bs))
    (hd : s'.complete = .ok d) :
    ∃ t v cs ds, fs = [(.description, t), (.version, v), (.author, cs), (.email, ds)] ∧
      s' = { s with
        description := some (String.ofList t)
        version := some (String.ofList v)
        author := some ⟨String.ofList cs, String.ofList ds⟩ } := by
  obtain hrest | ⟨t, gs, rfl, hrest⟩ := missing_or_first hsub
  · obtain ⟨v, cs, ds, -, rfl⟩ := version_of_complete hs.2 hrest h hd
    have hfound := complete_eq_ok hd
    simp [hs.1] at hfound
  · cases n with
    | zero => simp [readMembers] at h
    | succ n =>
      rw [readMembers_description hs.1] at h
      obtain ⟨v, cs, ds, rfl, rfl⟩ := version_of_complete (by exact hs.2) hrest h hd
      exact ⟨t, v, cs, ds, rfl, rfl⟩

/-- A row that is read as a descriptor has all its fields, as they are written. -/
theorem eq_fields_of_parse {cs : List Char}
    (hsub : (fs.map Prod.fst).Sublist [.description, .version, .author, .email])
    (h : parse (utf8 (written ((.name, cs) :: fs))) = .ok (d, bs)) :
    (.name, cs) :: fs = d.fields := by
  obtain ⟨n, hn⟩ := parse_written cs fs
  rw [hn] at h
  cases hread : readMembers member (n + 5) false { name := some (String.ofList cs) }
      (utf8 (written fs)) with
  | error e => simp [hread, Except.bind] at h
  | ok p =>
    rw [hread] at h
    cases hcomplete : p.1.complete with
    | error e => simp [hcomplete, Except.bind, Except.map] at h
    | ok d' =>
      obtain ⟨rfl, -⟩ : d' = d ∧ p.2 = bs := by
        simpa [hcomplete, Except.bind, Except.map] using h
      obtain ⟨t, v, as, es, rfl, hp⟩ :=
        description_of_complete ⟨rfl, rfl, rfl⟩ hsub hread hcomplete
      rw [hp] at hcomplete
      obtain rfl := Except.ok.inj hcomplete
      simp [fields]

theorem eq_fields_of_ofBytes {text : String} {cs : List Char}
    (htext : text.toList = written ((.name, cs) :: fs))
    (hsub : (fs.map Prod.fst).Sublist [.description, .version, .author, .email])
    (h : ofBytes text.toUTF8 = .ok d) : (.name, cs) :: fs = d.fields := by
  rw [ofBytes, toUTF8_eq_utf8, htext] at h
  cases hparse : parse (utf8 (written ((.name, cs) :: fs))) with
  | error e => simp [hparse, bind, Except.bind] at h
  | ok p =>
    cases hclose : closeText p.2 with
    | error e => simp [hparse, hclose, bind, Except.bind] at h
    | ok u =>
      obtain rfl : p.1 = d := by
        simpa [hparse, hclose, bind, Except.bind, pure, Except.pure] using h
      exact eq_fields_of_parse hsub hparse

end

end Stencil.Descriptor
