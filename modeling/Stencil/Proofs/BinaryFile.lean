import Stencil.Proofs.PlannedFiles
import Stencil.Proofs.Seams
import Stencil.Proofs.Survivors

/-!
Which files are left alone.

The sample of a file is longer than any mark or signature, and longer than the part that is
searched for a NUL byte, so that its bytes decide as those of the file do (`looksBinary_iff`). Main
statement: a NUL byte in the searched part keeps a file as it is, and a file without one and without
a signature is text if its bytes are UTF-8 (`fillDirectory_binary`). A NUL byte behind the searched
part does not keep a file, although it lies in the sample (`fillDirectory_late_nul`).
-/

namespace Stencil

open FileSystem Run
open Json (utf8 utf8_append toUTF8_eq_utf8 fromUTF8?_toUTF8)

/-- The bytes begin with a byte-order mark. -/
def Marked (bytes : ByteArray) : Prop := ∃ mark ∈ byteOrderMarks, mark <+: bytes.data.toList

/-- The bytes begin like a PDF or a PNG file. -/
def Signed (bytes : ByteArray) : Prop :=
  ∃ signature ∈ binarySignatures, signature <+: bytes.data.toList

/-- There is a NUL byte among the first `n`. -/
def NulWithin (n : Nat) (bytes : ByteArray) : Prop := 0 ∈ bytes.data.toList.take n

instance (bytes : ByteArray) : Decidable (Marked bytes) :=
  inferInstanceAs (Decidable (∃ mark ∈ byteOrderMarks, _))

instance (bytes : ByteArray) : Decidable (Signed bytes) :=
  inferInstanceAs (Decidable (∃ signature ∈ binarySignatures, _))

instance (n : Nat) (bytes : ByteArray) : Decidable (NulWithin n bytes) :=
  inferInstanceAs (Decidable (0 ∈ _))

variable {bytes : ByteArray} {w : World} {root p : Path} {l k : Location}

/-! ## The bytes -/

/-- What is not longer than the sample begins the sample if it begins the file. -/
theorem any_isPrefixOf_sample (leads : List (List UInt8))
    (h : ∀ lead ∈ leads, lead.length ≤ sampleSize) (bs : List UInt8) :
    leads.any (·.isPrefixOf (bs.take sampleSize)) ↔ ∃ lead ∈ leads, lead <+: bs := by
  simp only [List.any_eq_true, List.isPrefixOf_iff_prefix]
  refine exists_congr fun lead => and_congr_right fun hlead => ?_
  rw [List.prefix_take_iff]
  exact and_iff_left (h lead hlead)

theorem looksBinary_iff :
    looksBinary bytes ↔ ¬ Marked bytes ∧ (NulWithin scannedSize bytes ∨ Signed bytes) := by
  have hmark := any_isPrefixOf_sample byteOrderMarks (by decide) bytes.data.toList
  have hsignature := any_isPrefixOf_sample binarySignatures (by decide) bytes.data.toList
  have hscanned : (bytes.data.toList.take sampleSize).take scannedSize =
      bytes.data.toList.take scannedSize := by
    rw [List.take_take]
    rfl
  rw [looksBinary, Marked, Signed, NulWithin, ← hmark, ← hsignature, hscanned]
  split
  · simp [*]
  · simp [*]

theorem fromUTF8?_eq_none_iff : String.fromUTF8? bytes = none ↔ ¬ bytes.IsValidUTF8 := by
  rw [String.fromUTF8?]
  split <;> simp [*]

theorem textOf?_of_binary (h : looksBinary bytes) : textOf? bytes = none := by
  rw [textOf?, if_pos h]

/-- What does not seem binary is text if it is UTF-8. -/
theorem isSome_textOf?_iff (h : ¬ looksBinary bytes) :
    (∃ text, textOf? bytes = some text) ↔ bytes.IsValidUTF8 := by
  rw [textOf?, if_neg h, ← Option.isSome_iff_exists, ← not_iff_not, ← fromUTF8?_eq_none_iff,
    Option.not_isSome_iff_eq_none]

/-! ## The file -/

theorem isBinaryFile_eq (h : w.files.read p = .ok bytes) :
    w.files.isBinaryFile p = looksBinary bytes := by
  rw [isBinaryFile, h]

/-- Above a file there is a directory, which the path of the root leads to. -/
theorem rooted_of_file (hwf : w.files.WellFormed) (hlocate : w.files.locate root = .ok l)
    (hk : k ≠ []) (hb : w.files.get? (k ++ l) = some (.file bytes)) : w.files.Rooted root l := by
  have hl := hwf.directory_above hk (Option.isSome_of_eq_some hb)
  obtain ⟨hc, m, hm⟩ := leadsTo_of_locate hlocate
  exact ⟨hwf, ⟨m, hm⟩, hc, hl⟩

/-- What is not text is skipped, and if the files below the root cannot be filled in, then not
because of it, unless its path is too long. -/
theorem fillDirectory_skips (hwf : w.files.WellFormed) (hlocate : w.files.locate root = .ok l)
    (hk : k ≠ []) (hb : w.files.get? (k ++ l) = some (.file bytes)) (hnone : textOf? bytes = none)
    (bindings : Bindings) (policy : Policy) :
    Ends (fillDirectory root bindings policy) w
      (fun report w' => k ∈ report.skipped ∧ w'.files.get? (k ++ l) = some (.file bytes))
      fun e w' => w'.files = w.files ∧ ∃ j, Offends w.files root l bindings policy j e ∧
        (j = k → maxPathSize < (root.joinAll k).size) := by
  have h := rooted_of_file hwf hlocate hk hb
  refine (fillDirectory_spec h bindings policy).imp ?_ ?_
  · rintro report w' ⟨-, hfilled, -⟩
    refine ⟨hfilled.skipped.2 ⟨bytes, hb, hnone⟩, ?_⟩
    rw [hfilled.file hb, filledBytes]
    simp only [hnone]
  · rintro e w' ⟨hfiles, he⟩
    obtain ⟨j, hj, -⟩ := first_offends h he
    refine ⟨hfiles, j, hj, ?_⟩
    rintro rfl
    cases hj with
    | unresolved hb' htext =>
      obtain ⟨rfl⟩ := Option.some.inj (hb.symm.trans hb')
      simp [hnone] at htext
    | unread _ hlong => exact hlong
    | unlisted _ hlong => exact hlong

/-- A file with a NUL byte in the part that is searched, and without a byte-order mark, is binary:
it is no text, and filling in skips it and leaves its bytes. A file without such a byte and without
a signature is not binary, and it is text if its bytes are UTF-8. -/
theorem fillDirectory_binary (bytes : ByteArray) :
    (¬ Marked bytes → NulWithin scannedSize bytes →
      (∀ (w : World) p, w.files.read p = .ok bytes →
        w.files.isBinaryFile p ∧ readText p w = .ok none w) ∧
      ∀ (w : World) root l k bindings policy, w.files.WellFormed → w.files.locate root = .ok l →
        k ≠ [] → w.files.get? (k ++ l) = some (.file bytes) →
        (∀ report w', fillDirectory root bindings policy w = .ok report w' →
          k ∈ report.skipped ∧ w'.files.get? (k ++ l) = some (.file bytes)) ∧
        ∀ e w', fillDirectory root bindings policy w = .error e w' →
          w'.files = w.files ∧ ∃ j, Offends w.files root l bindings policy j e ∧
            (j = k → maxPathSize < (root.joinAll k).size)) ∧
    (¬ NulWithin scannedSize bytes → ¬ Signed bytes →
      ∀ (w : World) p, w.files.read p = .ok bytes →
        ¬ w.files.isBinaryFile p ∧
          ((∃ text, readText p w = .ok (some text) w) ↔ bytes.IsValidUTF8) ∧
          ∀ text, readText p w = .ok (some text) w → text.toUTF8 = bytes) := by
  constructor
  · intro hmark hnul
    have hbinary : looksBinary bytes := looksBinary_iff.2 ⟨hmark, .inl hnul⟩
    have hnone := textOf?_of_binary hbinary
    constructor
    · intro w p hread
      exact ⟨(isBinaryFile_eq hread).trans hbinary, (readText_eq_iff hread).2 hnone⟩
    · intro w root l k bindings policy hwf hlocate hk hb
      have hends := fillDirectory_skips hwf hlocate hk hb hnone bindings policy
      exact ⟨fun report w' => hends.of_ok, fun e w' => hends.of_error⟩
  · intro hnul hsignature w p hread
    have hplain : ¬ looksBinary bytes := fun h => (looksBinary_iff.1 h).2.elim hnul hsignature
    refine ⟨by rwa [isBinaryFile_eq hread], ?_, fun text htext => ?_⟩
    · rw [← isSome_textOf?_iff hplain]
      exact exists_congr fun text => readText_eq_iff hread
    · exact toUTF8_of_textOf? ((readText_eq_iff hread).1 htext)

/-- One name has a value. -/
def oneName : Bindings := ⟨[("a", "x")], by decide⟩

/-- Two files with a placeholder, one of them with a NUL byte. -/
def mixedBytes : FileSystem where
  entries := [
    (["d"], .directory),
    (["image", "d"], .file "{{a}}\x00".toUTF8),
    (["text", "d"], .file "{{a}} é".toUTF8)]
  workingDirectory := []

theorem fillDirectory_binary_kept :
    (¬ Marked "{{a}}\x00".toUTF8 ∧ NulWithin scannedSize "{{a}}\x00".toUTF8 ∧
      mixedBytes.WellFormed ∧ mixedBytes.locate ⟨["d"]⟩ = .ok ["d"] ∧
      ∃ w', fillDirectory ⟨["d"]⟩ oneName .keep { files := mixedBytes } =
          .ok ⟨[["text"]], [], [["image"]]⟩ w' ∧
        w'.files.get? ["image", "d"] = some (.file "{{a}}\x00".toUTF8)) ∧
    ¬ NulWithin scannedSize "{{a}} é".toUTF8 ∧ ¬ Signed "{{a}} é".toUTF8 ∧
      ¬ mixedBytes.isBinaryFile ⟨["d", "text"]⟩ ∧
      ∃ text, readText ⟨["d", "text"]⟩ { files := mixedBytes } =
        .ok (some text) { files := mixedBytes } := by
  have hwf : mixedBytes.WellFormed := by decide
  have hlocate : mixedBytes.locate ⟨["d"]⟩ = .ok ["d"] := by decide +kernel
  have hmark : ¬ Marked "{{a}}\x00".toUTF8 := by decide +kernel
  have hnul : NulWithin scannedSize "{{a}}\x00".toUTF8 := by decide +kernel
  have hplain : ¬ NulWithin scannedSize "{{a}} é".toUTF8 := by decide +kernel
  have hsignature : ¬ Signed "{{a}} é".toUTF8 := by decide +kernel
  have hread : mixedBytes.read ⟨["d", "text"]⟩ = .ok "{{a}} é".toUTF8 := by decide +kernel
  have hfile : mixedBytes.get? (["image"] ++ ["d"]) = some (.file "{{a}}\x00".toUTF8) := by
    decide +kernel
  have hrun := eq_ok_of_value? (w := { files := mixedBytes })
    (x := fillDirectory ⟨["d"]⟩ oneName .keep)
    (a := ⟨[["text"]], [], [["image"]]⟩) (by decide +kernel)
  obtain ⟨-, hleft⟩ := (fillDirectory_binary "{{a}}\x00".toUTF8).1 hmark hnul
  obtain ⟨hkept, -⟩ := hleft { files := mixedBytes } ⟨["d"]⟩ ["d"] ["image"] oneName .keep hwf
    hlocate (by simp) hfile
  obtain ⟨hbinary, htext, -⟩ := (fillDirectory_binary "{{a}} é".toUTF8).2 hplain hsignature
    { files := mixedBytes } ⟨["d", "text"]⟩ hread
  have hvalid : "{{a}} é".toUTF8.IsValidUTF8 := "{{a}} é".isValidUTF8
  exact ⟨⟨hmark, hnul, hwf, hlocate, _, hrun, (hkept _ _ hrun).2⟩, hplain, hsignature, hbinary,
    htext.2 hvalid⟩

/-! ## A NUL byte that is not found -/

/-- A placeholder, `n` letters and a NUL character. -/
def lateText (n : Nat) : String := "{{a}}" ++ String.ofList (List.replicate n 'b' ++ ['\x00'])

theorem utf8_lateText (n : Nat) :
    (lateText n).toUTF8.data.toList =
      utf8 "{{a}}".toList ++ List.replicate n 0x62 ++ [0] := by
  have hletter : String.utf8EncodeChar 'b' = [0x62] := by decide
  have hletters : utf8 (List.replicate n 'b') = List.replicate n 0x62 := by
    simp [utf8, List.flatMap_replicate, hletter]
  have hnul : utf8 ['\x00'] = [0] := by decide
  have hlate : (lateText n).toList =
      "{{a}}".toList ++ (List.replicate n 'b' ++ ['\x00']) := by
    rw [lateText, String.toList_append]
    exact congrArg _ String.toList_ofList
  rw [toUTF8_eq_utf8, hlate, utf8_append, utf8_append, hletters, hnul, List.append_assoc]

theorem nulWithin_lateText {m n : Nat} : NulWithin m (lateText n).toUTF8 ↔ n + 5 < m := by
  have hlead : 0 ∉ utf8 "{{a}}".toList ++ List.replicate n 0x62 := by
    have hfirst : 0 ∉ utf8 "{{a}}".toList := by decide
    rw [List.mem_append, not_or]
    exact ⟨hfirst, by simp⟩
  have hlength : (utf8 "{{a}}".toList ++ List.replicate n 0x62).length = n + 5 := by
    have hfirst : (utf8 "{{a}}".toList).length = 5 := by decide
    rw [List.length_append, List.length_replicate, hfirst, Nat.add_comm]
  rw [NulWithin, utf8_lateText, List.take_append, hlength, List.mem_append]
  constructor
  · rintro (hmem | hmem)
    · exact absurd (List.mem_of_mem_take hmem) hlead
    · by_contra hle
      rw [Nat.sub_eq_zero_of_le (Nat.le_of_not_lt hle)] at hmem
      exact List.not_mem_nil hmem
  · intro hlt
    obtain ⟨d, hd⟩ := Nat.exists_eq_add_of_lt hlt
    rw [show m - (n + 5) = d + 1 by omega]
    exact .inr List.mem_cons_self

/-- A brace begins no mark and no signature. -/
theorem unmarked_lateText (n : Nat) :
    ¬ Marked (lateText n).toUTF8 ∧ ¬ Signed (lateText n).toUTF8 := by
  have hlead : utf8 "{{a}}".toList = [0x7b, 0x7b, 0x61, 0x7d, 0x7d] := by decide
  rw [Marked, Signed, utf8_lateText, hlead]
  simp [byteOrderMarks, binarySignatures]

theorem textOf?_lateText {n : Nat} (h : scannedSize ≤ n + 5) :
    textOf? (lateText n).toUTF8 = some (lateText n) := by
  have hplain : ¬ looksBinary (lateText n).toUTF8 := by
    rw [looksBinary_iff, nulWithin_lateText]
    rintro ⟨-, hlt | hsigned⟩
    · exact absurd hlt (Nat.not_lt_of_le h)
    · exact (unmarked_lateText n).2 hsigned
  rw [textOf?, if_neg hplain, fromUTF8?_toUTF8]

theorem substitute_lateText (n : Nat) :
    substitute (lateText n) oneName .keep =
      .ok ("x" ++ String.ofList (List.replicate n 'b' ++ ['\x00'])) := by
  have hclosed : ClosedAtEnd "{{a}}" := ⟨by decide +kernel, by decide +kernel⟩
  have hfirst : substitute "{{a}}" oneName .keep = .ok "x" := by decide +kernel
  have hplain : ¬ ['{', '{'] <:+: List.replicate n 'b' ++ ['\x00'] := by
    intro hopen
    have hbrace := hopen.subset (List.mem_cons_self (a := '{'))
    simp at hbrace
  have htokenless : Piece.Tokenless (List.replicate n 'b' ++ ['\x00']) := by
    intro pending
    exact Piece.read_of_no_opening hplain pending
  rw [lateText, substitute_append hclosed, hfirst,
    substitute_of_no_placeholders (placeholders_of_tokenless htokenless)]
  rfl

/-- A file with a NUL byte right behind the part that is searched. -/
def lateFiles : FileSystem where
  entries := [(["late"], .file (lateText 1019).toUTF8)]
  workingDirectory := []

/-- The NUL byte lies in the sample, and yet the file is read as text and filled in. -/
theorem fillDirectory_late_nul :
    ¬ Marked (lateText 1019).toUTF8 ∧ NulWithin sampleSize (lateText 1019).toUTF8 ∧
      ¬ lateFiles.isBinaryFile ⟨["late"]⟩ ∧
      readText ⟨["late"]⟩ { files := lateFiles } =
        .ok (some (lateText 1019)) { files := lateFiles } ∧
      fate oneName .keep (lateText 1019).toUTF8 =
        .ok (.filled ("x" ++ String.ofList (List.replicate 1019 'b' ++ ['\x00']))) := by
  have hread : lateFiles.read ⟨["late"]⟩ = .ok (lateText 1019).toUTF8 := rfl
  have htext := textOf?_lateText (n := 1019) (by decide)
  have hsub := substitute_lateText 1019
  have hplain : ¬ looksBinary (lateText 1019).toUTF8 := by
    intro hbinary
    rw [textOf?_of_binary hbinary] at htext
    cases htext
  refine ⟨(unmarked_lateText 1019).1, nulWithin_lateText.2 (by decide), ?_,
    (readText_eq_iff (w := { files := lateFiles }) hread).2 htext,
    fate_eq_filled_iff.2 ⟨_, htext, hsub, ?_⟩⟩
  · rwa [isBinaryFile_eq (w := { files := lateFiles }) hread]
  · intro hsame
    have hfirst := congrArg (fun s : String => s.toList.head?) hsame
    rw [lateText, String.toList_append, String.toList_append] at hfirst
    exact absurd hfirst (by decide)

end Stencil
