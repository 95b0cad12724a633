import Stencil.Proofs.DescriptorPlaceholders
import Stencil.Proofs.FinishedProject

/-!
The descriptor in a finished project.

The file `package.json` is filled in like any other, so it holds the descriptor of the request with
its placeholders replaced. Main statement: it is read as that descriptor when filling in has changed
nothing, and only then if the version is written as it is (`scaffold_descriptor`).
-/

namespace Stencil

open FileSystem Json Run

/-! ## The variables of a request -/

theorem get?_bindings {r : Request} {name value : String}
    (h : r.bindings.get? name = some value) :
    (name = "project_name" ∧ value = dashCase r.name) ∨ (name = "version" ∧ value = r.version) := by
  have hget : r.bindings.get? name =
      if name = "project_name" then some (dashCase r.name)
      else if name = "version" then some r.version else none := by
    simp only [Request.bindings, Bindings.ofList, List.foldl_cons, List.foldl_nil,
      Bindings.get?_insert]
    rfl
  rw [hget] at h
  split at h
  · exact .inl ⟨by assumption, (Option.some.inj h).symm⟩
  · split at h
    · exact .inr ⟨by assumption, (Option.some.inj h).symm⟩
    · cases h

theorem unescaped_dashCase {c : Char} {name : String} (h : c ∈ (dashCase name).toList) :
    Unescaped c := by
  have hrange := mem_dashCase h
  refine ⟨?_, ?_, by omega⟩
  · rintro rfl
    have : '"'.toNat = 0x22 := rfl
    omega
  · rintro rfl
    have : '\\'.toNat = 0x5c := rfl
    omega

theorem harmless_bindings {r : Request} (h : ∀ c ∈ r.version.toList, Unescaped c) :
    Descriptor.Harmless r.bindings := by
  constructor
  · intro name value hget
    obtain ⟨rfl, -⟩ | ⟨rfl, -⟩ := get?_bindings hget <;> decide
  · intro name value hget
    obtain ⟨-, rfl⟩ | ⟨-, rfl⟩ := get?_bindings hget
    · exact fun c hc => unescaped_dashCase hc
    · exact h

/-- No answer opens a placeholder. -/
def Request.Plain (r : Request) : Prop :=
  ∀ answer ∈ [r.name, r.version, r.author, r.email], ¬ ['{', '{'] <:+: answer.toList

theorem Request.Plain.not_enclosesAmong {r : Request} (h : r.Plain) :
    ¬ EnclosesAmong (r.answers.map String.toList) := by
  intro hencloses
  obtain ⟨cs, hmem, hopen⟩ := hencloses.opening
  obtain ⟨answer, hanswer, rfl⟩ := List.mem_map.1 hmem
  exact h answer hanswer hopen

theorem substitute_of_plain {r : Request} (h : r.Plain) (bindings : Bindings) (policy : Policy) :
    substitute (Descriptor.ofRequest r).render bindings policy =
      .ok (Descriptor.ofRequest r).render :=
  substitute_of_no_placeholders ((placeholders_ofRequest r).2 h.not_enclosesAmong) bindings policy

/-! ## The file -/

/-- Bytes that begin like an object and hold no NUL seem to be text. -/
theorem looksBinary_of_brace {bytes : ByteArray} {rest : List UInt8}
    (h : bytes.data.toList = 0x7b :: rest) (hzero : 0 ∉ rest) : looksBinary bytes = false := by
  have hsample : (0x7b :: rest).take sampleSize = 0x7b :: rest.take 8191 := rfl
  have hscanned : (0x7b :: rest.take 8191).take scannedSize =
      0x7b :: (rest.take 8191).take 1023 := rfl
  have hmark : byteOrderMarks.any (·.isPrefixOf (0x7b :: rest.take 8191)) = false := by
    simp [byteOrderMarks, List.isPrefixOf]
  have hsignature : binarySignatures.any (·.isPrefixOf (0x7b :: rest.take 8191)) = false := by
    simp [binarySignatures, List.isPrefixOf]
  have hzero' : 0 ∉ (rest.take 8191).take 1023 := fun hmem =>
    hzero (List.mem_of_mem_take (List.mem_of_mem_take hmem))
  rw [looksBinary, h]
  simp only [hsample, hmark, hscanned, hsignature]
  simp [hzero']

theorem textOf?_of_brace {s : String} {cs : List Char} (h : s.toList = '{' :: cs)
    (hzero : 0 ∉ utf8 cs) : textOf? s.toUTF8 = some s := by
  have hbrace : String.utf8EncodeChar '{' = [0x7b] := by decide
  have hbytes : s.toUTF8.data.toList = 0x7b :: utf8 cs := by
    rw [toUTF8_eq_utf8, h, utf8_cons, hbrace, List.singleton_append]
  rw [textOf?, looksBinary_of_brace hbytes hzero]
  exact fromUTF8?_toUTF8 s

/-- The descriptor is text, so that it is filled in. -/
theorem textOf?_render (d : Descriptor) : textOf? d.render.toUTF8 = some d.render := by
  obtain ⟨cs, hcs⟩ : ∃ cs, Descriptor.written d.fields = '{' :: cs := ⟨_, rfl⟩
  refine textOf?_of_brace ((Descriptor.toList_render d).trans hcs) fun hmem => ?_
  refine Descriptor.zero_not_mem_written d.fields ?_
  rw [hcs, utf8_cons]
  exact List.mem_append_right _ hmem

variable {request : Request} {options : Options} {project : Project}

/-- The file of the descriptor holds its text, filled in. -/
theorem scaffold_fills_descriptor {w w' : World} (hwf : w.files.WellFormed)
    (h : scaffold request options w = .ok project w') :
    ∃ text, substitute (Descriptor.ofRequest request).render request.bindings options.policy =
        .ok text ∧
      w'.files.read (project.destination.join Descriptor.fileName) = .ok text.toUTF8 := by
  obtain ⟨-, l, mid, hgrown, hmid, hfilled⟩ := (scaffold_grows hwf request options).of_ok h
  obtain ⟨text, hsub, hget⟩ := hfilled.text (k := [Descriptor.fileName]) hmid (textOf?_render _)
  exact ⟨text, hsub, hgrown.read_below (r := [Descriptor.fileName]) hget⟩

/-- A finished project holds the descriptor of the request with its placeholders replaced. It is
read as that descriptor if they are all replaced by themselves, as they are when no answer opens
one, and only then unless the version needs escapes. -/
theorem scaffold_descriptor {w w' : World} (hwf : w.files.WellFormed)
    (h : scaffold request options w = .ok project w') :
    ∃ text, substitute (Descriptor.ofRequest request).render request.bindings options.policy =
        .ok text ∧
      w'.files.read (project.destination.join Descriptor.fileName) = .ok text.toUTF8 ∧
      (text = (Descriptor.ofRequest request).render →
        Descriptor.ofBytes text.toUTF8 = .ok (Descriptor.ofRequest request)) ∧
      ((∀ c ∈ request.version.toList, Unescaped c) →
        Descriptor.ofBytes text.toUTF8 = .ok (Descriptor.ofRequest request) →
          text = (Descriptor.ofRequest request).render) ∧
      (request.Plain → text = (Descriptor.ofRequest request).render) := by
  obtain ⟨text, hsub, hread⟩ := scaffold_fills_descriptor hwf h
  refine ⟨text, hsub, hread, ?_, ?_, ?_⟩
  · rintro rfl
    exact Descriptor.ofBytes_render _
  · intro hversion
    exact (Descriptor.ofBytes_filled_iff (harmless_bindings hversion) hsub).1
  · intro hplain
    rw [substitute_of_plain hplain] at hsub
    exact (Except.ok.inj hsub).symm

/-- The author is called like a placeholder, and the version stands in its place. -/
theorem scaffold_descriptor_author :
    ∃ project w', ∃ text : String,
      scaffold ⟨"My App", "1.0", "\x7b\x7bversion\x7d\x7d", "a@b"⟩ (sampleOptions .keep)
        { files := sampleFiles } = .ok project w' ∧
      w'.files.read (project.destination.join Descriptor.fileName) = .ok text.toUTF8 ∧
      Descriptor.ofBytes text.toUTF8 ≠
        .ok (Descriptor.ofRequest ⟨"My App", "1.0", "\x7b\x7bversion\x7d\x7d", "a@b"⟩) := by
  have hwf : sampleFiles.WellFormed := by decide
  have hrun := eq_ok_of_value?
    (x := scaffold ⟨"My App", "1.0", "\x7b\x7bversion\x7d\x7d", "a@b"⟩ (sampleOptions .keep))
    (w := { files := sampleFiles })
    (a := ⟨⟨["base", "my-app"]⟩, sampleRequest.bindings,
      ⟨[["package.json"], ["readme"]], [["notes", "more"]], []⟩⟩) (by decide +kernel)
  obtain ⟨text, hsub, hread, -, honly, -⟩ := scaffold_descriptor hwf hrun
  refine ⟨_, _, text, hrun, hread, fun hsame => ?_⟩
  have hversion : ∀ c ∈ "1.0".toList, Unescaped c := by
    intro c hc
    obtain rfl | rfl | rfl : c = '1' ∨ c = '.' ∨ c = '0' := by simpa using hc
    all_goals decide
  have htext := honly hversion hsame
  rw [htext] at hsub
  revert hsub
  decide +kernel

end Stencil
