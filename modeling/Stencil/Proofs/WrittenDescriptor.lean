import Stencil.Proofs.DescriptorText
import Stencil.Proofs.Endings
import Stencil.Proofs.WrittenFile
import Stencil.Scaffold

/-!
The descriptor that has been written is read back.

Main statement: the descriptor of a request, written over whatever was there, is read as that
descriptor, and gives the bindings that were returned (`writeDescriptor_reads_back`).
-/

namespace Stencil

open Run

variable {request : Request} {root : Path} {w w' : World} {bindings : Bindings}

/-- One call writes the descriptor, whether it is reported that something is replaced or not. -/
theorem writeDescriptor_writes (request : Request) (root : Path) (w : World) :
    Ends (writeDescriptor request root) w
      (fun bindings w' => bindings = (Descriptor.ofRequest request).bindings ∧
        w.files.write (root.join Descriptor.fileName)
          (Descriptor.ofRequest request).render.toUTF8 = .ok w'.files)
      fun _ w' => w'.files = w.files := by
  rw [writeDescriptor]
  simp only [ends_bind, ends_get]
  split
  all_goals
    simp only [ends_bind, ends_emit, ends_pure, ends_change]
    split
    · exact ⟨trivial, by assumption⟩
    · trivial

/-- The descriptor of a request is read back as it was written, whatever stood in its place, and
the bindings that were returned are those of the descriptor that is read. -/
theorem writeDescriptor_reads_back (hwf : w.files.WellFormed)
    (h : writeDescriptor request root w = .ok bindings w') :
    ∃ bytes d, w'.files.read (root.join Descriptor.fileName) = .ok bytes ∧
      bytes = (Descriptor.ofRequest request).render.toUTF8 ∧
      Descriptor.ofBytes bytes = .ok d ∧ d = Descriptor.ofRequest request ∧
      d.bindings = bindings := by
  obtain ⟨rfl, hwrite⟩ := (writeDescriptor_writes request root w).of_ok h
  have hread := FileSystem.read_of_write hwf hwrite
  have hparse := Descriptor.ofBytes_render (Descriptor.ofRequest request)
  exact ⟨_, _, hread, rfl, hparse, rfl, rfl⟩

/-- In the project a link stands in the place of the descriptor, and leads to nothing yet. -/
def linkedFiles : FileSystem where
  entries := [
    (["app"], .directory),
    (["package.json", "app"], .link ⟨["..", "shared", "of-app.json"]⟩),
    (["shared"], .directory)]
  workingDirectory := []

/-- Quotes, a backslash, braces, line breaks, a control character and an astral one. -/
def strangeRequest : Request :=
  ⟨"My \"App\" \\", "1\r\n2", "\x7b\x7bversion\x7d\x7d", "\x01 😀"⟩

theorem writeDescriptor_reads_back_strange :
    linkedFiles.WellFormed ∧
      ∃ w' bytes, writeDescriptor strangeRequest ⟨["app"]⟩ { files := linkedFiles } =
          .ok (Descriptor.ofRequest strangeRequest).bindings w' ∧
        w'.files.read (Path.join ⟨["app"]⟩ Descriptor.fileName) = .ok bytes ∧
        Descriptor.ofBytes bytes =
          .ok ⟨"my-app", "My \"App\" \\", "1\r\n2", "\x7b\x7bversion\x7d\x7d", "\x01 😀"⟩ := by
  have hwf : linkedFiles.WellFormed := by decide
  have hrun := eq_ok_of_value? (x := writeDescriptor strangeRequest ⟨["app"]⟩)
    (w := { files := linkedFiles }) (a := (Descriptor.ofRequest strangeRequest).bindings)
    (by decide +kernel)
  obtain ⟨bytes, d, hread, -, hparse, rfl, -⟩ := writeDescriptor_reads_back hwf hrun
  have hd : Descriptor.ofRequest strangeRequest =
      ⟨"my-app", "My \"App\" \\", "1\r\n2", "\x7b\x7bversion\x7d\x7d", "\x01 😀"⟩ := by
    decide +kernel
  exact ⟨hwf, _, bytes, hrun, hread, hd ▸ hparse⟩

end Stencil
