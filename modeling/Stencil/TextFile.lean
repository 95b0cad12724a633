import Stencil.World

/-!
Which files are text. A file is looked at before it is read as text: one that seems binary is
left alone, and so is one that is not UTF-8.
-/

namespace Stencil

/-- The part of a file that is looked at, in bytes. -/
def sampleSize : Nat := 8192

/-- The part of the sample that is searched for a NUL byte. -/
def scannedSize : Nat := 1024

/-- Byte-order marks of UTF-8, UTF-32 and UTF-16. -/
def byteOrderMarks : List (List UInt8) :=
  [[0xef, 0xbb, 0xbf], [0x00, 0x00, 0xfe, 0xff], [0xff, 0xfe, 0x00, 0x00], [0xfe, 0xff],
    [0xff, 0xfe]]

/-- The first bytes of PDF and PNG files. -/
def binarySignatures : List (List UInt8) :=
  [[0x25, 0x50, 0x44, 0x46], [0x89, 0x50, 0x4e, 0x47]]

/-- A byte-order mark marks text. Without one, a NUL byte near the beginning or a signature marks
a binary file. -/
def looksBinary (bytes : ByteArray) : Bool :=
  let sample := bytes.data.toList.take sampleSize
  if byteOrderMarks.any (·.isPrefixOf sample) then false
  else (sample.take scannedSize).contains 0 || binarySignatures.any (·.isPrefixOf sample)

/-- The text in the bytes of a file, if they are text. -/
def textOf? (bytes : ByteArray) : Option String :=
  if looksBinary bytes then none else String.fromUTF8? bytes

/-- The file can be read and seems binary. -/
def FileSystem.isBinaryFile (fs : FileSystem) (p : Path) : Bool :=
  match fs.read p with
  | .ok bytes => looksBinary bytes
  | .error _ => false

/-- The text of a file, or nothing if it is not text. -/
def readText (p : Path) : Run (Option String) := do
  let bytes ← Run.look (·.read p) (.system ("reading " ++ p.toString))
  return textOf? bytes

end Stencil
