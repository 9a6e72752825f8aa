import DocIndex.Source.Parse
import DocIndex.Text.Utf8

/-!
# Reading the bytes of a source file

The bytes of a file need not spell a text. `parseBytes` reads U+FFFD for what does not, and says in
a diagnostic, the last one, where the first such place is.
-/

namespace DocIndex

/-- The byte that ends a line. -/
def lineFeed : UInt8 :=
  0x0A

/-- The line and the column, counted from 1 and in bytes, of the byte that follows some others. -/
def bytePosition (before : List UInt8) : Nat × Nat :=
  (before.count lineFeed + 1, (before.reverse.takeWhile (· != lineFeed)).length + 1)

/-- What is said of bytes that do not spell a text. -/
def decodingDiagnostic? (path : Path) (bytes : List UInt8) : Option String :=
  (Text.firstInvalid? bytes).map fun n =>
    let (line, column) := bytePosition (bytes.take n)
    diagnostic path { line, column, offset := n } "warning"
      "invalid UTF-8, decoded with replacement characters"

/-- Reads bytes as the file at `path`. -/
def parseBytes (path : Path) (bytes : List UInt8) (args : List String) : SourceUnit :=
  let u := parseText path (Text.decodeLossy bytes) args
  { u with diagnostics := u.diagnostics ++ (decodingDiagnostic? path bytes).toList }

end DocIndex
