import Lossless.Text.Place
import Lossless.Text.Quoted

/-!
# Source files

A text together with the path that it is known by.
-/

namespace Lossless

/-- A text and its path. -/
structure SourceFile where
  path : String
  text : String
  deriving DecidableEq, Repr

/-- A file on one line: its path and the length of its text in bytes. -/
def SourceFile.summary (f : SourceFile) : String :=
  "File \x7b path: " ++ Text.quote f.path ++ ", text_len: " ++
    toString f.text.utf8ByteSize ++ ", .. \x7d"

end Lossless
