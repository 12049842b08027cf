import InlayHints.Syntax.Parse
import InlayHints.Syntax.Site
import InlayHints.Text.Range

/-!
# Files

A file is a text together with what reading it gives.
-/

namespace InlayHints

/-- A text, its tree and its faults. -/
structure SourceFile where
  text : String
  parse : Parse

namespace SourceFile

/-- The file of a text. -/
def ofText (text : String) : SourceFile := ⟨text, .ofText text⟩

/-- The site of the whole file. -/
def root (f : SourceFile) : Site := .root f.parse.tree

/-- The range of the whole file. -/
def range (f : SourceFile) : TextRange := .ofWidth 0 f.text.utf8ByteSize

end SourceFile

end InlayHints
