import InlayHints.Hint.Selection
import InlayHints.Hint.Source
import InlayHints.Syntax.SourceFile

/-!
# Requests for hints

`inlayHints` answers a request: every node in the part of the file that the range selects is
visited, outer nodes first, and the hints of all of them are sorted and placed.  A part that is
selected gives all its hints, also those outside the range.
-/

namespace InlayHints

variable {σ Receiver : Type}

/-- The hints of a site itself, without those of the sites below it. -/
def hintsAt (sem : Semantics σ Receiver) (options : Options) (s : Site) :
    StateM σ (List RawHint) :=
  match HintSource.ofSite? s with
  | none => return []
  | some source =>
    if source.isAdmitted options.config then source.hints sem options else return []

/-- The sites that a request visits. -/
def visitedSites (file : SourceFile) (range : TextRange) : List Site :=
  (file.root.selected range).flatMap Site.descendants

/-- The hints of all visited sites, in the order of the visits. -/
def rawHints (sem : Semantics σ Receiver) (file : SourceFile) (range : TextRange)
    (options : Options) : StateM σ (List RawHint) := do
  return (← (visitedSites file range).mapM (hintsAt sem options)).flatten

/-- The hints for a range of a file. -/
def inlayHints (sem : Semantics σ Receiver) (file : SourceFile) (range : TextRange)
    (options : Options) : StateM σ (List Hint) := do
  return RawHint.place options.encoding file.text (← rawHints sem file range options)

end InlayHints
