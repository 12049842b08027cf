import InlayHints.Syntax.Site
import InlayHints.Text.Range

/-!
# The part of a file that a range selects

A range selects the smallest nodes that it touches.  From the file on one goes down as long as
the range touches just one child, lies in it as a whole, and touches no token of the node
itself.  Where this ends, the children that the range touches are selected, or the node itself
if the range touches one of its tokens or none of its children.  The file itself is never
selected.
-/

namespace InlayHints

namespace Leaf

/-- The range of a token. -/
def range (l : Leaf) : TextRange := .ofWidth l.start l.token.width

end Leaf

namespace Site

/-- The range of a site. -/
def range (s : Site) : TextRange := .ofWidth s.start s.tree.width

/-- The nodes among the children that touch a range. -/
def touched (s : Site) (r : TextRange) : List Site := s.nodes.filter (·.range.touches r)

/-- Whether a range touches a token, other than trivia, among the children. -/
def touchesOwnToken (s : Site) (r : TextRange) : Bool :=
  s.ownTokens.any fun l => !l.isTrivia && l.range.touches r

theorem sizeOf_tree_lt_of_touched {s c : Site} {r : TextRange} {cs : List Site}
    (h : s.touched r = c :: cs) :
  sizeOf c.tree < sizeOf s.tree
  := by
  have hmem : c ∈ s.touched r := by simp [h]
  apply sizeOf_tree_lt
  apply (List.mem_filter.1 (List.mem_filter.1 hmem).1).1

/-- The smallest nodes in or at a node, which the range lies in. -/
def smallest (s : Site) (r : TextRange) : List Site :=
  if s.touchesOwnToken r then [s]
  else
    match _h : s.touched r with
    | [] => [s]
    | [c] => if c.range.contains r then c.smallest r else [c]
    | cs => cs
termination_by sizeOf s.tree
decreasing_by exact sizeOf_tree_lt_of_touched _h

/-- The nodes below a file that a range selects. -/
def selected (file : Site) (r : TextRange) : List Site :=
  match file.touched r with
  | [] => []
  | [c] => if c.range.contains r then c.smallest r else [c]
  | cs => cs

end Site

end InlayHints
