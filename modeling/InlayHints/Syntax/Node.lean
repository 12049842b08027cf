import InlayHints.Syntax.Site.Neighbor

/-!
# Nodes of given kinds

`NodeSite p` are the sites of nodes whose kind satisfies `p`.  The constructs of the language
are such types, and their parts are looked up among the children: a part is the first child of
its kind, and it is missing where the text has faults.
-/

namespace InlayHints

/-- Whether a node kind is `k`. -/
def NodeKind.is (k : NodeKind) : NodeKind → Bool := fun l => l = k

/-- A site of a node whose kind satisfies `p`. -/
structure NodeSite (p : NodeKind → Bool) where
  site : Site
  isKind : site.tree.nodeKind?.any p = true

namespace NodeSite

variable {p : NodeKind → Bool}

/-- The site as one of a node whose kind satisfies `p`, `none` if it is not. -/
def ofSite? (p : NodeKind → Bool) (s : Site) : Option (NodeSite p) :=
  if h : s.tree.nodeKind?.any p = true then some ⟨s, h⟩ else none

/-- The offset a node starts at. -/
def start (n : NodeSite p) : Nat := n.site.start

/-- The offset a node ends at. -/
def stop (n : NodeSite p) : Nat := n.site.stop

/-- The text a node covers, trivia inside it included. -/
def text (n : NodeSite p) : String := n.site.text

/-- The first token of a node other than trivia. -/
def firstToken? (n : NodeSite p) : Option Leaf := n.site.firstSignificant?

/-- The last token of a node other than trivia. -/
def lastToken? (n : NodeSite p) : Option Leaf := n.site.lastSignificant?

theorem site_of_ofSite? {s : Site} {n : NodeSite p} (h : ofSite? p s = some n) :
  n.site = s
  := by
  unfold ofSite? at h
  split at h
  · simp only [Option.some.injEq] at h
    rw [← h]
  · contradiction

end NodeSite

namespace Site

/-- The children that are nodes whose kind satisfies `p`. -/
def childrenOf (p : NodeKind → Bool) (s : Site) : List (NodeSite p) :=
  s.elements.filterMap (NodeSite.ofSite? p)

/-- The first child that is a node whose kind satisfies `p`. -/
def childOf? (p : NodeKind → Bool) (s : Site) : Option (NodeSite p) :=
  s.elements.findSome? (NodeSite.ofSite? p)

end Site

end InlayHints
