import InlayHints.Syntax.Tree

/-!
# Sites

A site is a tree together with its place in a larger tree: the offset it starts at, and the
path to the root, which keeps the siblings on both sides at every level.  So a site knows
what stands before and after it, and the whole tree can be rebuilt from any of its sites.
`Site.elements` are the sites of the children, `Site.descendants` all sites below and
including a site, in the order in which they start, outer ones first.
-/

namespace InlayHints

/-- One level of a path to the root: the kind of the node there, and the siblings before and
after the place the path comes from.  The siblings before it are listed nearest first. -/
structure Frame where
  kind : NodeKind
  before : List Tree
  after : List Tree
deriving DecidableEq

/-- The node of a frame, with `t` at the place the path comes from. -/
def Frame.plug (f : Frame) (t : Tree) : Tree := .node f.kind (f.before.reverseAux (t :: f.after))

/-- A tree and its place. -/
structure Site where
  start : Nat
  tree : Tree
  path : List Frame
deriving DecidableEq

/-- A token and its place. -/
structure Leaf where
  start : Nat
  token : Token
  path : List Frame
deriving DecidableEq

namespace Leaf

/-- The offset a token ends at. -/
def stop (l : Leaf) : Nat := l.start + l.token.width

/-- The kind of the token. -/
def kind (l : Leaf) : TokenKind := l.token.kind

/-- The text of the token. -/
def text (l : Leaf) : String := l.token.text

/-- Whitespace and comments. -/
def isTrivia (l : Leaf) : Bool := l.token.isTrivia

end Leaf

namespace Site

/-- The site of a whole tree. -/
def root (t : Tree) : Site := ⟨0, t, []⟩

/-- The offset a site ends at. -/
def stop (s : Site) : Nat := s.start + s.tree.width

/-- How many nodes are around a site. -/
def depth (s : Site) : Nat := s.path.length

/-- What stands at a site. -/
def kind (s : Site) : Kind := s.tree.kind

/-- The text a site covers. -/
def text (s : Site) : String := s.tree.text

/-- The site as the place of a token, `none` for a node. -/
def leaf? (s : Site) : Option Leaf :=
  match s.tree with
  | .token t => some ⟨s.start, t, s.path⟩
  | .node _ _ => none

/-- Whether a node stands at a site. -/
def isNode (s : Site) : Bool := s.tree.nodeKind?.isSome

/-- The sites of the trees `cs`, which stand side by side from `start` on after the siblings
`before`; they are put behind the sites `done`, which are listed last first. -/
def spread (kind : NodeKind) (path : List Frame) (start : Nat) (before : List Tree)
    (done : List Site) : List Tree → List Site
  | [] => done.reverse
  | c :: cs =>
    spread kind path (start + c.width) (c :: before)
      (⟨start, c, ⟨kind, before, cs⟩ :: path⟩ :: done) cs

/-- The sites of the children, from left to right. -/
def elements (s : Site) : List Site :=
  match s.tree with
  | .token _ => []
  | .node kind cs => spread kind s.path s.start [] [] cs

theorem mem_of_mem_spread {kind : NodeKind} {path : List Frame} {start : Nat}
    {before : List Tree} {done : List Site} {cs : List Tree} {e : Site}
    (h : e ∈ spread kind path start before done cs) :
  e ∈ done ∨ e.tree ∈ cs
  := by
  induction cs generalizing start before done with
  | nil =>
    left
    simpa [spread] using h
  | cons c cs ih =>
    rcases ih (show e ∈ spread _ _ _ _ _ cs from h) with hdone | hcs
    · rcases List.mem_cons.1 hdone with rfl | hdone
      · right
        simp
      · left
        exact hdone
    · right
      apply List.mem_cons_of_mem _ hcs

theorem tree_mem_children {s e : Site} (h : e ∈ s.elements) :
  e.tree ∈ s.tree.children
  := by
  unfold elements at h
  split at h
  · simp at h
  · next kind cs heq =>
    simpa [heq, Tree.children] using mem_of_mem_spread h

theorem sizeOf_tree_lt {s e : Site} (h : e ∈ s.elements) :
  sizeOf e.tree < sizeOf s.tree
  := Tree.sizeOf_lt_of_mem_children (tree_mem_children h)

/-- Puts a site and all sites below it in front of the sites `done`, the last one first. -/
def collect (s : Site) (done : List Site) : List Site :=
  s.elements.attach.foldl (fun done e => e.val.collect done) (s :: done)
termination_by sizeOf s.tree
decreasing_by exact sizeOf_tree_lt e.property

/-- A site and all sites below it; each site comes before those below it, and these come from
left to right. -/
def descendants (s : Site) : List Site := (s.collect []).reverse

theorem collect_eq (s : Site) (done : List Site) :
  s.collect done = s.elements.foldl (fun done e => e.collect done) (s :: done)
  := by
  rw [collect]
  exact List.foldl_attach (f := fun (done : List Site) (e : Site) => e.collect done)

theorem foldl_collect (es done : List Site)
    (h : ∀ e ∈ es, ∀ done, e.collect done = e.descendants.reverse ++ done) :
  es.foldl (fun done e => e.collect done) done = (es.flatMap descendants).reverse ++ done
  := by
  induction es generalizing done with
  | nil => simp
  | cons e es ih =>
    rw [List.foldl_cons, h e (by simp), ih]
    · simp
    · intro e' he'
      apply h e' (by simp [he'])

theorem collect_eq_append (s : Site) (done : List Site) :
  s.collect done = s.descendants.reverse ++ done
  := by
  have key (d : List Site) :
      s.collect d = (s.elements.flatMap descendants).reverse ++ s :: d := by
    rw [collect_eq]
    apply foldl_collect
    intro e he done
    apply collect_eq_append
  rw [descendants, key, key]
  simp
termination_by sizeOf s.tree
decreasing_by exact sizeOf_tree_lt he

/-- A site comes first, and then come the descendants of its children. -/
theorem descendants_eq (s : Site) :
  s.descendants = s :: s.elements.flatMap descendants
  := by
  rw [descendants, collect_eq, foldl_collect]
  · simp
  · intro e _ done
    apply collect_eq_append

/-- The sites of the children that are nodes. -/
def nodes (s : Site) : List Site := s.elements.filter isNode

/-- The tokens that are children. -/
def ownTokens (s : Site) : List Leaf := s.elements.filterMap leaf?

/-- The first child that is a token of kind `k`. -/
def ownToken? (k : TokenKind) (s : Site) : Option Leaf := s.ownTokens.find? (·.kind = k)

end Site

end InlayHints
