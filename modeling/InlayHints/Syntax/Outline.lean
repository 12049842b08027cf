import InlayHints.Syntax.Tree

/-!
# Outlines

The outline of a tree lists its elements from left to right, each one before those inside it,
with depth, kind and extent.  `Outline.Summary` condenses an outline into a few numbers, by
which two large trees can be compared.
-/

namespace InlayHints

namespace Outline

/-- One element of a tree. -/
structure Entry where
  depth : Nat
  kind : Kind
  start : Nat
  stop : Nat
deriving DecidableEq

/-- Puts the elements of a tree, which stands at the given depth and offset, in front of the
entries `done`, the last one first. -/
def push (depth start : Nat) (done : List Entry) (t : Tree) : List Entry :=
  let entry : Entry := ⟨depth, t.kind, start, start + t.width⟩
  match t with
  | .token _ => entry :: done
  | .node _ cs =>
    (cs.foldl (fun (start, done) c => (start + c.width, push (depth + 1) start done c))
      (start, entry :: done)).2

/-- All elements of a tree. -/
def ofTree (t : Tree) : List Entry := (push 0 0 [] t).reverse

/-- A few numbers about an outline. -/
structure Summary where
  nodes : Nat
  tokens : Nat
  maxDepth : Nat
  checksum : Nat

/-- The modulus of checksums. -/
def modulus : Nat := 1000000007

/-- Adds a number to a checksum. -/
def mix (sum n : Nat) : Nat := (sum * 31 + n + 1) % modulus

/-- Adds an entry to a summary. -/
def Summary.add (s : Summary) (e : Entry) : Summary where
  nodes := if e.kind matches .node _ then s.nodes + 1 else s.nodes
  tokens := if e.kind matches .token _ then s.tokens + 1 else s.tokens
  maxDepth := max s.maxDepth e.depth
  checksum := [e.depth, e.kind.number, e.start, e.stop].foldl mix s.checksum

/-- The summary of an outline. -/
def summarize (es : List Entry) : Summary := es.foldl Summary.add ⟨0, 0, 0, 0⟩

/-- How often each kind occurs, without the kinds that do not. -/
def kindCounts (es : List Entry) : List (Kind × Nat) :=
  (Kind.all.map fun k => (k, es.countP (·.kind = k))).filter (0 < ·.2)

end Outline

end InlayHints
