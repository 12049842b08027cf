import Mathlib
import InlayHints.Hint.Request
import InlayHints.Proofs.Hint.Selection
import InlayHints.Proofs.Syntax.OwnTokens
import InlayHints.Proofs.Syntax.Site.Parts
import InlayHints.Proofs.Syntax.Lossless

/-!
# What a request covers

A request visits the nodes inside its range, with an exception: a node whose range is exactly
the range asked for may be passed by on the way to the smallest nodes.  This happens only to
nodes without tokens of their own, so a request for a whole file visits all declarations and
all calls of builtins, and all calls of functions but one that is all there is in the file.
-/

namespace InlayHints

namespace Site

variable {s e n : Site} {r : TextRange}

/-- A token among the children is among the tokens of a site. -/
theorem exists_ownToken {t : Token} (ht : .token t ∈ s.tree.children) :
  ∃ l ∈ s.ownTokens, l.token = t
  := by
  rw [← map_tree_elements, List.mem_map] at ht
  obtain ⟨e, he, htoken⟩ := ht
  use ⟨e.start, t, e.path⟩
  constructor
  · apply List.mem_filterMap.mpr ⟨e, he, _⟩
    rw [leaf?, htoken]
  · rfl

theorem sizeOf_tree_le_of_mem_descendants (h : n ∈ s.descendants) :
  sizeOf n.tree ≤ sizeOf s.tree
  := by
  have hstep : ∀ {d e : Site}, sizeOf d.tree ≤ sizeOf s.tree → e ∈ d.elements →
      sizeOf e.tree ≤ sizeOf s.tree := by
    intro d e hd he
    have := sizeOf_tree_lt he
    omega
  apply forall_descendants (P := fun d => sizeOf d.tree ≤ sizeOf s.tree) hstep (Nat.le_refl _) n h

/-- A node does not lie below what lies below it. -/
theorem not_mem_of_below {below : List Site}
    (h : ∀ s ∈ below, ∃ e ∈ n.elements, s ∈ e.descendants) :
  n ∉ below.flatMap descendants
  := by
  intro hn
  obtain ⟨s, hs, hn⟩ := List.mem_flatMap.mp hn
  obtain ⟨e, he, hs⟩ := h s hs
  have hle₁ := sizeOf_tree_le_of_mem_descendants hn
  have hle₂ := sizeOf_tree_le_of_mem_descendants hs
  have hlt := sizeOf_tree_lt he
  omega

/-! ### The way down -/

/-- The way goes on to the only child that the range touches. -/
theorem smallest_of_singleton (hown : s.touchesOwnToken r = false) (he : s.touched r = [e])
    (hin : e.range.contains r = true) :
  s.smallest r = e.smallest r
  := by
  rw [smallest, if_neg (Bool.eq_false_iff.mp hown)]
  split
  · next hnil =>
    rw [he] at hnil
    contradiction
  · next c hc =>
    obtain rfl : e = c := by simpa [he] using hc
    rw [if_pos hin]
  · next hmany => apply absurd he (hmany e)

/-- The way ends where the range touches several children. -/
theorem smallest_of_several (hown : s.touchesOwnToken r = false)
    (hmany : 1 < (s.touched r).length) :
  s.smallest r = s.touched r
  := by
  rw [smallest, if_neg (Bool.eq_false_iff.mp hown)]
  split
  · next hnil => simp [hnil] at hmany
  · next hc => simp [hc] at hmany
  · rfl

/-- What is found on the way from a file over the children to the grandchildren that the range
touches: which of them the range lies in, and whether it touches their tokens. -/
def wayDown (file : Site) (r : TextRange) :
    List (Bool × Bool × List (Kind × TextRange × Bool × Nat)) :=
  (file.touched r).map fun s =>
    (s.range.contains r, s.touchesOwnToken r, (s.touched r).map fun n =>
      (n.kind, n.range, n.touchesOwnToken r, (n.touched r).length))

/-- A node on the way is not visited if its range is the range asked for and the range touches
several of its children, but no token of its own. -/
theorem exists_not_visited {file : Site} {kind : Kind} {count : Nat} (hcount : 1 < count)
    (h : wayDown file r = [(true, false, [(kind, r, false, count)])]) :
  ∃ n ∈ file.descendants, n.kind = kind ∧ r.contains n.range = true
    ∧ n ∉ (file.selected r).flatMap descendants
  := by
  obtain ⟨s, hs, hfound⟩ := List.map_eq_singleton_iff.mp h
  simp only [Prod.mk.injEq] at hfound
  obtain ⟨hin, hown, hfound⟩ := hfound
  obtain ⟨n, hn, hfound⟩ := List.map_eq_singleton_iff.mp hfound
  simp only [Prod.mk.injEq] at hfound
  obtain ⟨rfl, hrange, hown', rfl⟩ := hfound
  have hselected : file.selected r = n.touched r := by
    have hin' : n.range.contains r = true := by
      rw [hrange]
      apply TextRange.contains_refl
    rw [selected, hs]
    simp only
    rw [if_pos hin, smallest_of_singleton hown hn hin', smallest_of_several hown' hcount]
  have hmem : s ∈ file.touched r := by
    rw [hs]
    apply List.mem_cons_self
  have hmem' : n ∈ s.touched r := by
    rw [hn]
    apply List.mem_cons_self
  use n
  refine ⟨?_, rfl, ?_, ?_⟩
  · apply mem_descendants_of_element (mem_elements_of_touched hmem)
    apply mem_descendants_of_touched hmem'
  · rw [hrange]
    apply TextRange.contains_refl
  · rw [hselected]
    apply not_mem_of_below below_of_touched

end Site

namespace SourceFile

/-- The site of a file lies in the range of the file. -/
theorem contains_range_root (text : String) :
  (ofText text).range.contains (ofText text).root.range = true
  := by
  have hwidth : (ofText text).root.tree.width ≤ text.utf8ByteSize := by
    obtain ⟨rest, hrest⟩ := Parse.prefix_tokens_ofText text
    rw [Tree.width_eq, ← Token.totalWidth_pieces, ← hrest, Token.totalWidth_append]
    apply Nat.le_add_right
  apply TextRange.contains_iff.mpr
  use Nat.le_refl 0
  apply Nat.add_le_add_left hwidth

/-- Declarations of constants and variables and calls of builtins in a file are never passed
by, since they have tokens of their own. -/
theorem not_passedBy {text : String} {n : Site} (hn : n ∈ (ofText text).root.descendants)
    {kind : NodeKind} (hkind : n.kind = .node kind) (hmarked : kind.isMarked = true)
    {r : TextRange} {selected : List Site} :
  ¬ Site.PassedBy r selected n
  := by
  intro h
  have hshaped := Site.shaped_descendants
    (Parse.shaped_ofText Construct.shaped_ofTokens text) n hn
  obtain ⟨t, htrivia, ht⟩ := Site.fits_of_shaped hshaped hkind hmarked
  obtain ⟨l, hl, rfl⟩ := Site.exists_ownToken ht
  have htrue := h.ownTokens l hl
  rw [Leaf.isTrivia, htrivia] at htrue
  contradiction

end SourceFile

section

variable {text : String} {range : TextRange} {n : Site}

/-- A node inside the range of a request is visited exactly if it is not passed by. -/
theorem mem_visitedSites_iff (hn : n ∈ (SourceFile.ofText text).root.descendants)
    (hne : n ≠ (SourceFile.ofText text).root) (hnode : n.isNode = true)
    (hin : range.contains n.range = true) :
  n ∈ visitedSites (.ofText text) range
    ↔ ¬ Site.PassedBy range ((SourceFile.ofText text).root.selected range) n
  := by
  constructor
  · intro hvisited hpassed
    apply Site.not_mem_of_below hpassed.below hvisited
  · intro hpassed
    apply (Site.visited_of_selected hn hne hnode hin).resolve_right hpassed

/-- A request for a whole file visits a node that is not passed by. -/
theorem mem_visitedSites_range (hn : n ∈ (SourceFile.ofText text).root.descendants)
    {kind : NodeKind} (hkind : n.kind = .node kind) (hfile : kind ≠ .sourceFile)
    (hpassed : ¬ Site.PassedBy (SourceFile.ofText text).range
      ((SourceFile.ofText text).root.selected (SourceFile.ofText text).range) n) :
  n ∈ visitedSites (.ofText text) (SourceFile.ofText text).range
  := by
  have hnode : n.isNode = true := by
    rw [Site.kind] at hkind
    rw [Site.isNode]
    cases htree : n.tree with
    | token t =>
      rw [htree] at hkind
      contradiction
    | node k cs => rfl
  have hne : n ≠ (SourceFile.ofText text).root := by
    intro heq
    rw [heq, SourceFile.kind_root] at hkind
    apply hfile (Kind.node.inj hkind).symm
  apply (mem_visitedSites_iff hn hne hnode _).mpr hpassed
  apply TextRange.contains_trans (SourceFile.contains_range_root text)
  apply Site.contains_range_of_mem_descendants n hn

end

/-- A request visits the nodes inside its range, the file itself apart, exactly if they are not
passed by.  In particular a request for a whole file visits every declaration of a constant or
variable, every call of a builtin, and every call of a function that is not the whole file. -/
theorem visitedSites_cover (text : String) :
  (∀ range, ∀ n ∈ (SourceFile.ofText text).root.descendants,
      n ≠ (SourceFile.ofText text).root → n.isNode = true → range.contains n.range = true →
      (n ∈ visitedSites (.ofText text) range
        ↔ ¬ Site.PassedBy range ((SourceFile.ofText text).root.selected range) n))
    ∧ ∀ n ∈ (SourceFile.ofText text).root.descendants,
      n.kind = .node .varDecl ∨ n.kind = .node .builtinCall
        ∨ n.kind = .node .callExpr ∧ n.range ≠ (SourceFile.ofText text).range →
      n ∈ visitedSites (.ofText text) (SourceFile.ofText text).range
  := by
  constructor
  · intro range n hn hne hnode hin
    apply mem_visitedSites_iff hn hne hnode hin
  · intro n hn hkind
    rcases hkind with hkind | hkind | ⟨hkind, hrange⟩
    · apply mem_visitedSites_range hn hkind nofun (SourceFile.not_passedBy hn hkind rfl)
    · apply mem_visitedSites_range hn hkind nofun (SourceFile.not_passedBy hn hkind rfl)
    · apply mem_visitedSites_range hn hkind nofun
      intro hpassed
      apply hrange hpassed.range_eq

/-- A call is visited by a request for the file and by one for a range that the call is a part
of. -/
theorem visitedSites_cover_call :
  ∃ n ∈ (SourceFile.ofText "const x = foo(1, 2) ;").root.descendants,
    n.kind = .node .callExpr
      ∧ n ∈ visitedSites (.ofText "const x = foo(1, 2) ;") (.ofWidth 9 11)
      ∧ n ∈ visitedSites (.ofText "const x = foo(1, 2) ;")
        (SourceFile.ofText "const x = foo(1, 2) ;").range
  := by
  have hfound : ((SourceFile.ofText "const x = foo(1, 2) ;").root.descendants.any fun n =>
      n.kind = .node .callExpr && n.range = .ofWidth 10 9 && n.isNode) = true := by
    cbv
  obtain ⟨n, hn, hfound⟩ := List.any_eq_true.mp hfound
  simp only [Bool.and_eq_true, decide_eq_true_eq] at hfound
  obtain ⟨⟨hkind, hrange⟩, hnode⟩ := hfound
  obtain ⟨hcover, hfile⟩ := visitedSites_cover "const x = foo(1, 2) ;"
  refine ⟨n, hn, hkind, ?_, ?_⟩
  · apply (hcover (.ofWidth 9 11) n hn _ hnode _).mpr
    · intro hpassed
      have heq := hrange.symm.trans hpassed.range_eq
      contradiction
    · rintro rfl
      contradiction
    · rw [hrange]
      rfl
  · apply hfile n hn (Or.inr (Or.inr ⟨hkind, _⟩))
    rw [hrange]
    decide

/-- A call inside the range is not visited if the range is exactly that of the call, nor is a
call that is the whole file visited by a request for the file. -/
theorem visitedSites_pass_by_call :
  (∃ n ∈ (SourceFile.ofText "const x = foo(1, 2) ;").root.descendants,
      n.kind = .node .callExpr ∧ (TextRange.ofWidth 10 9).contains n.range = true
        ∧ n ∉ visitedSites (.ofText "const x = foo(1, 2) ;") (.ofWidth 10 9))
    ∧ ∃ n ∈ (SourceFile.ofText "foo(1, 2)").root.descendants,
      n.kind = .node .callExpr
        ∧ (SourceFile.ofText "foo(1, 2)").range.contains n.range = true
        ∧ n ∉ visitedSites (.ofText "foo(1, 2)") (SourceFile.ofText "foo(1, 2)").range
  := by
  constructor
  · apply Site.exists_not_visited Nat.one_lt_two
    cbv
  · apply Site.exists_not_visited Nat.one_lt_two
    cbv

end InlayHints
