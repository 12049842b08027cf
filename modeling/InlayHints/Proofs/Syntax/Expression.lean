import InlayHints.Proofs.Syntax.Navigation
import InlayHints.Proofs.Syntax.Schema

/-!
# Expressions start with a token

An expression is never empty, faults or not: its first part is a token or again an expression,
and no trivia stands before it.  So the walk down to its first token always finds one, at the very
start of the expression (`SourceFile.exists_firstToken`).
-/

namespace InlayHints

/-- An expression starts with a token or with an expression. -/
theorem NodeKind.starts_layout {kind : NodeKind} (h : kind.isExpr = true) :
  kind.layout.starts (fun k => k.isToken || k.isExpr) = true
  := by
  cases kind with
  | callExpr | builtinCall | fieldExpr | nameRef | literal => decide
  | parenExpr | prefixExpr | sliceType | binExpr | containerDecl | error => decide
  | _ => contradiction

namespace SourceFile

variable {text : String} {s : Site}

/-- An expression has a first element, which starts where it does and is a significant token or
again an expression. -/
theorem exists_elements_of_isExpr (hs : s ∈ (ofText text).root.descendants)
    (hkind : s.kind.isExpr = true) :
  ∃ e post, s.elements = e :: post ∧ e.start = s.start ∧ e.tree.isTrivia = false
    ∧ (e.kind.isToken = true ∨ e.kind.isExpr = true)
  := by
  obtain ⟨kind, hnode⟩ : ∃ kind, s.kind = .node kind := by
    cases hs : s.kind with
    | node kind => exact ⟨kind, rfl⟩
    | _ =>
      rw [hs] at hkind
      contradiction
  have hexpr : kind.isExpr = true := by rwa [hnode] at hkind
  have hroot : kind ≠ .sourceFile := by
    rintro rfl
    contradiction
  obtain ⟨k, rest, hparts, hk⟩ :=
    Layout.exists_cons_of_starts (NodeKind.starts_layout hexpr) (partKinds_mem hs hnode)
  have hhead := Site.head?_elements (trimmed_children hs hnode hroot)
  rw [Site.partKinds, List.map_eq_cons_iff] at hparts
  obtain ⟨e, parts, hparts, rfl, -⟩ := hparts
  rw [hparts] at hhead
  obtain ⟨post, helements⟩ := List.head?_eq_some_iff.mp hhead
  have hsplit : s.elements = [] ++ e :: post := helements
  obtain ⟨-, -, -, hstart⟩ := Site.path_of_elements hsplit
  have hpart : e ∈ s.parts := by rw [hparts]; apply List.mem_cons_self
  use e, post, helements, hstart, (Site.mem_parts.mp hpart).2
  rwa [Bool.or_eq_true] at hk

/-- The walk down to the first token of an expression finds one that is not trivia, at the start of
the expression. -/
theorem exists_firstToken {s : Site} (hs : s ∈ (ofText text).root.descendants)
    (hkind : s.kind.isExpr = true) :
  ∃ l, s.firstToken? = some l ∧ l.start = s.start ∧ l.isTrivia = false
  := by
  obtain ⟨e, post, helements, hstart, htrivia, he⟩ := exists_elements_of_isExpr hs hkind
  have hmem : e ∈ s.elements := by rw [helements]; apply List.mem_cons_self
  rw [Site.firstToken?_of_elements helements, ← hstart]
  rcases he with he | he
  · obtain ⟨start, tree, path⟩ := e
    cases tree with
    | token t => exact ⟨⟨start, t, path⟩, rfl, rfl, htrivia⟩
    | node kind cs => contradiction
  · apply exists_firstToken (Site.element_mem_descendants hs hmem) he
termination_by sizeOf s.tree
decreasing_by exact Site.sizeOf_tree_lt hmem

variable {e : Expr}

/-- The first significant token of an expression is its first leaf, at its start. -/
theorem exists_firstToken_expr (he : e.site ∈ (ofText text).root.descendants) :
  ∃ l, e.firstToken? = some l ∧ l.start = e.start ∧ e.site.leaves.head? = some l
    ∧ l.isTrivia = false
  := by
  obtain ⟨l, hl, hstart, htrivia⟩ := exists_firstToken he e.isExpr_kind
  use l
  constructor
  · rw [NodeSite.firstToken?, Site.firstSignificant?, hl, Option.bind_some, if_neg]
    rw [htrivia]
    apply Bool.false_ne_true
  · use hstart, (Site.reaches_firstToken he).sound l hl, htrivia

/-- Tokens and expressions are not empty. -/
theorem start_lt_stop (hs : s ∈ (ofText text).root.descendants)
    (hkind : s.kind.isToken = true ∨ s.kind.isExpr = true) :
  s.start < s.stop
  := by
  obtain ⟨l, hl⟩ : ∃ l, l ∈ s.leaves := by
    rcases hkind with hkind | hkind
    · cases htree : s.tree with
      | token t =>
        rw [Site.leaves_of_token htree]
        exact ⟨_, List.mem_cons_self⟩
      | node kind cs =>
        rw [Site.kind, htree] at hkind
        contradiction
    · obtain ⟨l, hl, -⟩ := exists_firstToken hs hkind
      exact ⟨l, List.mem_of_head? ((Site.reaches_firstToken hs).sound l hl)⟩
  have hbounds := Site.bounds_of_mem_leaves hl
  have := width_pos_of_mem_leaves (Site.leaves_subset hs hl)
  rw [Leaf.stop] at hbounds
  omega

end SourceFile

end InlayHints
