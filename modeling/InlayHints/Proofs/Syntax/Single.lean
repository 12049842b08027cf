import InlayHints.Proofs.Hint.Redundancy
import InlayHints.Proofs.Syntax.OwnTokens

/-!
# Expressions of one token

Every part of an expression holds a token that means something, with or without faults: tokens and
expressions do, declarations and fields have keywords and names of their own, and arguments are
read only where a parenthesis opens them (`Parse.opened_ofTokens`).  So empty nodes stand deep
inside of expressions with other tokens around them.  An expression with one significant token
ends with this token or with trivia that follows it, the walks to its first and its last token end
at the same one, and so it is recognised (`SourceFile.isSingleToken_expr`).
-/

namespace InlayHints

/-! ### Arguments start with a parenthesis -/

/-- The arguments of a call have a token of their own. -/
def NodeKind.Opened (kind : NodeKind) (cs : List Tree) : Prop :=
  kind = .argList → Tree.HasToken cs

namespace Construct

open Rule

variable {levels : Nat} {Ahead : Lookahead → Prop}

/-- Rules without arguments need no attention. -/
theorem opened_of_builds {r : Rule Symbol} (hr : r.builds (decide <| · ≠ .argList) = true) :
  r.Shapes NodeKind.Opened (grammar.read levels) Ahead
  := by
  apply shapes_of_builds _ hr
  intro kind hkind cs h
  apply absurd h (of_decide_eq_true hkind)

/-- Arguments are read where a parenthesis is the next token. -/
theorem opened_argumentList (hahead : ∀ a, Ahead a → a.isAt .lParen = true) :
  argumentList.Shapes NodeKind.Opened (grammar.read levels) Ahead
  := by
  apply And.intro _ (opened_of_builds rfl)
  intro s hs _ _
  have hopen := hahead _ hs
  apply hasToken_of_opens ((opens_expect hopen).andThen rfl) (Lookahead.first_ne_none_of_isAt hopen)

theorem opened_primary :
  primary.Shapes NodeKind.Opened (grammar.read levels) Ahead
  := by
  refine ⟨opened_of_builds rfl, opened_of_builds rfl, ⟨nofun, opened_of_builds rfl, ?_,
    opened_of_builds rfl⟩, opened_of_builds rfl⟩
  apply opened_argumentList
  intro a ha
  apply ha.2

theorem opened_grammar (levels : Nat) (symbol : Symbol) :
  (grammar symbol).Shapes NodeKind.Opened (grammar.read levels) fun _ => True
  := by
  cases symbol with
  | expression power => apply opened_of_builds rfl
  | block => apply opened_of_builds rfl
  | operand =>
    refine ⟨opened_of_builds rfl, opened_of_builds rfl, opened_of_builds rfl, opened_primary,
      ⟨nofun, ?_⟩, opened_of_builds rfl⟩
    apply opened_argumentList
    intro a ha
    apply ha.2

end Construct

/-- In the tree of any text, arguments have a token of their own. -/
theorem Parse.opened_ofTokens (ts : List Token) :
  (ofTokens ts).tree.Shaped NodeKind.Opened
  := by
  have hread := Grammar.shaped_read (fun _ => nofun) Construct.opened_grammar nestingLimit
  have hstart : (State.start ts).Shaped NodeKind.Opened := List.forall_mem_nil _
  have hfile : Construct.file.Shapes NodeKind.Opened (Construct.grammar.read nestingLimit)
      fun _ => True := Construct.opened_of_builds rfl
  apply (Rule.shaped_run hread hfile trivial hstart).flush.node
  nofun

/-! ### Parts of expressions -/

/-- What may be a part of an expression: tokens and expressions, and nodes that have a token of
their own. -/
def Kind.isMeaningful (k : Kind) : Bool :=
  k.isToken || k.isExpr
    || k ∈ [.node .argList, .node .fnDecl, .node .varDecl, .node .containerField]

theorem NodeKind.only_meaningful {kind : NodeKind} (h : kind.isExpr = true) :
  kind.layout.only Kind.isMeaningful = true
  := by
  cases kind with
  | callExpr | builtinCall | fieldExpr | nameRef | literal => decide
  | parenExpr | prefixExpr | sliceType | binExpr | containerDecl | error => decide
  | _ => contradiction

namespace SourceFile

variable {text : String} {s : Site}

/-- A token among the parts of a node is one of its own tokens. -/
theorem hasToken_of_mem_partKinds {k : Kind} (hk : k ∈ s.partKinds) (htoken : k.isToken = true) :
  Tree.HasToken s.tree.children
  := by
  obtain ⟨e, he, rfl⟩ := List.mem_map.mp hk
  obtain ⟨hmem, htrivia⟩ := Site.mem_parts.mp he
  rw [Site.kind] at htoken
  have hchild := Site.tree_mem_children hmem
  cases htree : e.tree with
  | token t =>
    rw [htree] at hchild htrivia
    exact ⟨t, htrivia, hchild⟩
  | node kind cs =>
    rw [htree] at htoken
    contradiction

/-- A node with a token of its own holds a significant token. -/
theorem exists_leaf_of_hasToken (h : Tree.HasToken s.tree.children) :
  ∃ l ∈ s.leaves, l.isTrivia = false
  := by
  obtain ⟨t, htrivia, hchild⟩ := h
  rw [← Site.map_tree_elements] at hchild
  obtain ⟨e, he, htree⟩ := List.mem_map.mp hchild
  obtain ⟨l, rfl, rfl⟩ := Site.exists_leaf_of_tree htree
  use l
  constructor
  · apply Site.leaves_subset (Site.mem_descendants_of_element he (Site.self_mem_descendants _))
    rw [Site.leaves_site]
    apply List.mem_singleton_self
  · apply htrivia

/-- What may be a part of an expression holds a significant token, unless it is trivia. -/
theorem exists_leaf_of_isMeaningful (hs : s ∈ (ofText text).root.descendants)
    (hkind : s.kind.isMeaningful = true) (htrivia : s.tree.isTrivia = false) :
  ∃ l ∈ s.leaves, l.isTrivia = false
  := by
  rw [Kind.isMeaningful, Bool.or_eq_true, Bool.or_eq_true] at hkind
  rcases hkind with (hkind | hkind) | hkind
  · cases htree : s.tree with
    | token t =>
      obtain ⟨l, rfl, rfl⟩ := Site.exists_leaf_of_tree htree
      use l
      rw [Site.leaves_site]
      use List.mem_singleton_self l, htrivia
    | node kind cs =>
      rw [Site.kind, htree] at hkind
      contradiction
  · obtain ⟨l, hl, -, htrivia⟩ := exists_firstToken hs hkind
    use l, List.mem_of_head? ((Site.reaches_firstToken hs).sound l hl), htrivia
  · apply exists_leaf_of_hasToken
    have hopened := Site.shaped_descendants
      (Parse.shaped_ofText Parse.opened_ofTokens text) s hs
    have hlayout : ∀ kind, s.kind = .node kind → kind.layout.atLeastOnce Kind.isToken = true →
        Tree.HasToken s.tree.children := by
      intro kind hkind hleast
      obtain ⟨k, hk, htoken⟩ := Layout.exists_of_atLeastOnce hleast (partKinds_mem hs hkind)
      apply hasToken_of_mem_partKinds hk htoken
    simp only [decide_eq_true_eq, List.mem_cons, List.not_mem_nil, or_false] at hkind
    rcases hkind with hkind | hkind | hkind | hkind
    · apply Site.fits_of_shaped hopened hkind rfl
    · apply hlayout _ hkind (by decide)
    · apply hlayout _ hkind (by decide)
    · apply hlayout _ hkind (by decide)

/-- The parts of an expression hold significant tokens. -/
theorem exists_leaf_of_part (hs : s ∈ (ofText text).root.descendants)
    (hkind : s.kind.isExpr = true) {e : Site} (he : e ∈ s.parts) :
  ∃ l ∈ e.leaves, l.isTrivia = false
  := by
  obtain ⟨hmem, htrivia⟩ := Site.mem_parts.mp he
  cases hnode : s.kind with
  | node kind =>
    rw [hnode] at hkind
    have honly := NodeKind.only_meaningful hkind
    have hpart := Layout.forall_of_only honly (partKinds_mem hs hnode) _ (Site.mem_partKinds he)
    apply exists_leaf_of_isMeaningful (Site.element_mem_descendants hs hmem) hpart htrivia
  | _ =>
    rw [hnode] at hkind
    contradiction

/-! ### Recognising single tokens -/

theorem length_significant_pos {ls : List Leaf} (h : ∃ l ∈ ls, l.isTrivia = false) :
  0 < (Leaf.significant ls).length
  := by
  obtain ⟨l, hl, htrivia⟩ := h
  apply List.length_pos_of_mem (a := l)
  rw [Leaf.significant, List.mem_filter, htrivia]
  exact ⟨hl, rfl⟩

/-- An expression with one significant token ends with it, or with trivia after it. -/
theorem endsInToken_of_length {s : Site} (hs : s ∈ (ofText text).root.descendants)
    (hkind : s.kind.isExpr = true) (hlength : (Leaf.significant s.leaves).length = 1) :
  s.tree.EndsInToken
  := by
  obtain ⟨e, post, helements, -, htrivia, he⟩ := exists_elements_of_isExpr hs hkind
  have hmem : ∀ d ∈ post, d ∈ s.elements := fun d hd => by
    rw [helements]
    apply List.mem_cons_of_mem e hd
  have hmem₁ : e ∈ s.elements := by rw [helements]; apply List.mem_cons_self
  have hsplit : s.elements = [] ++ e :: post := helements
  obtain ⟨kind, htree, -⟩ := Site.path_of_elements hsplit
  rw [Site.leaves_of_elements hsplit, List.flatMap_nil, List.nil_append,
    Leaf.significant_append, List.length_append] at hlength
  have hfirst := length_significant_pos
    (exists_leaf_of_part hs hkind (Site.mem_parts.mpr ⟨hmem₁, htrivia⟩))
  rw [htree, Tree.endsInToken_node]
  rcases List.eq_nil_or_concat post with rfl | ⟨pre, d, rfl⟩
  · -- the first part is the last one and has the only token
    use e.tree, rfl
    rcases he with he | he
    · cases htoken : e.tree with
      | token t => apply Tree.EndsInToken.token
      | node k cs =>
        rw [Site.kind, htoken] at he
        contradiction
    · apply endsInToken_of_length (Site.element_mem_descendants hs hmem₁) he
      rw [List.flatMap_nil, Leaf.significant_nil, List.length_nil] at hlength
      omega
  · -- the first part has the only token, and what comes last can only be trivia
    rw [List.concat_eq_append] at hlength hmem ⊢
    use d.tree
    constructor
    · rw [List.map_append, List.map_singleton, List.map_nil, List.nil_append, ← List.cons_append,
        List.getLast?_concat]
    cases hd : d.tree with
    | token t => apply Tree.EndsInToken.token
    | node k cs =>
      have hpart : d ∈ s.parts :=
        Site.mem_parts.mpr ⟨hmem d (by simp), by rw [hd]; rfl⟩
      have hlast := length_significant_pos (exists_leaf_of_part hs hkind hpart)
      rw [List.flatMap_append, List.flatMap_singleton, Leaf.significant_append,
        List.length_append] at hlength
      omega
termination_by sizeOf s.tree
decreasing_by exact Site.sizeOf_tree_lt hmem₁

/-- The first token of an expression is its first leaf, where the expression starts, and an
expression counts as a single token just if it has exactly one significant token. -/
theorem isSingleToken_expr {e : Expr} (he : e.site ∈ (ofText text).root.descendants) :
  (∃ first, e.firstToken? = some first ∧ e.site.leaves.head? = some first
      ∧ first.start = e.start)
    ∧ (e.isSingleToken = true ↔ (Leaf.significant e.site.leaves).length = 1)
  := by
  constructor
  · obtain ⟨first, hfirst, hstart, hhead, -⟩ := exists_firstToken_expr he
    use first, hfirst, hhead, hstart
  · cases hlast : e.lastToken? with
    | some l => apply isSingleToken_iff he hlast
    | none =>
      constructor
      · intro hsingle
        rw [Expr.isSingleToken, hlast] at hsingle
        cases hfirst : e.firstToken? with
        | none =>
          rw [hfirst] at hsingle
          contradiction
        | some first =>
          rw [hfirst] at hsingle
          contradiction
      · intro hlength
        have hends := endsInToken_of_length he e.isExpr_kind hlength
        have hne : Leaf.significant e.site.leaves ≠ [] := by
          intro hnil
          rw [hnil] at hlength
          contradiction
        have hfound := (lastToken?_expr_eq_some_iff he).mpr
          ⟨hends, List.getLast?_eq_some_getLast hne⟩
        rw [hlast] at hfound
        contradiction

/-- A sign before a missing operand is a single token, although a blank follows it. -/
theorem isSingleToken_expr_unfinished :
  ∃ e : Expr, e.site ∈ (ofText "f(- )").root.descendants ∧ e.text = "- "
    ∧ e.site.kind = .node .prefixExpr ∧ e.isSingleToken = true
  := by
  have hfound : ((ofText "f(- )").root.descendants.any fun s =>
      decide (s.kind = .node .prefixExpr ∧ s.text = "- "
        ∧ (Leaf.significant s.leaves).length = 1)) = true := by
    cbv
  obtain ⟨s, hs, hfound⟩ := List.any_eq_true.mp hfound
  obtain ⟨hkind, htext, hlength⟩ := of_decide_eq_true hfound
  obtain ⟨e, rfl⟩ : ∃ e : Expr, e.site = s := by
    apply Site.exists_node
    rw [hkind]
    rfl
  exact ⟨e, hs, htext, hkind, (isSingleToken_expr hs).2.mpr hlength⟩

end SourceFile

end InlayHints
