import InlayHints.Proofs.Grammar.Parts
import InlayHints.Proofs.Syntax.Site.Placement

/-!
# Parts of sites

The parts of a site are its children other than trivia.  They stand in the order of the text
(`Site.pairwise_parts`), and what is looked up among the children of a site is found among its
parts: the first child of a kind is the first part of that kind (`Site.childOf?_of_parts`,
`Site.find_ownTokens_of_parts`).
-/

namespace InlayHints

/-- At most one member of a list satisfies a condition that is satisfied at most once. -/
theorem eq_of_countP_le_one {α : Type} {p : α → Bool} {xs : List α} {x y : α}
    (h : xs.countP p ≤ 1) (hx : x ∈ xs) (hpx : p x = true) (hy : y ∈ xs) (hpy : p y = true) :
  x = y
  := by
  obtain ⟨before, after, rfl⟩ := List.append_of_mem hx
  rw [List.countP_append, List.countP_cons_of_pos hpx] at h
  have hbefore : before.countP p = 0 := by omega
  have hafter : after.countP p = 0 := by omega
  rcases List.mem_append.mp hy with hy | hy
  · apply absurd hpy (List.countP_eq_zero.mp hbefore y hy)
  · rcases List.mem_cons.mp hy with rfl | hy
    · rfl
    · apply absurd hpy (List.countP_eq_zero.mp hafter y hy)

/-- Whether a kind is that of a node which satisfies `p`. -/
def Kind.isNode (p : NodeKind → Bool) : Kind → Bool
  | .node k => p k
  | _ => false

/-- The site of a token. -/
def Leaf.site (l : Leaf) : Site := ⟨l.start, .token l.token, l.path⟩

theorem Leaf.ext {l m : Leaf} (h : l.site = m.site) :
  l = m
  := Option.some_inj.mp (congrArg Site.leaf? h)

theorem Leaf.isTrivia_site (l : Leaf) :
  l.site.tree.isTrivia = l.kind.isTrivia
  := rfl

theorem Leaf.isTrivia_eq (l : Leaf) :
  l.isTrivia = l.kind.isTrivia
  := rfl

namespace Site

variable {s e : Site} {p : NodeKind → Bool} {n : NodeSite p} {l : Leaf}

/-! ### Tokens and nodes -/

theorem any_nodeKind? (p : NodeKind → Bool) (s : Site) :
  s.tree.nodeKind?.any p = s.kind.isNode p
  := by
  rw [kind]
  cases s.tree with
  | token t => rfl
  | node k cs => rfl

theorem exists_node (h : s.kind.isNode p = true) :
  ∃ n : NodeSite p, n.site = s
  := by
  rw [← any_nodeKind?] at h
  use ⟨s, h⟩

theorem exists_leaf_of_tree {t : Token} (h : s.tree = .token t) :
  ∃ l : Leaf, l.site = s ∧ l.token = t
  := by
  use ⟨s.start, t, s.path⟩
  rw [Leaf.site, ← h]
  exact ⟨rfl, rfl⟩

theorem exists_leaf {k : TokenKind} (h : s.kind = .token k) :
  ∃ l : Leaf, l.site = s ∧ l.kind = k
  := by
  obtain ⟨start, tree, path⟩ := s
  cases tree with
  | token t => exact ⟨⟨start, t, path⟩, rfl, Kind.token.inj h⟩
  | node k cs => contradiction

theorem site_of_leaf? (h : s.leaf? = some l) :
  l.site = s
  := by
  obtain ⟨start, tree, path⟩ := s
  cases tree with
  | token t =>
    obtain rfl := Option.some_inj.mp h
    rfl
  | node k cs => contradiction

theorem ofSite?_eq_none (h : s.kind.isNode p = false) :
  NodeSite.ofSite? p s = none
  := by
  rw [← any_nodeKind?] at h
  apply dif_neg (Bool.eq_false_iff.mp h)

end Site

namespace NodeSite

variable {p : NodeKind → Bool} {n m : NodeSite p}

theorem ext (h : n.site = m.site) :
  n = m
  := by
  obtain ⟨_, _⟩ := n
  obtain ⟨_, _⟩ := m
  obtain rfl := h
  rfl

theorem isNode_kind (n : NodeSite p) :
  n.site.kind.isNode p = true
  := by
  rw [← Site.any_nodeKind?]
  apply n.isKind

theorem ofSite?_site (n : NodeSite p) :
  ofSite? p n.site = some n
  := dif_pos n.isKind

/-- A site that is not one of a node of kind `k` has another kind. -/
theorem kind_ne_of_ofSite?_eq_none {k : NodeKind} {s : Site}
    (h : ofSite? (NodeKind.is k) s = none) :
  s.kind ≠ .node k
  := by
  intro hkind
  have hnode : s.kind.isNode (NodeKind.is k) = true := by
    rw [hkind]
    apply decide_eq_true rfl
  obtain ⟨n, rfl⟩ := Site.exists_node hnode
  rw [ofSite?_site] at h
  contradiction

theorem isNode_site (n : NodeSite p) :
  n.site.isNode = true
  := by
  have hkind := n.isKind
  rw [Site.isNode]
  cases hnode : n.site.tree.nodeKind? with
  | none =>
    rw [hnode] at hkind
    contradiction
  | some k => rfl

theorem leaf?_site (n : NodeSite p) :
  n.site.leaf? = none
  := by
  have hkind := n.isNode_kind
  cases hleaf : n.site.leaf? with
  | none => rfl
  | some l =>
    rw [← Site.site_of_leaf? hleaf] at hkind
    contradiction

theorem isTrivia_site (n : NodeSite p) :
  n.site.tree.isTrivia = false
  := by
  have hkind := n.isKind
  cases htree : n.site.tree with
  | token t =>
    rw [htree] at hkind
    contradiction
  | node k cs => rfl

end NodeSite

namespace Site

variable {s e : Site} {p : NodeKind → Bool} {n : NodeSite p} {l : Leaf}
variable {before after : List Site}

/-! ### Shapes -/

theorem fits_of_shaped {Fits : NodeKind → List Tree → Prop} (hs : s.tree.Shaped Fits)
    {kind : NodeKind} (hkind : s.kind = .node kind) :
  Fits kind s.tree.children
  := by
  rw [Site.kind] at hkind
  cases htree : s.tree with
  | token t =>
    rw [htree] at hkind
    contradiction
  | node k cs =>
    rw [htree] at hs hkind
    obtain rfl := Kind.node.inj hkind
    cases hs with
    | node hfits hchildren => apply hfits

/-- All trees below a site of a shaped tree are shaped. -/
theorem shaped_descendants {Fits : NodeKind → List Tree → Prop} (hs : s.tree.Shaped Fits) :
  ∀ d ∈ s.descendants, d.tree.Shaped Fits
  := by
  apply forall_descendants (P := fun d => d.tree.Shaped Fits) _ hs
  intro d e hd he
  have hmem := tree_mem_children he
  cases htree : d.tree with
  | token t =>
    rw [htree] at hmem
    contradiction
  | node k cs =>
    rw [htree] at hd hmem
    cases hd with
    | node hfits hchildren => apply hchildren _ hmem

/-- The same if only the children of the tree are shaped: the tree itself is left out. -/
theorem shaped_of_children {Fits : NodeKind → List Tree → Prop}
    (hs : ∀ c ∈ s.tree.children, c.Shaped Fits) {d : Site} (hd : d ∈ s.descendants)
    (hne : d ≠ s) :
  d.tree.Shaped Fits
  := by
  rw [descendants_eq] at hd
  obtain ⟨e, he, hd⟩ := List.mem_flatMap.mp ((List.mem_cons.mp hd).resolve_left hne)
  apply shaped_descendants (hs e.tree (tree_mem_children he)) d hd

/-! ### Order of children -/

/-- Trees that stand side by side do not overlap. -/
theorem pairwise_spread {kind : NodeKind} {path : List Frame} {start : Nat} {before : List Tree}
    {done : List Site} (hdone : done.reverse.Pairwise fun a b => a.stop ≤ b.start)
    (hstop : ∀ d ∈ done, d.stop ≤ start) (cs : List Tree) :
  (spread kind path start before done cs).Pairwise fun a b => a.stop ≤ b.start
  := by
  induction cs generalizing start before done with
  | nil => apply hdone
  | cons c cs ih =>
    apply ih
    · rw [List.reverse_cons, List.pairwise_append]
      refine ⟨hdone, List.pairwise_singleton _ _, ?_⟩
      intro a ha b hb
      rw [List.mem_singleton.mp hb]
      apply hstop a (List.mem_reverse.mp ha)
    · intro d hd
      rcases List.mem_cons.mp hd with rfl | hd
      · apply Nat.le_refl
      · apply Nat.le_add_right_of_le (hstop d hd)

theorem pairwise_elements (s : Site) :
  s.elements.Pairwise fun a b => a.stop ≤ b.start
  := by
  unfold elements
  split
  · apply List.Pairwise.nil
  · apply pairwise_spread List.Pairwise.nil (List.forall_mem_nil _)

/-! ### Parts -/

/-- The children other than trivia. -/
def parts (s : Site) : List Site := s.elements.filter (!·.tree.isTrivia)

/-- The kinds of the parts. -/
def partKinds (s : Site) : List Kind := s.parts.map kind

theorem partKinds_eq (s : Site) :
  s.partKinds = Tree.partKinds s.tree.children
  := by
  rw [Tree.partKinds, ← map_tree_elements, List.filter_map, List.map_map]
  rfl

theorem pairwise_parts (s : Site) :
  s.parts.Pairwise fun a b => a.stop ≤ b.start
  := s.pairwise_elements.filter _

theorem mem_parts :
  e ∈ s.parts ↔ e ∈ s.elements ∧ e.tree.isTrivia = false
  := by
  rw [parts, List.mem_filter, Bool.not_eq_true']

theorem mem_partKinds (he : e ∈ s.parts) :
  e.kind ∈ s.partKinds
  := List.mem_map_of_mem he

/-- Parts of which at most one has a kind that satisfies a condition are the same if their kinds
both do. -/
theorem eq_of_countP_partKinds {q : Kind → Bool} (h : s.partKinds.countP q ≤ 1) {a b : Site}
    (ha : a ∈ s.parts) (hqa : q a.kind = true) (hb : b ∈ s.parts) (hqb : q b.kind = true) :
  a = b
  := by
  rw [partKinds, List.countP_map] at h
  apply eq_of_countP_le_one h ha hqa hb hqb

/-- If a site does not start with trivia, its first child is its first part. -/
theorem head?_elements (h : ∀ c ∈ s.tree.children.head?, c.isTrivia = false) :
  s.elements.head? = s.parts.head?
  := by
  rw [← map_tree_elements, List.head?_map] at h
  rw [parts]
  cases hs : s.elements with
  | nil => rfl
  | cons e es =>
    rw [hs] at h
    have htrivia : e.tree.isTrivia = false := h e.tree rfl
    rw [List.filter_cons_of_pos (by rw [htrivia]; rfl)]
    rfl

/-! ### Looking up children -/

theorem childOf?_eq (p : NodeKind → Bool) (s : Site) :
  s.childOf? p = s.parts.findSome? (NodeSite.ofSite? p)
  := by
  rw [childOf?, parts]
  induction s.elements with
  | nil => rfl
  | cons e es ih =>
    cases htrivia : e.tree.isTrivia with
    | true =>
      have hnone : NodeSite.ofSite? p e = none := by
        apply Option.eq_none_iff_forall_not_mem.mpr
        intro n hn
        rw [← NodeSite.site_of_ofSite? hn, n.isTrivia_site] at htrivia
        contradiction
      rw [List.findSome?_cons, hnone, List.filter_cons_of_neg (by rw [htrivia]; nofun), ih]
    | false => rw [List.filter_cons_of_pos (by rw [htrivia]; rfl), List.findSome?_cons, ih,
        List.findSome?_cons]

/-- The first part that is a node of some kinds is found. -/
theorem childOf?_of_parts (h : s.parts = before ++ n.site :: after)
    (hbefore : ∀ e ∈ before, e.kind.isNode p = false) :
  s.childOf? p = some n
  := by
  have hnone : before.findSome? (NodeSite.ofSite? p) = none := by
    apply List.findSome?_eq_none_iff.mpr
    intro e he
    apply ofSite?_eq_none (hbefore e he)
  rw [childOf?_eq, h, List.findSome?_append, hnone, Option.none_or, List.findSome?_cons,
    n.ofSite?_site]

/-- The tokens among the parts are the tokens other than trivia. -/
theorem filterMap_parts (s : Site) :
  s.parts.filterMap leaf? = s.ownTokens.filter (!·.isTrivia)
  := by
  rw [parts, ownTokens, List.filterMap_filter, List.filter_filterMap]
  apply List.filterMap_congr
  intro e _
  cases hleaf : e.leaf? with
  | none =>
    split
    · rfl
    · rfl
  | some l =>
    obtain rfl := site_of_leaf? hleaf
    rfl

/-- Tokens that are not trivia are found among the parts. -/
theorem filter_ownTokens {q : Leaf → Bool} (hq : ∀ l, q l = true → l.isTrivia = false) :
  s.ownTokens.filter q = (s.parts.filterMap leaf?).filter q
  := by
  rw [filterMap_parts, List.filter_filter]
  apply List.filter_congr
  intro l _
  cases hl : q l with
  | true => rw [hq l hl]; rfl
  | false => rfl

theorem mem_ownTokens (h : l.site ∈ s.elements) :
  l ∈ s.ownTokens
  := List.mem_filterMap.mpr ⟨l.site, h, rfl⟩

theorem site_mem_elements (h : l ∈ s.ownTokens) :
  l.site ∈ s.elements
  := by
  obtain ⟨e, he, hleaf⟩ := List.mem_filterMap.mp h
  rw [site_of_leaf? hleaf]
  apply he

theorem site_mem_parts (h : l ∈ s.ownTokens) (htrivia : l.isTrivia = false) :
  l.site ∈ s.parts
  := mem_parts.mpr ⟨site_mem_elements h, htrivia⟩

/-- A token that is the first part is found. -/
theorem ownToken?_of_parts (h : s.parts = l.site :: after) (htrivia : l.isTrivia = false) :
  s.ownToken? l.kind = some l
  := by
  have hkind : ∀ l' : Leaf, decide (l'.kind = l.kind) = true → l'.isTrivia = false := by
    intro l' hl'
    rw [Leaf.isTrivia_eq, of_decide_eq_true hl', ← Leaf.isTrivia_eq, htrivia]
  have hleaf : l.site.leaf? = some l := rfl
  rw [ownToken?, ← List.head?_filter, filter_ownTokens hkind, List.head?_filter, h,
    List.filterMap_cons_some hleaf]
  apply List.find?_cons_of_pos
  apply decide_eq_true rfl

/-! ### Parts that are there only once -/

/-- The only token of its kind is found. -/
theorem ownToken?_of_count (h : s.partKinds.count (.token l.kind) ≤ 1) (hl : l.site ∈ s.parts) :
  s.ownToken? l.kind = some l
  := by
  have hmem : l ∈ s.ownTokens := mem_ownTokens (mem_parts.mp hl).1
  cases hfind : s.ownToken? l.kind with
  | none =>
    have hnot := List.find?_eq_none.mp hfind l hmem
    simp at hnot
  | some l' =>
    have hfound := List.find?_some hfind
    have hkind : l'.kind = l.kind := of_decide_eq_true hfound
    have htrivia : l'.isTrivia = false := by
      rw [Leaf.isTrivia_eq, hkind, ← Leaf.isTrivia_site]
      apply (mem_parts.mp hl).2
    have hsite : l'.site = l.site := by
      apply eq_of_countP_partKinds h (site_mem_parts (List.mem_of_find?_eq_some hfind) htrivia) _ hl
      · apply beq_self_eq_true
      · apply beq_of_eq (congrArg Kind.token hkind)
    rw [Leaf.ext hsite]

/-- The only node of its kinds is found among some of the children. -/
theorem findSome?_of_countP (h : s.partKinds.countP (Kind.isNode p) ≤ 1) {es : List Site}
    (hes : ∀ e ∈ es, e ∈ s.elements) (hn : n.site ∈ es) :
  es.findSome? (NodeSite.ofSite? p) = some n
  := by
  have hparts : ∀ m : NodeSite p, m.site ∈ es → m.site ∈ s.parts :=
    fun m hm => mem_parts.mpr ⟨hes _ hm, m.isTrivia_site⟩
  cases hfind : es.findSome? (NodeSite.ofSite? p) with
  | none =>
    have hnone := List.findSome?_eq_none_iff.mp hfind n.site hn
    rw [n.ofSite?_site] at hnone
    contradiction
  | some m =>
    obtain ⟨e, he, hm⟩ := List.exists_of_findSome?_eq_some hfind
    obtain rfl := NodeSite.site_of_ofSite? hm
    have hsite : m.site = n.site :=
      eq_of_countP_partKinds h (hparts m he) m.isNode_kind (hparts n hn) n.isNode_kind
    rw [NodeSite.ext hsite]

/-! ### Trees of children -/

theorem map_tree_filterMap (p : NodeKind → Bool) (es : List Site) :
  (es.filterMap (NodeSite.ofSite? p)).map (·.site.tree)
    = (es.map tree).filter fun t => t.nodeKind?.any p
  := by
  induction es with
  | nil => rfl
  | cons e es ih =>
    rw [List.filterMap_cons, List.map_cons, List.filter_cons]
    by_cases hkind : e.tree.nodeKind?.any p = true
    · rw [NodeSite.ofSite?, dif_pos hkind, if_pos hkind, List.map_cons, ih]
    · rw [NodeSite.ofSite?, dif_neg hkind, if_neg hkind, ih]

/-- The trees of the children of some kinds. -/
theorem map_tree_childrenOf (p : NodeKind → Bool) (s : Site) :
  (s.childrenOf p).map (·.site.tree) = s.tree.children.filter fun t => t.nodeKind?.any p
  := by
  rw [childrenOf, map_tree_filterMap, map_tree_elements]

/-- The tree of the first child of some kinds. -/
theorem map_tree_childOf? (p : NodeKind → Bool) (s : Site) :
  (s.childOf? p).map (·.site.tree) = s.tree.children.find? fun t => t.nodeKind?.any p
  := by
  rw [childOf?, ← List.head?_filterMap, ← List.head?_map, map_tree_filterMap, map_tree_elements,
    List.head?_filter]

/-- The tokens among the children. -/
theorem map_token_ownTokens (s : Site) :
  s.ownTokens.map Leaf.token = s.tree.children.filterMap Tree.token?
  := by
  rw [ownTokens, ← map_tree_elements, List.map_filterMap, List.filterMap_map]
  apply List.filterMap_congr
  intro e _
  obtain ⟨start, tree, path⟩ := e
  cases tree <;> rfl

theorem map_token_ownToken? (k : TokenKind) (s : Site) :
  (s.ownToken? k).map Leaf.token = (s.tree.children.filterMap Tree.token?).find? (·.kind = k)
  := by
  rw [ownToken?, ← map_token_ownTokens, List.find?_map]
  rfl

theorem map_tree_parts (s : Site) :
  s.parts.map tree = s.tree.children.filter (!·.isTrivia)
  := by
  rw [parts, ← map_tree_elements, List.filter_map]
  rfl

end Site

end InlayHints
