import Mathlib.Data.List.Basic
import InlayHints.Proofs.Hint.Selection
import InlayHints.Proofs.Syntax.Site.Parts
import InlayHints.Proofs.Syntax.Site.Preorder
import InlayHints.Proofs.Syntax.Token.LongestMatch

/-!
# Leaves

The leaves below a site are its tokens, each at its own place, from left to right
(`Site.map_leaves`).  `Site.Around root d before after` says what stands around a site `d` below
the site `root`: the leaves of `root` before those of `d`, and the leaves after them.  It is built
up along the way down to `d`, one step for each level, and a site below has only one such
surrounding (`Site.around_of_leaves`).
-/

namespace InlayHints

/-- The leaves other than trivia. -/
def Leaf.significant (ls : List Leaf) : List Leaf := ls.filter (!·.isTrivia)

theorem Leaf.significant_nil :
  significant [] = []
  := rfl

theorem Leaf.significant_append (ls ms : List Leaf) :
  significant (ls ++ ms) = significant ls ++ significant ms
  := List.filter_append ls ms

theorem Leaf.significant_cons_of_trivia {l : Leaf} (h : l.isTrivia = true) (ls : List Leaf) :
  significant (l :: ls) = significant ls
  := List.filter_cons_of_neg (by rw [h]; nofun)

theorem Leaf.significant_cons {l : Leaf} (h : l.isTrivia = false) (ls : List Leaf) :
  significant (l :: ls) = l :: significant ls
  := List.filter_cons_of_pos (by rw [h]; rfl)

namespace Site

variable {s e d root : Site} {l : Leaf} {pre post : List Site} {before after : List Leaf}

/-! ### Children in a row -/

theorem spread_eq_append (kind : NodeKind) (path : List Frame) (start : Nat)
    (before : List Tree) (done : List Site) (cs : List Tree) :
  spread kind path start before done cs = done.reverse ++ spread kind path start before [] cs
  := by
  induction cs generalizing start before done with
  | nil => rw [spread, spread, List.reverse_nil, List.append_nil]
  | cons c cs ih =>
    rw [spread, ih, spread, ih _ _ [_], List.reverse_cons, List.append_assoc]
    rfl

theorem spread_cons (kind : NodeKind) (path : List Frame) (start : Nat) (before : List Tree)
    (c : Tree) (cs : List Tree) :
  spread kind path start before [] (c :: cs)
    = ⟨start, c, ⟨kind, before, cs⟩ :: path⟩
      :: spread kind path (start + c.width) (c :: before) [] cs
  := by
  rw [spread, spread_eq_append]
  rfl

/-- A tree that stands in a row knows the trees before and after it. -/
theorem path_of_spread {kind : NodeKind} {path : List Frame} {start : Nat} {before : List Tree}
    {cs : List Tree} (h : spread kind path start before [] cs = pre ++ e :: post) :
  e.path = ⟨kind, (pre.map tree).reverse ++ before, post.map tree⟩ :: path
    ∧ e.start = start + Token.totalWidth ((pre.map tree).flatMap Tree.tokens)
  := by
  induction cs generalizing start before pre with
  | nil =>
    rw [spread] at h
    have hlength := congrArg List.length h
    simp at hlength
  | cons c cs ih =>
    rw [spread_cons] at h
    cases pre with
    | nil =>
      obtain ⟨rfl, hpost⟩ := List.cons.inj h
      rw [← hpost, map_tree_spread]
      exact ⟨rfl, rfl⟩
    | cons p pre =>
      obtain ⟨rfl, hpre⟩ := List.cons.inj h
      obtain ⟨hpath, hstart⟩ := ih hpre
      rw [hpath, hstart]
      constructor
      · simp
      · rw [List.map_cons, List.flatMap_cons, Token.totalWidth_append, Tree.width_eq,
          Nat.add_assoc]

/-- A child knows the children before and after it. -/
theorem path_of_elements (h : s.elements = pre ++ e :: post) :
  ∃ kind, s.tree = .node kind (pre.map tree ++ e.tree :: post.map tree)
    ∧ e.path = ⟨kind, (pre.map tree).reverse, post.map tree⟩ :: s.path
    ∧ e.start = s.start + Token.totalWidth ((pre.map tree).flatMap Tree.tokens)
  := by
  have htrees := s.map_tree_elements
  rw [h, List.map_append, List.map_cons] at htrees
  unfold elements at h
  split at h
  · simp at h
  · next kind cs heq =>
    obtain ⟨hpath, hstart⟩ := path_of_spread h
    rw [List.append_nil] at hpath
    rw [heq, Tree.children] at htrees
    use kind
    rw [heq, htrees]
    use rfl, hpath

/-- A child starts where the child before it stops. -/
theorem start_eq_stop (h : s.elements = pre ++ e :: d :: post) :
  d.start = e.stop
  := by
  obtain ⟨_, -, -, he⟩ := path_of_elements h
  have h' : s.elements = (pre ++ [e]) ++ d :: post := by rw [h, List.append_assoc]; rfl
  obtain ⟨_, -, -, hd⟩ := path_of_elements h'
  rw [hd, List.map_append, List.flatMap_append, Token.totalWidth_append, ← Nat.add_assoc, ← he,
    stop, Tree.width_eq]
  simp

/-- The last child stops where its parent does. -/
theorem stop_eq_stop (h : s.elements = pre ++ [e]) :
  e.stop = s.stop
  := by
  obtain ⟨_, htree, -, hstart⟩ := path_of_elements h
  rw [stop, hstart, stop, Tree.width_eq s.tree, htree, Tree.tokens_node, List.flatMap_append,
    Token.totalWidth_append, Tree.width_eq]
  simp [Nat.add_assoc]

/-! ### Leaves of a site -/

/-- The tokens below a site, from left to right. -/
def leaves (s : Site) : List Leaf := s.descendants.filterMap leaf?

theorem leaves_eq (s : Site) :
  s.leaves = s.leaf?.toList ++ s.elements.flatMap leaves
  := by
  rw [leaves, descendants_eq, List.filterMap_cons, List.filterMap_flatMap]
  cases s.leaf? with
  | none => rfl
  | some l => rfl

theorem leaves_of_token {t : Token} (h : s.tree = .token t) :
  s.leaves = [⟨s.start, t, s.path⟩]
  := by
  rw [leaves_eq, leaf?, elements, h]
  rfl

theorem leaves_of_node {kind : NodeKind} {cs : List Tree} (h : s.tree = .node kind cs) :
  s.leaves = s.elements.flatMap leaves
  := by
  rw [leaves_eq, leaf?, h]
  rfl

theorem leaves_site (l : Leaf) :
  l.site.leaves = [l]
  := leaves_of_token rfl

/-- The leaves of a child, between those of the children before and after it. -/
theorem leaves_of_elements (h : s.elements = pre ++ e :: post) :
  s.leaves = pre.flatMap leaves ++ (e.leaves ++ post.flatMap leaves)
  := by
  obtain ⟨kind, htree, -⟩ := path_of_elements h
  rw [leaves_of_node htree, h, List.flatMap_append, List.flatMap_cons]

theorem site_mem_descendants (h : l ∈ s.leaves) :
  l.site ∈ s.descendants
  := by
  obtain ⟨d, hd, hleaf⟩ := List.mem_filterMap.mp h
  rw [site_of_leaf? hleaf]
  apply hd

/-- The leaves of a site lie in its range. -/
theorem bounds_of_mem_leaves (h : l ∈ s.leaves) :
  s.start ≤ l.start ∧ l.stop ≤ s.stop
  := by
  have hrange := contains_range_of_mem_descendants _ (site_mem_descendants h)
  rw [TextRange.contains_iff] at hrange
  simp only [range, TextRange.ofWidth, Leaf.site, Tree.width_token] at hrange
  apply hrange

/-- A leaf stops before the leaves after it start. -/
theorem pairwise_leaves (s : Site) :
  s.leaves.Pairwise fun l m => l.stop ≤ m.start
  := by
  cases htree : s.tree with
  | token t =>
    rw [leaves_of_token htree]
    apply List.pairwise_singleton
  | node kind cs =>
    rw [leaves_of_node htree]
    apply List.pairwise_flatMap.mpr ⟨fun e he => pairwise_leaves e, _⟩
    apply s.pairwise_elements.imp
    intro d e hle l hl m hm
    have := bounds_of_mem_leaves hl
    have := bounds_of_mem_leaves hm
    omega
termination_by sizeOf s.tree
decreasing_by exact sizeOf_tree_lt he

theorem nodup_leaves (s : Site) :
  s.leaves.Nodup
  := by
  apply s.nodup_descendants.filterMap
  intro a b l ha hb
  rw [← site_of_leaf? (Option.mem_def.mp ha), ← site_of_leaf? (Option.mem_def.mp hb)]

theorem startsFrom_spread (kind : NodeKind) (path : List Frame) (start : Nat)
    (before : List Tree) (cs : List Tree) :
  ((spread kind path start before [] cs).flatMap fun e => Token.startsFrom e.start e.tree.tokens)
    = Token.startsFrom start (cs.flatMap Tree.tokens)
  := by
  induction cs generalizing start before with
  | nil => rfl
  | cons c cs ih => rw [spread_cons, List.flatMap_cons, ih, List.flatMap_cons,
      Token.startsFrom_append, Tree.width_eq]

/-- The leaves of a site are its tokens, each at its own offset. -/
theorem map_leaves (s : Site) :
  (s.leaves.map fun l => (l.start, l.token)) = Token.startsFrom s.start s.tree.tokens
  := by
  cases htree : s.tree with
  | token t =>
    rw [leaves_of_token htree, Tree.tokens_token]
    rfl
  | node kind cs =>
    rw [leaves_of_node htree, List.map_flatMap, Tree.tokens_node,
      ← startsFrom_spread kind s.path s.start []]
    have helements : s.elements = spread kind s.path s.start [] [] cs := by rw [elements, htree]
    rw [← helements]
    apply List.flatMap_congr
    intro e he
    apply map_leaves e
termination_by sizeOf s.tree
decreasing_by exact sizeOf_tree_lt he

theorem map_token_leaves (s : Site) :
  s.leaves.map Leaf.token = s.tree.tokens
  := by
  calc s.leaves.map Leaf.token
    _ = (s.leaves.map fun l => (l.start, l.token)).map Prod.snd := by rw [List.map_map]; rfl
    _ = s.tree.tokens := by rw [map_leaves, Token.map_snd_startsFrom]

/-- The leaves of a site below are leaves of the site. -/
theorem leaves_subset (hd : d ∈ s.descendants) :
  d.leaves ⊆ s.leaves
  := ((descendants_sublist hd).filterMap leaf?).subset

/-! ### What stands around a site -/

/-- The leaves of `root` before and after those of a site below it. -/
inductive Around (root : Site) : Site → List Leaf → List Leaf → Prop where
  | root : Around root root [] []
  | element {s e : Site} {before after : List Leaf} {pre post : List Site}
    (around : Around root s before after) (split : s.elements = pre ++ e :: post) :
    Around root e (before ++ pre.flatMap leaves) (post.flatMap leaves ++ after)

/-- Every site below has leaves before and after it. -/
theorem exists_around :
  ∀ d ∈ root.descendants, ∃ before after, Around root d before after
  := by
  apply forall_descendants (P := fun d => ∃ before after, Around root d before after)
  · rintro s e ⟨before, after, h⟩ he
    obtain ⟨pre, post, hsplit⟩ := List.append_of_mem he
    exact ⟨_, _, h.element hsplit⟩
  · exact ⟨[], [], .root⟩

namespace Around

theorem mem_descendants (h : Around root d before after) :
  d ∈ root.descendants
  := by
  induction h with
  | root => apply self_mem_descendants
  | @element s e _ _ pre post _ hsplit ih =>
    have he : e ∈ s.elements := by rw [hsplit]; simp
    apply element_mem_descendants ih he

theorem leaves_eq (h : Around root d before after) :
  root.leaves = before ++ (d.leaves ++ after)
  := by
  induction h with
  | root => rw [List.append_nil, List.nil_append]
  | element _ hsplit ih =>
    rw [ih, leaves_of_elements hsplit]
    simp only [List.append_assoc]

/-- What stands before a site stops before it starts, and what stands after it starts after it
stops. -/
theorem bounds (h : Around root d before after) :
  (∀ l ∈ before, l.stop ≤ d.start) ∧ ∀ l ∈ after, d.stop ≤ l.start
  := by
  induction h with
  | root => exact ⟨List.forall_mem_nil _, List.forall_mem_nil _⟩
  | @element s e before after pre post _ hsplit ih =>
    have hpairs := s.pairwise_elements
    have he : e ∈ s.elements := by rw [hsplit]; simp
    have hinside := TextRange.contains_iff.mp (contains_range_of_mem_elements he)
    simp only [range, TextRange.ofWidth] at hinside
    rw [hsplit, List.pairwise_append, List.pairwise_cons] at hpairs
    obtain ⟨-, ⟨hpost, -⟩, hpre⟩ := hpairs
    constructor
    · intro l hl
      rcases List.mem_append.mp hl with hl | hl
      · have := ih.1 l hl
        omega
      · obtain ⟨c, hc, hl⟩ := List.mem_flatMap.mp hl
        have := hpre c hc e List.mem_cons_self
        have := bounds_of_mem_leaves hl
        omega
    · intro l hl
      rcases List.mem_append.mp hl with hl | hl
      · obtain ⟨c, hc, hl⟩ := List.mem_flatMap.mp hl
        have := hpost c hc
        have := bounds_of_mem_leaves hl
        omega
      · have := ih.2 l hl
        simp only [stop] at this ⊢
        omega

end Around

/-- A leaf stands where the list of all leaves shows it. -/
theorem around_of_leaves (h : root.leaves = before ++ l :: after) :
  Around root l.site before after
  := by
  have hl : l ∈ root.leaves := by rw [h]; simp
  have hnodup := root.nodup_leaves
  obtain ⟨before', after', haround⟩ := exists_around l.site (site_mem_descendants hl)
  have hleaves := haround.leaves_eq
  rw [leaves_site, List.singleton_append] at hleaves
  rw [hleaves, List.nodup_append, List.nodup_cons] at hnodup
  have hbefore : l ∉ before' := fun hmem => hnodup.2.2 l hmem l List.mem_cons_self rfl
  obtain ⟨rfl, -, rfl⟩ :=
    (List.append_cons_inj_of_notMem hbefore hnodup.2.1.1).mp (hleaves.symm.trans h)
  apply haround

end Site

end InlayHints
