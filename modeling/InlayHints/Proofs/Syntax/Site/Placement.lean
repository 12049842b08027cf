import Mathlib.Tactic.Use
import InlayHints.Syntax.Node.Declaration
import InlayHints.Proofs.Syntax.Token.Width

/-!
# Places in a whole tree

A place lies in a whole tree if the tree is rebuilt from the place along its path, and if the
place starts where the tokens before it end.  The site of the whole tree is such a place, and
every step from a place leads to another one: down to a child, to all sites below it, to its
first token, and from one token to the next.  So wherever these steps lead, the token that is
found is a token of the whole tree at its own offset (`Leaf.LiesIn.located`).
-/

namespace InlayHints

/-! ### Widths -/

namespace Tree

/-- The widths of trees side by side add up to that of all their tokens, if this is so for each
of them. -/
theorem foldl_width (n : Nat) (cs : List Tree)
    (h : ∀ c ∈ cs, c.width = Token.totalWidth c.tokens) :
  cs.foldl (fun n c => n + c.width) n = n + Token.totalWidth (cs.flatMap tokens)
  := by
  induction cs generalizing n with
  | nil => rfl
  | cons c cs ih =>
    rw [List.foldl_cons, h c List.mem_cons_self, ih, List.flatMap_cons, Token.totalWidth_append,
      Nat.add_assoc]
    intro c' hc'
    apply h c' (List.mem_cons_of_mem c hc')

/-- The width of a tree is that of its tokens. -/
theorem width_eq (t : Tree) :
  t.width = Token.totalWidth t.tokens
  := by
  induction t using induct with
  | token t => rw [width_token, tokens_token, Token.totalWidth_cons, Token.totalWidth_nil,
      Nat.add_zero]
  | node k cs ih => rw [width_node, tokens_node, foldl_width 0 cs ih, Nat.zero_add]

end Tree

/-! ### Paths -/

namespace Frame

/-- The tokens before a place, from the start of the whole tree. -/
def tokensBefore : List Frame → List Token
  | [] => []
  | f :: path => tokensBefore path ++ f.before.reverse.flatMap Tree.tokens

/-- The tokens after a place, up to the end of the whole tree. -/
def tokensAfter : List Frame → List Token
  | [] => []
  | f :: path => f.after.flatMap Tree.tokens ++ tokensAfter path

/-- The whole tree, with `t` at the place that the path comes from. -/
def rebuild (t : Tree) : List Frame → Tree
  | [] => t
  | f :: path => rebuild (f.plug t) path

theorem tokens_plug (f : Frame) (t : Tree) :
  (f.plug t).tokens
    = f.before.reverse.flatMap Tree.tokens ++ (t.tokens ++ f.after.flatMap Tree.tokens)
  := by
  rw [plug, Tree.tokens_node, List.reverseAux_eq, List.flatMap_append, List.flatMap_cons]

theorem tokens_rebuild (t : Tree) (path : List Frame) :
  (rebuild t path).tokens = tokensBefore path ++ (t.tokens ++ tokensAfter path)
  := by
  induction path generalizing t with
  | nil => simp [rebuild, tokensBefore, tokensAfter]
  | cons f path ih =>
    rw [rebuild, ih, tokens_plug, tokensBefore, tokensAfter]
    simp only [List.append_assoc]

/-- At the place that the path comes from stands `t`, from the offset `start` on, in a whole
tree. -/
structure Places (whole : Tree) (path : List Frame) (start : Nat) (t : Tree) : Prop where
  rebuild_eq : rebuild t path = whole
  start_eq : start = Token.totalWidth (tokensBefore path)

namespace Places

variable {whole t c : Tree} {path : List Frame} {start : Nat}

theorem tokens_eq (h : Places whole path start t) :
  whole.tokens = tokensBefore path ++ (t.tokens ++ tokensAfter path)
  := by
  rw [← h.rebuild_eq, tokens_rebuild]

/-- The children of a node stand side by side from its start on. -/
theorem child {k : NodeKind} (before : List Tree) {after : List Tree}
    (h : Places whole path start (.node k (before.reverse ++ c :: after))) :
  Places whole (⟨k, before, after⟩ :: path)
    (start + Token.totalWidth (before.reverse.flatMap Tree.tokens)) c
  where
  rebuild_eq := by
    rw [rebuild, plug, List.reverseAux_eq, h.rebuild_eq]
  start_eq := by
    rw [tokensBefore, Token.totalWidth_append, h.start_eq]

end Places

end Frame

/-! ### Sites below a site -/

namespace Site

variable {whole : Tree} {s e : Site}

/-- A site lies in a whole tree. -/
def LiesIn (whole : Tree) (s : Site) : Prop := Frame.Places whole s.path s.start s.tree

theorem liesIn_root (whole : Tree) :
  (root whole).LiesIn whole
  where
  rebuild_eq := rfl
  start_eq := rfl

theorem map_tree_spread (kind : NodeKind) (path : List Frame) (start : Nat) (before : List Tree)
    (done : List Site) (cs : List Tree) :
  (spread kind path start before done cs).map tree = (done.map tree).reverse ++ cs
  := by
  induction cs generalizing start before done with
  | nil => rw [spread, List.map_reverse, List.append_nil]
  | cons c cs ih =>
    rw [spread, ih, List.map_cons, List.reverse_cons, List.append_assoc]
    rfl

/-- The children of a site are the trees at the sites of its children. -/
theorem map_tree_elements (s : Site) :
  s.elements.map tree = s.tree.children
  := by
  unfold elements
  split
  · next heq => rw [heq, Tree.children, List.map_nil]
  · next heq => rw [heq, Tree.children, map_tree_spread, List.map_nil, List.reverse_nil,
      List.nil_append]

/-- The site of one of several trees that stand side by side. -/
theorem exists_of_mem_spread {kind : NodeKind} {path : List Frame} {start : Nat}
    {before : List Tree} {done : List Site} {cs : List Tree}
    (h : e ∈ spread kind path start before done cs) :
  e ∈ done ∨ ∃ pre post, cs = pre ++ e.tree :: post
    ∧ e.start = start + Token.totalWidth (pre.flatMap Tree.tokens)
    ∧ e.path = ⟨kind, pre.reverse ++ before, post⟩ :: path
  := by
  induction cs generalizing start before done with
  | nil =>
    apply Or.inl
    simpa [spread] using h
  | cons c cs ih =>
    rcases ih h with hdone | ⟨pre, post, rfl, hstart, hpath⟩
    · rcases List.mem_cons.mp hdone with rfl | hdone
      · apply Or.inr
        use [], cs, rfl, rfl
        rfl
      · apply Or.inl hdone
    · apply Or.inr
      use c :: pre, post, rfl
      constructor
      · rw [hstart, List.flatMap_cons, Token.totalWidth_append, Tree.width_eq, Nat.add_assoc]
      · rw [hpath, List.reverse_cons, List.append_assoc, List.singleton_append]

/-- The site of a child, with what stands before and after it. -/
theorem exists_of_mem_elements (h : e ∈ s.elements) :
  ∃ kind before after, s.tree = .node kind (before.reverse ++ e.tree :: after)
    ∧ e.start = s.start + Token.totalWidth (before.reverse.flatMap Tree.tokens)
    ∧ e.path = ⟨kind, before, after⟩ :: s.path
  := by
  unfold elements at h
  split at h
  · contradiction
  · next kind cs heq =>
    rcases exists_of_mem_spread h with hnil | ⟨pre, post, rfl, hstart, hpath⟩
    · contradiction
    · use kind, pre.reverse, post
      rw [List.reverse_reverse]
      use heq, hstart
      rw [hpath, List.append_nil]

theorem self_mem_descendants (s : Site) :
  s ∈ s.descendants
  := by
  rw [descendants_eq]
  apply List.mem_cons_self

theorem mem_descendants_of_element {d : Site} (he : e ∈ s.elements)
    (hd : d ∈ e.descendants) :
  d ∈ s.descendants
  := by
  rw [descendants_eq]
  apply List.mem_cons_of_mem
  apply List.mem_flatMap.mpr ⟨e, he, hd⟩

theorem mem_elements_of_childOf? {p : NodeKind → Bool} {n : NodeSite p}
    (h : s.childOf? p = some n) :
  n.site ∈ s.elements
  := by
  obtain ⟨e, he, hn⟩ := List.exists_of_findSome?_eq_some h
  rw [NodeSite.site_of_ofSite? hn]
  apply he

theorem mem_elements_of_childrenOf {p : NodeKind → Bool} {n : NodeSite p}
    (h : n ∈ s.childrenOf p) :
  n.site ∈ s.elements
  := by
  obtain ⟨e, he, hn⟩ := List.mem_filterMap.mp h
  rw [NodeSite.site_of_ofSite? hn]
  apply he

/-- Whatever passes from a site to its children holds of all sites below it. -/
theorem forall_descendants {P : Site → Prop}
    (hstep : ∀ {s e : Site}, P s → e ∈ s.elements → P e) {s : Site} (hs : P s) :
  ∀ d ∈ s.descendants, P d
  := by
  intro d hd
  rw [descendants_eq] at hd
  rcases List.mem_cons.mp hd with rfl | hd
  · apply hs
  · obtain ⟨e, he, hd⟩ := List.mem_flatMap.mp hd
    apply forall_descendants hstep (hstep hs he) d hd
termination_by sizeOf s.tree
decreasing_by exact sizeOf_tree_lt he

/-- A site below another one is a child of a site that is below it, too. -/
theorem exists_parent {s d : Site} (hd : d ∈ s.descendants) :
  d = s ∨ ∃ e ∈ s.descendants, d ∈ e.elements
  := by
  rw [descendants_eq] at hd
  rcases List.mem_cons.mp hd with rfl | hd
  · apply Or.inl rfl
  · obtain ⟨e, he, hd⟩ := List.mem_flatMap.mp hd
    apply Or.inr
    rcases exists_parent hd with rfl | ⟨e', he', hd⟩
    · use s, self_mem_descendants s
    · use e', mem_descendants_of_element he he'
termination_by sizeOf s.tree
decreasing_by exact sizeOf_tree_lt he

theorem LiesIn.element (h : s.LiesIn whole) (he : e ∈ s.elements) :
  e.LiesIn whole
  := by
  obtain ⟨kind, before, after, htree, hstart, hpath⟩ := exists_of_mem_elements he
  have hplaces : Frame.Places whole s.path s.start s.tree := h
  rw [htree] at hplaces
  rw [LiesIn, hstart, hpath]
  apply hplaces.child before

theorem LiesIn.descendant (h : s.LiesIn whole) :
  ∀ d ∈ s.descendants, d.LiesIn whole
  := forall_descendants LiesIn.element h

end Site

/-! ### Tokens -/

namespace Leaf

variable {whole : Tree} {l : Leaf}

/-- A token lies in a whole tree. -/
def LiesIn (whole : Tree) (l : Leaf) : Prop :=
  Frame.Places whole l.path l.start (.token l.token)

/-- A token that lies in a tree is one of its tokens and starts where those before it end. -/
theorem LiesIn.located (h : l.LiesIn whole) :
  whole.tokens = Frame.tokensBefore l.path ++ l.token :: Frame.tokensAfter l.path
    ∧ l.start = Token.totalWidth (Frame.tokensBefore l.path)
  := by
  have htokens := Frame.Places.tokens_eq h
  rw [Tree.tokens_token, List.singleton_append] at htokens
  use htokens, h.start_eq

end Leaf

namespace Site

variable {whole t : Tree} {s : Site} {l : Leaf} {path : List Frame} {start stop : Nat}

theorem LiesIn.leaf (h : s.LiesIn whole) (hl : s.leaf? = some l) :
  l.LiesIn whole
  := by
  unfold leaf? at hl
  split at hl
  · next t heq =>
    obtain rfl := Option.some_inj.mp hl
    have hplaces : Frame.Places whole s.path s.start s.tree := h
    rw [heq] at hplaces
    apply hplaces
  · contradiction

theorem LiesIn.ownToken (h : s.LiesIn whole) (hl : l ∈ s.ownTokens) :
  l.LiesIn whole
  := by
  obtain ⟨e, he, hleaf⟩ := List.mem_filterMap.mp hl
  apply (h.element he).leaf hleaf

theorem liesIn_firstIn (h : Frame.Places whole path start t)
    (hl : firstIn start path t = some l) :
  l.LiesIn whole
  := by
  fun_induction firstIn start path t with
  | case1 path t =>
    obtain rfl := Option.some_inj.mp hl
    apply h
  | case2 => contradiction
  | case3 path k c cs ih => apply ih (.child [] h) hl

theorem LiesIn.firstToken (h : s.LiesIn whole) (hl : s.firstToken? = some l) :
  l.LiesIn whole
  := liesIn_firstIn h hl

/-- The element after a tree starts where the tree stops. -/
theorem liesIn_elementAfter (h : Frame.rebuild t path = whole)
    (hstop : stop = Token.totalWidth (Frame.tokensBefore path) + t.width)
    (hs : elementAfter stop t path = some s) :
  s.LiesIn whole
  := by
  fun_induction elementAfter stop t path with
  | case1 => contradiction
  | case2 t f path hnil ih =>
    apply ih h _ hs
    rw [hstop, Tree.width_eq, Tree.width_eq (f.plug t), Frame.tokens_plug, hnil,
      Frame.tokensBefore]
    simp [Nat.add_assoc]
  | case3 t f path c cs hcons =>
    obtain rfl := Option.some_inj.mp hs
    constructor
    · rw [← h, Frame.rebuild, Frame.rebuild, Frame.plug, Frame.plug, hcons]
      rfl
    · rw [hstop, Frame.tokensBefore, Frame.tokensBefore, Tree.width_eq]
      simp [Nat.add_assoc]

end Site

/-! ### Walks over tokens -/

namespace Leaf

variable {whole : Tree} {l m : Leaf}

theorem LiesIn.next (h : l.LiesIn whole) (hm : l.next? = some m) :
  m.LiesIn whole
  := by
  obtain ⟨s, hs, hm⟩ := Option.bind_eq_some_iff.mp hm
  apply (Site.liesIn_elementAfter h.rebuild_eq _ hs).firstToken hm
  rw [stop, h.start_eq, Tree.width_token]

theorem LiesIn.nextSignificant (h : l.LiesIn whole) (hm : l.nextSignificant? = some m) :
  m.LiesIn whole
  := by
  fun_induction nextSignificant? l with
  | case1 => contradiction
  | case2 l n hn _ ih => apply ih (h.next hn) hm
  | case3 l n hn _ =>
    obtain rfl := Option.some_inj.mp hm
    apply h.next hn

end Leaf

namespace Site

variable {whole : Tree} {s : Site} {l : Leaf}

theorem LiesIn.firstSignificant (h : s.LiesIn whole) (hl : s.firstSignificant? = some l) :
  l.LiesIn whole
  := by
  obtain ⟨first, hfirst, hl⟩ := Option.bind_eq_some_iff.mp hl
  have hlies := h.firstToken hfirst
  split at hl
  · obtain ⟨hnext, -⟩ := Option.filter_eq_some_iff.mp hl
    apply hlies.nextSignificant hnext
  · obtain rfl := Option.some_inj.mp hl
    apply hlies

end Site

end InlayHints
