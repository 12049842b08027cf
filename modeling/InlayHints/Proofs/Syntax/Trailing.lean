import InlayHints.Proofs.Syntax.Navigation

/-!
# Trivia follows a token

A node may be empty, or end with an empty node, but what follows such a node is never trivia:
an empty node is opened after the trivia before it is taken, and then nothing more is taken until
the next token.  `State.Linked` is what reading keeps, and `Parse.linked_ofTokens` says it of the
tree of a text.

So a walk back from trivia at the end of a node is not stopped before it comes to a significant
token of the node (`Site.exists_lastSignificant`), and the last significant token of a node is
found whenever the node ends with a token at all.
-/

namespace InlayHints

namespace Tree

/-- A tree ends with a token, which may be trivia, and not with an empty node. -/
inductive EndsInToken : Tree → Prop where
  | token (t : Token) : EndsInToken (.token t)
  | node {kind : NodeKind} {cs : List Tree} {c : Tree} (last : cs.getLast? = some c)
    (ends : c.EndsInToken) : EndsInToken (.node kind cs)

theorem endsInToken_node {kind : NodeKind} {cs : List Tree} :
  (node kind cs).EndsInToken ↔ ∃ c, cs.getLast? = some c ∧ c.EndsInToken
  := by
  constructor
  · intro h
    cases h with
    | node last ends => exact ⟨_, last, ends⟩
  · rintro ⟨c, hlast, hends⟩
    apply EndsInToken.node hlast hends

/-- In a list of trees, the last one first, trivia follows only trees that end with a token. -/
def Linked (out : List Tree) : Prop :=
  out.IsChain fun d c => d.isTrivia = true → c.EndsInToken

/-- The trees of a node are linked. -/
def NodeLinked (_ : NodeKind) (cs : List Tree) : Prop := Linked cs.reverse

/-- A tree in a node that trivia follows ends with a token. -/
theorem NodeLinked.endsInToken {kind : NodeKind} {before after : List Tree} {c d : Tree}
    (h : NodeLinked kind (before ++ c :: d :: after)) (hd : d.isTrivia = true) :
  c.EndsInToken
  := by
  have hchain := (List.isChain_append.mp (List.isChain_reverse.mp h)).2.1
  apply (List.isChain_cons_cons.mp hchain).1 hd

theorem linked_tokens (ts : List Token) :
  Linked (ts.map token)
  := by
  induction ts with
  | nil => apply List.isChain_nil
  | cons t ts ih =>
    apply List.isChain_cons.mpr ⟨_, ih⟩
    intro c hc _
    obtain ⟨u, -, rfl⟩ := List.mem_map.mp (List.mem_of_mem_head? hc)
    apply EndsInToken.token

end Tree

/-! ### Reading -/

namespace State

variable {s t : State}

/-- The trees of the innermost group are linked, those in its nodes are, too, and trivia may
follow whenever there is trivia ahead. -/
structure Linked (s : State) : Prop where
  ahead : s.ahead.trivia ≠ [] → ∀ c ∈ s.out.head?, c.EndsInToken
  group : Tree.Linked s.out
  nodes : s.Shaped Tree.NodeLinked

theorem linked_opened (s : State) :
  (s.flush.withOut []).Linked
  where
  ahead _ := nofun
  group := List.isChain_nil
  nodes := shaped_opened _

theorem Linked.flush (h : s.Linked) :
  s.flush.Linked
  where
  ahead htrivia := absurd (trivia_flush s) htrivia
  group := by
    rw [out_flush, ← List.map_reverse]
    apply List.isChain_append.mpr ⟨Tree.linked_tokens _, h.group, _⟩
    intro d hd c hc _
    apply h.ahead _ c hc
    intro hnil
    rw [hnil] at hd
    contradiction
  nodes := h.nodes.flush

theorem Linked.shift (h : s.Linked) :
  s.shift.Linked
  := by
  have hshaped := h.nodes.shift
  unfold State.shift at hshaped ⊢
  split
  · apply h
  · next t ts htokens =>
    simp only [htokens] at hshaped
    constructor
    · intro _ c hc
      obtain rfl := Option.some_inj.mp hc
      apply Tree.EndsInToken.token
    · apply List.isChain_cons.mpr ⟨_, h.group⟩
      intro c hc htrivia
      apply h.ahead _ c hc
      have htrivia : t.isTrivia = true := htrivia
      rw [Input.trivia, htokens, List.takeWhile_cons_of_pos htrivia]
      nofun
    · apply hshaped

/-- A group with trivia ahead is not empty, so its node ends as its last tree does. -/
theorem Linked.exists_head (h : s.Linked) (hs : s.Fronted) (htrivia : s.ahead.trivia ≠ []) :
  ∃ c, s.out.head? = some c ∧ c.EndsInToken
  := by
  cases hout : s.out with
  | nil =>
    apply absurd (hs.opened _) htrivia
    rw [taken, hout]
    rfl
  | cons c out =>
    have hhead : s.out.head? = some c := by rw [hout]; rfl
    exact ⟨c, rfl, h.ahead htrivia c hhead⟩

theorem Linked.endsInToken_node (h : s.Linked) (hs : s.Fronted) (htrivia : s.ahead.trivia ≠ [])
    (kind : NodeKind) :
  (Tree.node kind s.out.reverse).EndsInToken
  := by
  obtain ⟨c, hhead, hends⟩ := h.exists_head hs htrivia
  apply Tree.EndsInToken.node _ hends
  rw [List.getLast?_reverse, hhead]

/-- The trees of a group fit into a node. -/
theorem Linked.shaped_node (h : s.Linked) (kind : NodeKind) :
  Tree.Shaped Tree.NodeLinked (.node kind s.out.reverse)
  := by
  apply h.nodes.node
  rw [Tree.NodeLinked, List.reverse_reverse]
  apply h.group

/-- Reading keeps all groups linked. -/
theorem kept_linked :
  Kept fun s t => s.Takes t ∧ (s.Fronted → s.Linked → t.Linked)
  where
  refl s := ⟨kept_takes.refl s, fun _ h => h⟩
  trans hst htu :=
    ⟨kept_takes.trans hst.1 htu.1, fun hs h => htu.2 (hst.1.fronted hs) (hst.2 hs h)⟩
  flush s := ⟨takes_flush s, fun _ h => h.flush⟩
  shift s := ⟨takes_shift s, fun _ h => h.shift⟩
  report cause s := ⟨kept_takes.report cause s, fun _ h => ⟨h.ahead, h.group, h.nodes⟩⟩
  within kind s t ht := by
    use kept_takes.within kind s t ht.1
    intro _ h
    have hfronted := ht.1.fronted (fronted_opened s)
    have hbody := ht.2 (fronted_opened s) (linked_opened s)
    constructor
    · intro htrivia c hc
      obtain rfl := Option.some_inj.mp hc
      apply hbody.endsInToken_node hfronted htrivia
    · apply List.isChain_cons.mpr ⟨_, h.flush.group⟩
      intro c _ htrivia
      contradiction
    · apply List.forall_mem_cons.mpr ⟨hbody.shaped_node kind, h.flush.nodes⟩
  apart s t ht := by
    use kept_takes.apart s t ht.1
    intro _ h
    have hfronted := ht.1.fronted (fronted_opened s)
    have hbody := ht.2 (fronted_opened s) (linked_opened s)
    constructor
    · intro htrivia c hc
      obtain ⟨d, hhead, hends⟩ := hbody.exists_head hfronted htrivia
      rw [withOut, List.head?_append, hhead, Option.some_or] at hc
      obtain rfl := Option.some_inj.mp hc
      apply hends
    · apply List.isChain_append.mpr ⟨hbody.group, h.flush.group, _⟩
      intro d hd c _ htrivia
      -- the group does not start with trivia
      have hfirst : Tree.StartsSignificant .error t.out.reverse := hfronted.first
      rw [← List.head?_reverse] at hd
      rw [hfirst.trimmed d hd] at htrivia
      contradiction
    · apply List.forall_mem_append.mpr ⟨hbody.nodes, h.flush.nodes⟩
  wrap kind s t ht := by
    use kept_takes.wrap kind s t ht.1
    intro hs h
    have hbody := ht.2 hs h
    constructor
    · intro htrivia c hc
      obtain rfl := Option.some_inj.mp hc
      apply hbody.endsInToken_node (ht.1.fronted hs) htrivia
    · apply List.isChain_singleton
    · apply List.forall_mem_singleton.mpr (hbody.shaped_node kind)

end State

namespace Parse

/-- In the tree of any text, trivia inside a node follows a tree that ends with a token. -/
theorem linked_ofTokens (ts : List Token) :
  ∀ c ∈ (ofTokens ts).tree.children, c.Shaped Tree.NodeLinked
  := by
  apply shaped_children
  apply ((State.kept_linked.finalState _).2 (State.fronted_start_flush ts) _).nodes
  constructor
  · nofun
  · apply List.isChain_nil
  · apply List.forall_mem_nil

end Parse

/-! ### Walks back from trivia -/

namespace Site

variable {s e d : Site} {l : Leaf} {pre post : List Site}

/-- The walk down to the last token of a site finds one just if the tree ends with one. -/
theorem isSome_lastToken? (s : Site) :
  s.lastToken?.isSome = true ↔ s.tree.EndsInToken
  := by
  cases htree : s.tree with
  | token t =>
    rw [lastToken?, htree, lastIn]
    exact ⟨fun _ => .token t, fun _ => rfl⟩
  | node kind cs =>
    have htrees := s.map_tree_elements
    rw [htree] at htrees
    rw [Tree.endsInToken_node, ← show s.elements.map tree = cs from htrees]
    rcases List.eq_nil_or_concat s.elements with helements | ⟨pre, e, helements⟩
    · rw [helements] at htrees ⊢
      rw [lastToken?, htree, ← show [] = cs from htrees, lastIn]
      constructor
      · intro h
        contradiction
      · rintro ⟨c, hlast, -⟩
        contradiction
    · rw [List.concat_eq_append] at helements
      have he : e ∈ s.elements := by rw [helements]; simp
      rw [lastToken?_of_elements helements, isSome_lastToken? e, helements, List.map_append,
        List.map_singleton, List.getLast?_concat]
      simp
termination_by sizeOf s.tree
decreasing_by exact sizeOf_tree_lt he

theorem mem_leaves_of_lastToken? (h : s.lastToken? = some l) :
  l ∈ s.leaves
  := List.mem_of_getLast? ((reaches_lastToken (self_mem_descendants s)).sound l h)

/-- The token before a child that is a token is the last one of the child before it. -/
theorem previous?_of_elements {c : Site} (h : d.elements = pre ++ [c] ++ l.site :: post) :
  l.previous? = c.lastToken?
  := by
  rw [← tokenBefore?_site, tokenBefore?, elementBefore_of_elements h, List.getLast?_concat]
  rfl

variable (hlinked : e.tree.Shaped Tree.NodeLinked)
variable (hstarts : e.tree.Shaped Tree.StartsSignificant)

include hlinked hstarts

/-- Before trivia among the children of a node there is a child that ends with a token. -/
theorem exists_endsInToken (hd : d ∈ e.descendants) (hsplit : d.elements = pre ++ l.site :: post)
    (htrivia : l.isTrivia = true) :
  ∃ rest c, pre = rest ++ [c] ∧ c.tree.EndsInToken
  := by
  obtain ⟨kind, htree, -⟩ := path_of_elements hsplit
  have hkind : d.kind = .node kind := by rw [Site.kind, htree]; rfl
  have hchain := fits_of_shaped (shaped_descendants hlinked d hd) hkind
  have htrimmed := (fits_of_shaped (shaped_descendants hstarts d hd) hkind).trimmed
  rw [htree, Tree.children] at hchain htrimmed
  rw [l.isTrivia_eq, ← l.isTrivia_site] at htrivia
  rcases List.eq_nil_or_concat pre with rfl | ⟨rest, c, rfl⟩
  · rw [htrimmed l.site.tree rfl] at htrivia
    contradiction
  · rw [List.concat_eq_append, List.map_append, List.map_singleton, List.append_assoc] at hchain
    use rest, c, List.concat_eq_append
    apply hchain.endsInToken htrivia

/-- Before trivia in a node there is a token in the node. -/
theorem exists_previous (hnode : e.isNode = true) (hl : l ∈ e.leaves)
    (htrivia : l.isTrivia = true) :
  ∃ m, l.previous? = some m ∧ m ∈ e.leaves
  := by
  rcases exists_parent (site_mem_descendants hl) with rfl | ⟨d, hd, hld⟩
  · contradiction
  · obtain ⟨pre, post, hsplit⟩ := List.append_of_mem hld
    obtain ⟨rest, c, rfl, hends⟩ := exists_endsInToken hlinked hstarts hd hsplit htrivia
    obtain ⟨m, hm⟩ := Option.isSome_iff_exists.mp ((isSome_lastToken? c).mpr hends)
    have hc : c ∈ d.elements := by rw [hsplit]; simp
    use m
    rw [previous?_of_elements hsplit]
    use hm
    apply leaves_subset (element_mem_descendants hd hc) (mem_leaves_of_lastToken? hm)

/-- Before trivia in a node there is a significant token in the node, and it is found. -/
theorem exists_previousSignificant (hnode : e.isNode = true) (hl : l ∈ e.leaves)
    (htrivia : l.isTrivia = true) :
  ∃ m, l.previousSignificant? = some m ∧ m ∈ e.leaves
  := by
  fun_induction Leaf.previousSignificant? l with
  | case1 l hprevious =>
    obtain ⟨m, hm, -⟩ := exists_previous hlinked hstarts hnode hl htrivia
    rw [hprevious] at hm
    contradiction
  | case2 l m hprevious hm ih =>
    obtain ⟨m', hm', hmem⟩ := exists_previous hlinked hstarts hnode hl htrivia
    rw [hprevious, Option.some_inj] at hm'
    rw [hm'] at hm ih ⊢
    apply ih hmem hm
  | case3 l m hprevious hm =>
    obtain ⟨m', hm', hmem⟩ := exists_previous hlinked hstarts hnode hl htrivia
    rw [hprevious, Option.some_inj] at hm'
    exact ⟨m, rfl, hm' ▸ hmem⟩

/-- A node that ends with a token has a last significant token, and it is found. -/
theorem exists_lastSignificant (hnode : e.isNode = true) (hends : e.tree.EndsInToken) :
  ∃ m, e.lastSignificant? = some m
  := by
  obtain ⟨l, hl⟩ := Option.isSome_iff_exists.mp ((isSome_lastToken? e).mpr hends)
  rw [lastSignificant?, hl, Option.bind_some]
  split
  · next htrivia =>
    have hmem : l ∈ e.leaves := mem_leaves_of_lastToken? hl
    obtain ⟨m, hm, hmleaf⟩ := exists_previousSignificant hlinked hstarts hnode hmem htrivia
    use m
    rw [hm]
    apply Option.filter_some_pos
    apply decide_eq_true (bounds_of_mem_leaves hmleaf).1
  · exact ⟨l, rfl⟩

end Site

namespace SourceFile

variable {text : String} {n : Site}

/-- In a text without faults all nodes end with tokens, the file itself apart. -/
theorem endsInToken_of_faults (h : (ofText text).parse.faults = [])
    (hn : n ∈ (ofText text).root.descendants) (hne : n ≠ (ofText text).root)
    (hnode : n.isNode = true) :
  n.tree.EndsInToken
  := by
  apply (Site.isSome_lastToken? n).mp
  apply Option.isSome_iff_ne_none.mpr
  intro hnone
  have hfilled := filled_of_faults h
  have hnil := List.getLast?_eq_none_iff.mp ((Site.reaches_lastToken hn).complete hfilled hnone)
  apply hfilled n hn hne hnode
  rw [Tree.width_eq, ← Site.map_token_leaves, hnil]
  rfl

/-- The last significant token of a node is found just if the node ends with a token, and it is
the last one of its leaves. -/
theorem lastSignificant?_eq_some_iff (hn : n ∈ (ofText text).root.descendants)
    (hne : n ≠ (ofText text).root) (hnode : n.isNode = true) {l : Leaf} :
  n.lastSignificant? = some l
    ↔ n.tree.EndsInToken ∧ (Leaf.significant n.leaves).getLast? = some l
  := by
  have hreaches := Site.reaches_lastSignificant rfl (fun _ => width_pos_of_mem_leaves) hn
  constructor
  · intro hl
    refine ⟨(Site.isSome_lastToken? n).mp ?_, hreaches.sound l hl⟩
    obtain ⟨m, hm, -⟩ := Option.bind_eq_some_iff.mp hl
    rw [hm]
    rfl
  · rintro ⟨hends, hl⟩
    have hlinked := Site.shaped_of_children
      (Parse.shaped_children_ofText Parse.linked_ofTokens text) hn hne
    have hstarts := Site.shaped_of_children
      (Parse.shaped_children_ofText Parse.startsSignificant_ofTokens text) hn hne
    obtain ⟨m, hm⟩ := Site.exists_lastSignificant hlinked hstarts hnode hends
    rw [hm, ← hl, hreaches.sound m hm]

end SourceFile

end InlayHints
