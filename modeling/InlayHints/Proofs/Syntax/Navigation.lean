import Mathlib
import InlayHints.Proofs.Syntax.Boundary
import InlayHints.Proofs.Syntax.Lossless
import InlayHints.Proofs.Syntax.Site.Leaves

/-!
# Walks over tokens follow the list of leaves

From a token one walks to the next one through siblings and parents, and a walk ends where an
element starts with an empty node.  `SourceFile.navigates_leaves` says that walks agree with the
list of all leaves: the token that is found is the next leaf of the list that is not trivia, and it
is found unless some node below the file is empty.  The same holds of walks to the left, and of the
first and the last token of a node.

The argument goes along the way down to a site (`Site.Around`), since the element after a site is
its next sibling or else the element after its parent.
-/

namespace InlayHints

/-- A search finds nothing but what is there, and if it is free, it finds it. -/
structure Reaches (free : Prop) (found there : Option Leaf) : Prop where
  sound : ∀ u, found = some u → there = some u
  complete : free → found = none → there = none

namespace Reaches

variable {free : Prop} {found there : Option Leaf} {ls : List Leaf} {u : Leaf}

theorem refl (free : Prop) (there : Option Leaf) :
  Reaches free there there
  := ⟨fun _ h => h, fun _ h => h⟩

theorem eq (h : Reaches free found there) (hfree : free) :
  found = there
  := by
  cases hfound : found with
  | none => rw [h.complete hfree hfound]
  | some u => rw [h.sound u hfound]

/-- The first of some leaves is the first one when others follow, if there is any. -/
theorem head?_append (h : Reaches free found ls.head?) (hls : free → ls ≠ []) (ms : List Leaf) :
  Reaches free found (ls ++ ms).head?
  where
  sound u hu := by rw [List.head?_append, h.sound u hu, Option.some_or]
  complete hfree hnone := by
    apply absurd (List.head?_eq_none_iff.mp (h.complete hfree hnone)) (hls hfree)

/-- The last of some leaves is the last one when others stand before them, if there is any. -/
theorem getLast?_append (h : Reaches free found ls.getLast?) (hls : free → ls ≠ [])
    (ms : List Leaf) :
  Reaches free found (ms ++ ls).getLast?
  where
  sound u hu := by rw [List.getLast?_append, h.sound u hu, Option.some_or]
  complete hfree hnone := by
    apply absurd (List.getLast?_eq_none_iff.mp (h.complete hfree hnone)) (hls hfree)

variable {p : Leaf → Bool} {ms : List Leaf}

/-- Among some leaves and those that follow, where a condition tells the ones from the others. -/
theorem filter_head? (h : Reaches free found (ls ++ ms).head?) (hls : ∀ l ∈ ls, p l = true)
    (hms : ∀ m ∈ ms, p m = false) :
  Reaches free (found.filter p) ls.head?
  := by
  cases ls with
  | nil =>
    constructor
    · intro u hu
      obtain ⟨hfound, hp⟩ := Option.filter_eq_some_iff.mp hu
      rw [hms u (List.mem_of_head? (h.sound u hfound))] at hp
      contradiction
    · exact fun _ _ => rfl
  | cons l ls =>
    constructor
    · intro u hu
      apply h.sound u (Option.filter_eq_some_iff.mp hu).1
    · intro hfree hnone
      rw [h.eq hfree, List.cons_append, List.head?_cons,
        Option.filter_some_pos (hls l List.mem_cons_self)] at hnone
      contradiction

/-- The same from the other end. -/
theorem filter_getLast? (h : Reaches free found (ms ++ ls).getLast?)
    (hls : ∀ l ∈ ls, p l = true) (hms : ∀ m ∈ ms, p m = false) :
  Reaches free (found.filter p) ls.getLast?
  := by
  rw [← List.head?_reverse] at h ⊢
  rw [List.reverse_append] at h
  apply h.filter_head?
  · intro l hl
    apply hls l (List.mem_reverse.mp hl)
  · intro m hm
    apply hms m (List.mem_reverse.mp hm)

end Reaches

namespace Site

variable {root s e d : Site} {l : Leaf} {pre post : List Site} {before after : List Leaf}

/-! ### Elements next to a site -/

theorem firstToken?_of_elements (h : s.elements = e :: post) :
  s.firstToken? = e.firstToken?
  := by
  have hsplit : s.elements = [] ++ e :: post := h
  obtain ⟨kind, htree, hpath, hstart⟩ := path_of_elements hsplit
  rw [firstToken?, firstToken?, htree, hpath, hstart]
  rfl

theorem lastToken?_of_elements (h : s.elements = pre ++ [e]) :
  s.lastToken? = e.lastToken?
  := by
  obtain ⟨kind, htree, hpath, -⟩ := path_of_elements h
  rw [lastToken?, lastToken?, stop_eq_stop h, htree, hpath, lastIn]
  split
  · next hnil => simp at hnil
  · next c rest hcons =>
    rw [List.reverse_append] at hcons
    obtain ⟨rfl, rfl⟩ := List.cons.inj hcons
    rfl

/-- The element after a child is the next child, or else the element after the parent. -/
theorem elementAfter_of_elements (h : s.elements = pre ++ e :: post) :
  elementAfter e.stop e.tree e.path = post.head?.or (elementAfter s.stop s.tree s.path)
  := by
  obtain ⟨kind, htree, hpath, -⟩ := path_of_elements h
  rw [hpath]
  cases post with
  | nil =>
    have hplug : Frame.plug ⟨kind, (pre.map tree).reverse, []⟩ e.tree = s.tree := by
      rw [Frame.plug, List.reverseAux_eq, List.reverse_reverse, htree]
      rfl
    rw [elementAfter, stop_eq_stop h]
    simp only [List.map_nil, hplug, List.head?_nil, Option.none_or]
  | cons c post =>
    have hnext : s.elements = (pre ++ [e]) ++ c :: post := by rw [h, List.append_assoc]; rfl
    obtain ⟨kind', htree', hpath', -⟩ := path_of_elements hnext
    obtain rfl : kind = kind' := by
      rw [htree] at htree'
      apply (Tree.node.inj htree').1
    rw [List.map_append, List.reverse_append] at hpath'
    simp only [List.map_cons, elementAfter, List.head?_cons, Option.some_or, Option.some_inj]
    rw [← start_eq_stop h]
    obtain ⟨start, tree, path⟩ := c
    obtain rfl := hpath'
    rfl

/-- The element before a child is the previous child, or else the element before the parent. -/
theorem elementBefore_of_elements (h : s.elements = pre ++ e :: post) :
  elementBefore e.start e.tree e.path = pre.getLast?.or (elementBefore s.start s.tree s.path)
  := by
  obtain ⟨kind, htree, hpath, hstart⟩ := path_of_elements h
  rw [hpath]
  rcases List.eq_nil_or_concat pre with rfl | ⟨pre, c, rfl⟩
  · have hplug : Frame.plug ⟨kind, [], post.map tree⟩ e.tree = s.tree := by
      rw [htree]
      rfl
    rw [elementBefore]
    simp only [List.map_nil, List.reverse_nil, hplug, List.getLast?_nil, Option.none_or]
    rw [hstart]
    rfl
  · rw [List.concat_eq_append] at h htree ⊢
    rw [List.append_assoc] at h
    obtain ⟨kind', htree', hpath', -⟩ := path_of_elements h
    obtain rfl : kind = kind' := by
      rw [htree] at htree'
      apply (Tree.node.inj htree').1
    have hprevious : e.start - c.tree.width = c.start := by
      rw [start_eq_stop h, stop, Nat.add_sub_cancel]
    rw [List.map_append, List.reverse_append, List.getLast?_concat, Option.some_or]
    simp only [List.map_cons, List.map_nil, List.reverse_singleton, List.singleton_append,
      elementBefore, Option.some_inj]
    rw [hprevious]
    obtain ⟨start, tree, path⟩ := c
    obtain rfl := hpath'
    rfl

/-- The token that a walk from a site to the right finds. -/
def tokenAfter? (s : Site) : Option Leaf := (elementAfter s.stop s.tree s.path).bind firstToken?

/-- The token that a walk from a site to the left finds. -/
def tokenBefore? (s : Site) : Option Leaf :=
  (elementBefore s.start s.tree s.path).bind lastToken?

theorem tokenAfter?_site (l : Leaf) :
  l.site.tokenAfter? = l.next?
  := by
  rw [tokenAfter?, Leaf.next?, stop, Leaf.site, Tree.width_token]
  rfl

theorem tokenBefore?_site (l : Leaf) :
  l.site.tokenBefore? = l.previous?
  := rfl

/-! ### Walks from a site -/

/-- No node below a site, the site itself apart, is empty. -/
def Filled (root : Site) : Prop :=
  ∀ n ∈ root.descendants, n ≠ root → n.isNode = true → n.tree.width ≠ 0

/-- In a filled tree all elements have leaves. -/
theorem Filled.leaves_ne_nil (h : root.Filled) (hd : d ∈ root.descendants) (he : e ∈ d.elements) :
  e.leaves ≠ []
  := by
  intro hnil
  have htokens := e.map_token_leaves
  cases htree : e.tree with
  | token t =>
    rw [leaves_of_token htree] at hnil
    contradiction
  | node kind cs =>
    have hne : e ≠ root := by
      rintro rfl
      apply notMem_descendants_of_element he hd
    apply h e (element_mem_descendants hd he) hne (by rw [isNode, htree]; rfl)
    rw [Tree.width_eq, ← htokens, hnil]
    rfl

/-- A walk down to the first token of a site finds its first leaf. -/
theorem reaches_firstToken {d : Site} (hd : d ∈ root.descendants) :
  Reaches root.Filled d.firstToken? d.leaves.head?
  := by
  cases htree : d.tree with
  | token t =>
    rw [firstToken?, leaves_of_token htree, htree]
    apply Reaches.refl
  | node kind cs =>
    cases helements : d.elements with
    | nil =>
      have hcs : cs = [] := by
        have htrees := d.map_tree_elements
        rw [helements, htree] at htrees
        apply htrees.symm
      rw [firstToken?, leaves_of_node htree, helements, htree, hcs]
      apply Reaches.refl
    | cons e post =>
      have he : e ∈ d.elements := by rw [helements]; apply List.mem_cons_self
      rw [firstToken?_of_elements helements, leaves_of_node htree, helements, List.flatMap_cons]
      apply (reaches_firstToken (element_mem_descendants hd he)).head?_append
      intro hfilled
      apply hfilled.leaves_ne_nil hd he
termination_by sizeOf d.tree
decreasing_by exact sizeOf_tree_lt he

/-- A walk down to the last token of a site finds its last leaf. -/
theorem reaches_lastToken {d : Site} (hd : d ∈ root.descendants) :
  Reaches root.Filled d.lastToken? d.leaves.getLast?
  := by
  cases htree : d.tree with
  | token t =>
    have hstart : d.stop - t.width = d.start := by
      rw [stop, htree, Tree.width_token, Nat.add_sub_cancel]
    rw [lastToken?, leaves_of_token htree, htree, lastIn, hstart]
    apply Reaches.refl
  | node kind cs =>
    rcases List.eq_nil_or_concat d.elements with helements | ⟨pre, e, helements⟩
    · have hcs : cs = [] := by
        have htrees := d.map_tree_elements
        rw [helements, htree] at htrees
        apply htrees.symm
      have hlast : d.lastToken? = none := by
        rw [lastToken?, htree, hcs, lastIn]
        rfl
      rw [hlast, leaves_of_node htree, helements]
      apply Reaches.refl
    · rw [List.concat_eq_append] at helements
      have he : e ∈ d.elements := by rw [helements]; simp
      rw [lastToken?_of_elements helements, leaves_of_elements helements, List.flatMap_nil,
        List.append_nil]
      apply (reaches_lastToken (element_mem_descendants hd he)).getLast?_append
      intro hfilled
      apply hfilled.leaves_ne_nil hd he
termination_by sizeOf d.tree
decreasing_by exact sizeOf_tree_lt he

namespace Around

/-- A walk to the right finds the first of the leaves after a site. -/
theorem reaches_tokenAfter (hroot : root.path = []) (h : Around root d before after) :
  Reaches root.Filled d.tokenAfter? after.head?
  := by
  induction h with
  | root =>
    rw [tokenAfter?, hroot]
    apply Reaches.refl
  | @element s e before after pre post haround hsplit ih =>
    rw [tokenAfter?, elementAfter_of_elements hsplit]
    cases post with
    | nil => apply ih
    | cons c post =>
      have hc : c ∈ s.elements := by rw [hsplit]; simp
      have hs := haround.mem_descendants
      rw [List.flatMap_cons, List.append_assoc]
      apply (reaches_firstToken (element_mem_descendants hs hc)).head?_append
      intro hfilled
      apply hfilled.leaves_ne_nil hs hc

/-- A walk to the left finds the last of the leaves before a site. -/
theorem reaches_tokenBefore (hroot : root.path = []) (h : Around root d before after) :
  Reaches root.Filled d.tokenBefore? before.getLast?
  := by
  induction h with
  | root =>
    rw [tokenBefore?, hroot]
    apply Reaches.refl
  | @element s e before after pre post haround hsplit ih =>
    rw [tokenBefore?, elementBefore_of_elements hsplit]
    rcases List.eq_nil_or_concat pre with rfl | ⟨pre, c, rfl⟩
    · rw [List.flatMap_nil, List.append_nil]
      apply ih
    · rw [List.concat_eq_append] at hsplit ⊢
      have hc : c ∈ s.elements := by rw [hsplit]; simp
      have hs := haround.mem_descendants
      rw [List.getLast?_concat, List.flatMap_append, List.flatMap_singleton, ← List.append_assoc]
      apply (reaches_lastToken (element_mem_descendants hs hc)).getLast?_append
      intro hfilled
      apply hfilled.leaves_ne_nil hs hc

end Around

/-! ### Significant tokens -/

variable (hroot : root.path = [])

include hroot

/-- The next significant token is the first significant one of the leaves that follow. -/
theorem reaches_nextSignificant (h : root.leaves = before ++ l :: after) :
  Reaches root.Filled l.nextSignificant? (Leaf.significant after).head?
  := by
  have hreaches := (around_of_leaves h).reaches_tokenAfter hroot
  rw [tokenAfter?_site] at hreaches
  fun_induction Leaf.nextSignificant? l generalizing before after with
  | case1 l hnext =>
    constructor
    · intro u hu
      contradiction
    · intro hfilled _
      have hnil : after = [] := List.head?_eq_none_iff.mp (hreaches.complete hfilled hnext)
      rw [hnil]
      rfl
  | case2 l m hnext htrivia ih =>
    obtain ⟨after', rfl⟩ := List.head?_eq_some_iff.mp (hreaches.sound m hnext)
    have hm : root.leaves = (before ++ [l]) ++ m :: after' := by rw [h, List.append_assoc]; rfl
    rw [Leaf.significant_cons_of_trivia htrivia]
    apply ih hm
    rw [← tokenAfter?_site]
    apply (around_of_leaves hm).reaches_tokenAfter hroot
  | case3 l m hnext htrivia =>
    obtain ⟨after', rfl⟩ := List.head?_eq_some_iff.mp (hreaches.sound m hnext)
    rw [Leaf.significant_cons (Bool.eq_false_iff.mpr htrivia)]
    apply Reaches.refl

/-- The previous significant token is the last significant one of the leaves before. -/
theorem reaches_previousSignificant (h : root.leaves = before ++ l :: after) :
  Reaches root.Filled l.previousSignificant? (Leaf.significant before).getLast?
  := by
  have hreaches := (around_of_leaves h).reaches_tokenBefore hroot
  rw [tokenBefore?_site] at hreaches
  fun_induction Leaf.previousSignificant? l generalizing before after with
  | case1 l hprevious =>
    constructor
    · intro u hu
      contradiction
    · intro hfilled _
      have hnil : before = [] :=
        List.getLast?_eq_none_iff.mp (hreaches.complete hfilled hprevious)
      rw [hnil]
      rfl
  | case2 l m hprevious htrivia ih =>
    obtain ⟨before', rfl⟩ := List.getLast?_eq_some_iff.mp (hreaches.sound m hprevious)
    rw [List.append_assoc] at h
    rw [Leaf.significant_append, Leaf.significant_cons_of_trivia htrivia, Leaf.significant_nil,
      List.append_nil]
    apply ih h
    rw [← tokenBefore?_site]
    apply (around_of_leaves h).reaches_tokenBefore hroot
  | case3 l m hprevious htrivia =>
    obtain ⟨before', rfl⟩ := List.getLast?_eq_some_iff.mp (hreaches.sound m hprevious)
    rw [Leaf.significant_append, Leaf.significant_cons (Bool.eq_false_iff.mpr htrivia),
      Leaf.significant_nil, List.getLast?_concat]
    apply Reaches.refl

variable (hwidth : ∀ l ∈ root.leaves, 0 < l.token.width)

include hwidth

/-- The first significant token of a site is the first one of its leaves. -/
theorem reaches_firstSignificant (hd : d ∈ root.descendants) :
  Reaches root.Filled d.firstSignificant? (Leaf.significant d.leaves).head?
  := by
  obtain ⟨before, after, haround⟩ := exists_around d hd
  have hfirst := reaches_firstToken hd
  have hleaves := haround.leaves_eq
  have hinside : ∀ l ∈ d.leaves, l.stop ≤ d.stop := fun l hl => (bounds_of_mem_leaves hl).2
  rw [firstSignificant?]
  cases hfound : d.firstToken? with
  | none =>
    constructor
    · intro u hu
      contradiction
    · intro hfilled _
      rw [List.head?_eq_none_iff.mp (hfirst.complete hfilled hfound)]
      rfl
  | some l =>
    obtain ⟨rest, hrest⟩ := List.head?_eq_some_iff.mp (hfirst.sound l hfound)
    rw [hrest] at hinside hleaves ⊢
    rw [List.cons_append] at hleaves
    rw [Option.bind_some]
    split
    · next htrivia =>
      have hnext := reaches_nextSignificant hroot hleaves
      rw [Leaf.significant_append] at hnext
      rw [Leaf.significant_cons_of_trivia htrivia]
      -- the leaves that follow do not stop before the site does
      apply hnext.filter_head?
      · intro m hm
        apply decide_eq_true
        apply hinside m (List.mem_cons_of_mem l (List.mem_of_mem_filter hm))
      · intro m hm
        have hm : m ∈ after := List.mem_of_mem_filter hm
        have := hwidth m (by rw [hleaves]; simp [hm])
        have := haround.bounds.2 m hm
        apply decide_eq_false
        rw [Leaf.stop]
        omega
    · next htrivia =>
      rw [Leaf.significant_cons (Bool.eq_false_iff.mpr htrivia)]
      apply Reaches.refl

/-- The last significant token of a site is the last one of its leaves. -/
theorem reaches_lastSignificant (hd : d ∈ root.descendants) :
  Reaches root.Filled d.lastSignificant? (Leaf.significant d.leaves).getLast?
  := by
  obtain ⟨before, after, haround⟩ := exists_around d hd
  have hlast := reaches_lastToken hd
  have hleaves := haround.leaves_eq
  have hinside : ∀ l ∈ d.leaves, d.start ≤ l.start := fun l hl => (bounds_of_mem_leaves hl).1
  rw [lastSignificant?]
  cases hfound : d.lastToken? with
  | none =>
    constructor
    · intro u hu
      contradiction
    · intro hfilled _
      rw [List.getLast?_eq_none_iff.mp (hlast.complete hfilled hfound)]
      rfl
  | some l =>
    obtain ⟨rest, hrest⟩ := List.getLast?_eq_some_iff.mp (hlast.sound l hfound)
    rw [hrest] at hinside hleaves ⊢
    rw [List.append_assoc, ← List.append_assoc before] at hleaves
    rw [Option.bind_some, Leaf.significant_append]
    split
    · next htrivia =>
      have hprevious := reaches_previousSignificant hroot hleaves
      rw [Leaf.significant_append] at hprevious
      rw [Leaf.significant_cons_of_trivia htrivia, Leaf.significant_nil, List.append_nil]
      -- the leaves before do not start after the site does
      apply hprevious.filter_getLast?
      · intro m hm
        apply decide_eq_true
        apply hinside m (List.mem_append_left _ (List.mem_of_mem_filter hm))
      · intro m hm
        have hm : m ∈ before := List.mem_of_mem_filter hm
        have := hwidth m (by rw [hleaves]; simp [hm])
        have := haround.bounds.1 m hm
        apply decide_eq_false
        rw [Leaf.stop] at this
        omega
    · next htrivia =>
      rw [Leaf.significant_cons (Bool.eq_false_iff.mpr htrivia), Leaf.significant_nil,
        List.getLast?_concat]
      apply Reaches.refl

end Site

/-! ### Walks in a file -/

/-- What walks in a tree find is related to what the list of its leaves shows: the significant
leaves after a token and before it, and those of a node. -/
structure Site.Navigates (R : Option Leaf → Option Leaf → Prop) (root : Site) : Prop where
  next : ∀ {before l after}, root.leaves = before ++ l :: after →
    R l.nextSignificant? (Leaf.significant after).head?
  previous : ∀ {before l after}, root.leaves = before ++ l :: after →
    R l.previousSignificant? (Leaf.significant before).getLast?
  first : ∀ {p} (n : NodeSite p), n.site ∈ root.descendants →
    R n.firstToken? (Leaf.significant n.site.leaves).head?
  last : ∀ {p} (n : NodeSite p), n.site ∈ root.descendants →
    R n.lastToken? (Leaf.significant n.site.leaves).getLast?

theorem Site.Navigates.mono {R S : Option Leaf → Option Leaf → Prop} {root : Site}
    (h : root.Navigates R) (hRS : ∀ {found there}, R found there → S found there) :
  root.Navigates S
  where
  next hleaves := hRS (h.next hleaves)
  previous hleaves := hRS (h.previous hleaves)
  first n hn := hRS (h.first n hn)
  last n hn := hRS (h.last n hn)

namespace SourceFile

variable {text : String}

theorem map_leaves_root (h : text.utf8ByteSize ≤ countLimit) :
  ((ofText text).root.leaves.map fun l => (l.start, l.token))
    = Token.withStarts (Token.lex text)
  := by
  have htokens : (ofText text).root.tree.tokens = Token.lex text := Parse.tokens_ofText h
  rw [Site.map_leaves, htokens, Token.withStarts_eq]
  rfl

theorem width_pos_of_mem_leaves {l : Leaf} (hl : l ∈ (ofText text).root.leaves) :
  0 < l.token.width
  := by
  have hmem : l.token ∈ (ofText text).root.tree.tokens := by
    rw [← Site.map_token_leaves]
    apply List.mem_map_of_mem hl
  apply (Lexer.cuts_pieces text).width_pos
  apply (Parse.prefix_tokens_ofText text).subset hmem

theorem navigates_reaches (text : String) :
  (ofText text).root.Navigates (Reaches (ofText text).root.Filled)
  where
  next := Site.reaches_nextSignificant rfl
  previous := Site.reaches_previousSignificant rfl
  first _ hn := Site.reaches_firstSignificant rfl (fun _ => width_pos_of_mem_leaves) hn
  last _ hn := Site.reaches_lastSignificant rfl (fun _ => width_pos_of_mem_leaves) hn

/-- In a text without faults no node below the file is empty. -/
theorem filled_of_faults (h : (ofText text).parse.faults = []) :
  (ofText text).root.Filled
  := by
  intro n hn hne hnode hwidth
  obtain ⟨kind, hkind, htokens⟩ := Site.exists_kind_of_isNode hnode
  have hshaped : n.tree.Shaped Tree.EndsSignificant :=
    Site.shaped_of_children
      (Parse.shaped_children_of_faults Parse.endsSignificant_ofTokens h) hn hne
  obtain ⟨t, ht, -⟩ := Site.fits_of_shaped hshaped hkind
  rw [← htokens] at ht
  -- the last token of the node would be without width
  rw [← Site.map_token_leaves] at ht
  obtain ⟨l, hl, -⟩ := List.mem_map.mp (List.mem_of_getLast? (Option.mem_def.mp ht))
  have := width_pos_of_mem_leaves (Site.leaves_subset hn hl)
  have := Site.bounds_of_mem_leaves hl
  rw [Leaf.stop, Site.stop] at this
  omega

/-- The leaves of the tree of a text that is not too long are its tokens, at their offsets.  In any
text, walks follow the leaves: the token found after a token, before it, at the start of a node or
at its end is the nearest significant leaf there.  Unless some node below the file is empty, as
none is in a text without faults, walks find a token whenever there is one. -/
theorem navigates_leaves (text : String) :
  (text.utf8ByteSize ≤ countLimit →
      ((ofText text).root.leaves.map fun l => (l.start, l.token))
        = Token.withStarts (Token.lex text))
    ∧ (ofText text).root.Navigates (fun found there => ∀ u, found = some u → there = some u)
    ∧ ((ofText text).root.Filled → (ofText text).root.Navigates Eq)
    ∧ ((ofText text).parse.faults = [] → (ofText text).root.Filled)
  := by
  have hreaches := navigates_reaches text
  refine ⟨map_leaves_root, hreaches.mono Reaches.sound, ?_, filled_of_faults⟩
  intro hfilled
  apply hreaches.mono
  intro found there h
  apply h.eq hfilled

/-- In a text without faults all walks find what there is. -/
theorem navigates_leaves_faultless :
  (ofText "fn f(a: u8) void {}").parse.faults = []
    ∧ (ofText "fn f(a: u8) void {}").root.Navigates Eq
  := by
  have hfaults : (ofText "fn f(a: u8) void {}").parse.faults = [] := by decide +kernel
  obtain ⟨-, -, hnavigates, hfilled⟩ := navigates_leaves "fn f(a: u8) void {}"
  exact ⟨hfaults, hnavigates (hfilled hfaults)⟩

/-- A missing parameter is an empty node, and it stops the walk from the parenthesis before it. -/
example :
  ((ofText "fn f(, b: u8) void {}").root.leaves.any fun l =>
    l.kind = .lParen && l.nextSignificant? = none) = true
  := by
  cbv

end SourceFile

end InlayHints
