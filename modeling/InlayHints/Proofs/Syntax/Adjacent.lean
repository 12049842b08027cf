import InlayHints.Proofs.Syntax.Trailing

/-!
# Tokens next to each other

If two tokens stand next to each other among the parts of a node, then only trivia is between
them, and a walk over significant tokens leads from each of them to the other one
(`Site.nextSignificant?_of_parts`, `Site.previousSignificant?_of_parts`).
-/

namespace InlayHints

namespace Leaf

variable {l m : Leaf}

theorem nextSignificant?_of_next? (h : l.next? = some m) :
  l.nextSignificant? = if m.isTrivia then m.nextSignificant? else some m
  := by
  rw [nextSignificant?]
  split
  · next hnone =>
    rw [h] at hnone
    contradiction
  · next u hu =>
    obtain rfl : m = u := Option.some_inj.mp (h.symm.trans hu)
    rfl

theorem previousSignificant?_of_previous? (h : l.previous? = some m) :
  l.previousSignificant? = if m.isTrivia then m.previousSignificant? else some m
  := by
  rw [previousSignificant?]
  split
  · next hnone =>
    rw [h] at hnone
    contradiction
  · next u hu =>
    obtain rfl : m = u := Option.some_inj.mp (h.symm.trans hu)
    rfl

end Leaf

namespace Site

variable {s e d : Site} {l m : Leaf} {pre post gap : List Site}

theorem lastToken?_site (l : Leaf) :
  l.site.lastToken? = some l
  := by
  have hstart : l.site.stop - l.token.width = l.start := by
    rw [stop, Leaf.site, Tree.width_token, Nat.add_sub_cancel]
  have hlast : l.site.lastToken? = some ⟨l.site.stop - l.token.width, l.token, l.path⟩ := by
    rw [lastToken?, Leaf.site, lastIn]
  rw [hlast, hstart]

/-- Trivia at a site is a token. -/
theorem exists_leaf_of_isTrivia (h : e.tree.isTrivia = true) :
  ∃ l : Leaf, l.site = e ∧ l.isTrivia = true
  := by
  obtain ⟨start, tree, path⟩ := e
  cases tree with
  | token t => exact ⟨⟨start, t, path⟩, rfl, h⟩
  | node kind cs => contradiction

/-- The token after a child that is a token is the first one of the child after it. -/
theorem next?_of_elements (h : s.elements = pre ++ l.site :: e :: post) :
  l.next? = e.firstToken?
  := by
  rw [← tokenAfter?_site, tokenAfter?, elementAfter_of_elements h]
  rfl

/-- From a token the walk leads over trivia to the significant token behind it. -/
theorem nextSignificant?_of_elements (h : s.elements = pre ++ l.site :: (gap ++ m.site :: post))
    (hgap : ∀ e ∈ gap, e.tree.isTrivia = true) (hm : m.isTrivia = false) :
  l.nextSignificant? = some m
  := by
  induction gap generalizing l pre with
  | nil =>
    have hnext : l.next? = some m := next?_of_elements h
    rw [Leaf.nextSignificant?_of_next? hnext, hm]
    rfl
  | cons e gap ih =>
    obtain ⟨u, rfl, htrivia⟩ := exists_leaf_of_isTrivia (hgap e List.mem_cons_self)
    have hnext : l.next? = some u := next?_of_elements h
    have hrest : s.elements = (pre ++ [l.site]) ++ u.site :: (gap ++ m.site :: post) := by
      rw [h, List.append_assoc]
      rfl
    rw [Leaf.nextSignificant?_of_next? hnext, if_pos htrivia]
    apply ih hrest fun e he => hgap e (List.mem_cons_of_mem _ he)

/-- From a token the walk leads back over trivia to the significant token before it. -/
theorem previousSignificant?_of_elements
    (h : s.elements = pre ++ l.site :: (gap ++ m.site :: post))
    (hgap : ∀ e ∈ gap, e.tree.isTrivia = true) (hl : l.isTrivia = false) :
  m.previousSignificant? = some l
  := by
  induction gap using List.reverseRecOn generalizing m post with
  | nil =>
    have hsplit : s.elements = pre ++ [l.site] ++ m.site :: post := by
      rw [h, List.append_assoc]
      rfl
    rw [Leaf.previousSignificant?_of_previous?
      ((previous?_of_elements hsplit).trans (lastToken?_site l)), hl]
    rfl
  | append_singleton gap e ih =>
    obtain ⟨u, rfl, htrivia⟩ := exists_leaf_of_isTrivia (hgap e (by simp))
    have hsplit : s.elements = (pre ++ l.site :: gap) ++ [u.site] ++ m.site :: post := by
      simp [h]
    have hrest : s.elements = pre ++ l.site :: (gap ++ u.site :: (m.site :: post)) := by
      simp [h]
    rw [Leaf.previousSignificant?_of_previous?
      ((previous?_of_elements hsplit).trans (lastToken?_site u)), if_pos htrivia]
    apply ih hrest fun e he => hgap e (List.mem_append_left _ he)

/-- Between parts next to each other there is only trivia. -/
theorem exists_gap (h : s.parts = pre ++ e :: d :: post) :
  ∃ pre' gap post', s.elements = pre' ++ e :: (gap ++ d :: post')
    ∧ ∀ g ∈ gap, g.tree.isTrivia = true
  := by
  obtain ⟨pre', rest, hsplit, -, hrest⟩ := List.filter_eq_append_iff.mp h
  obtain ⟨before, rest', rfl, -, -, hrest'⟩ := List.filter_eq_cons_iff.mp hrest
  obtain ⟨gap, post', rfl, hgap, -, -⟩ := List.filter_eq_cons_iff.mp hrest'
  refine ⟨pre' ++ before, gap, post', ?_, ?_⟩
  · rw [hsplit, List.append_assoc]
  · intro g hg
    simpa using hgap g hg

theorem nextSignificant?_of_parts (h : s.parts = pre ++ l.site :: m.site :: post) :
  l.nextSignificant? = some m
  := by
  have hm : m.site ∈ s.parts := by rw [h]; simp
  obtain ⟨pre', gap, post', hsplit, hgap⟩ := exists_gap h
  apply nextSignificant?_of_elements hsplit hgap (mem_parts.mp hm).2

theorem previousSignificant?_of_parts (h : s.parts = pre ++ l.site :: m.site :: post) :
  m.previousSignificant? = some l
  := by
  have hl : l.site ∈ s.parts := by rw [h]; simp
  obtain ⟨pre', gap, post', hsplit, hgap⟩ := exists_gap h
  apply previousSignificant?_of_elements hsplit hgap (mem_parts.mp hl).2

end Site

end InlayHints
