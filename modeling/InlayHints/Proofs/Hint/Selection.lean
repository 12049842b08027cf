import InlayHints.Hint.Selection
import InlayHints.Proofs.Syntax.Site.Placement

/-!
# What a range selects

The sites that a range selects lie below the file, and so does everything that is visited
below them.  A node inside the range is visited, unless the way down passes it by
(`Site.PassedBy`): its range is the range asked for, no token of its own stops the way, and
all that is selected lies below it.
-/

namespace InlayHints

/-! ### Ranges -/

namespace TextRange

variable {r s t : TextRange}

theorem contains_iff :
  r.contains s = true ↔ r.start ≤ s.start ∧ s.stop ≤ r.stop
  := by
  rw [contains, Bool.and_eq_true, decide_eq_true_eq, decide_eq_true_eq]

theorem contains_refl (r : TextRange) :
  r.contains r = true
  := contains_iff.mpr ⟨Nat.le_refl _, Nat.le_refl _⟩

theorem contains_trans (h : r.contains s = true) (h' : s.contains t = true) :
  r.contains t = true
  := by
  rw [contains_iff] at h h' ⊢
  omega

theorem contains_antisymm (h : r.contains s = true) (h' : s.contains r = true) :
  r = s
  := by
  rw [contains_iff] at h h'
  rw [mk.injEq]
  omega

theorem touches_iff :
  r.touches s = true ↔ r.start ≤ s.stop ∧ s.start ≤ r.stop
  := by
  rw [touches, Bool.and_eq_true, decide_eq_true_eq, decide_eq_true_eq]

/-- Ranges that both contain a third one touch. -/
theorem touches_of_contains (h : r.contains t = true) (h' : s.contains t = true) :
  r.touches s = true
  := by
  have := t.start_le_stop
  rw [contains_iff] at h h'
  rw [touches_iff]
  omega

/-- A range that touches what lies in another range touches the other range. -/
theorem touches_of_contains_of_touches (h : r.contains s = true) (hs : s.touches t = true) :
  r.touches t = true
  := by
  rw [contains_iff] at h
  rw [touches_iff] at hs ⊢
  omega

/-- A range touches all that lies in it. -/
theorem touches_of_inside (h : r.contains s = true) :
  s.touches r = true
  := touches_of_contains (contains_refl s) h

end TextRange

namespace Site

variable {s e d n c : Site} {r : TextRange}

/-! ### Sites below a site -/

/-- The range of a child lies in that of its parent. -/
theorem contains_range_of_mem_elements (he : e ∈ s.elements) :
  s.range.contains e.range = true
  := by
  obtain ⟨kind, before, after, htree, hstart, -⟩ := exists_of_mem_elements he
  have hwidth := Tree.width_eq s.tree
  rw [htree, Tree.tokens_node, List.flatMap_append, List.flatMap_cons, Token.totalWidth_append,
    Token.totalWidth_append, ← Tree.width_eq e.tree, ← htree] at hwidth
  rw [TextRange.contains_iff]
  simp only [range, TextRange.ofWidth]
  omega

/-- The range of a site below another one lies in that of the other one. -/
theorem contains_range_of_mem_descendants :
  ∀ d ∈ s.descendants, s.range.contains d.range = true
  := by
  have hstep : ∀ {d e : Site}, s.range.contains d.range = true → e ∈ d.elements →
      s.range.contains e.range = true := by
    intro d e hd he
    apply TextRange.contains_trans hd (contains_range_of_mem_elements he)
  apply forall_descendants hstep (TextRange.contains_refl s.range)

/-- Nodes lie below nodes only. -/
theorem isNode_of_mem_descendants (hn : n ∈ e.descendants) (hnode : n.isNode = true) :
  e.isNode = true
  := by
  rw [descendants_eq] at hn
  rcases List.mem_cons.mp hn with rfl | hn
  · apply hnode
  · obtain ⟨e', he', -⟩ := List.mem_flatMap.mp hn
    obtain ⟨kind, before, after, htree, -⟩ := exists_of_mem_elements he'
    rw [isNode, htree]
    rfl

/-! ### Selected sites -/

theorem mem_elements_of_touched (hc : c ∈ s.touched r) :
  c ∈ s.elements
  := (List.mem_filter.mp (List.mem_filter.mp hc).1).1

theorem mem_descendants_of_touched (hc : c ∈ s.touched r) :
  c ∈ s.descendants
  := mem_descendants_of_element (mem_elements_of_touched hc) (self_mem_descendants c)

theorem mem_descendants_of_smallest (hd : d ∈ s.smallest r) :
  d ∈ s.descendants
  := by
  fun_induction smallest s r with
  | case1 s _ =>
    rw [List.mem_singleton.mp hd]
    apply self_mem_descendants
  | case2 s _ _ =>
    rw [List.mem_singleton.mp hd]
    apply self_mem_descendants
  | case3 s _ c hc _ ih =>
    have hmem : c ∈ s.touched r := by rw [hc]; apply List.mem_cons_self
    apply mem_descendants_of_element (mem_elements_of_touched hmem) (ih hd)
  | case4 s _ c hc _ =>
    rw [← hc] at hd
    apply mem_descendants_of_touched hd
  | case5 s _ _ _ => apply mem_descendants_of_touched hd

/-- What a range selects lies below the file. -/
theorem mem_descendants_of_selected (hd : d ∈ s.selected r) :
  d ∈ s.descendants
  := by
  unfold selected at hd
  split at hd
  · contradiction
  · next c hc =>
    have hmem : c ∈ s.touched r := by rw [hc]; apply List.mem_cons_self
    split at hd
    · apply mem_descendants_of_element (mem_elements_of_touched hmem)
        (mem_descendants_of_smallest hd)
    · rw [← hc] at hd
      apply mem_descendants_of_touched hd
  · apply mem_descendants_of_touched hd

/-! ### Nodes inside the range -/

/-- The way down to what is selected passes a node by: the range asked for is that of the node,
the node has no token of its own but trivia, and all that is selected lies below it. -/
structure PassedBy (r : TextRange) (selected : List Site) (n : Site) : Prop where
  range_eq : n.range = r
  ownTokens : ∀ l ∈ n.ownTokens, l.isTrivia = true
  below : ∀ s ∈ selected, ∃ e ∈ n.elements, s ∈ e.descendants

/-- The tokens of a node lie in its range. -/
theorem contains_range_of_mem_ownTokens {l : Leaf} (hl : l ∈ s.ownTokens) :
  s.range.contains l.range = true
  := by
  obtain ⟨e, he, hleaf⟩ := List.mem_filterMap.mp hl
  unfold leaf? at hleaf
  split at hleaf
  · next t heq =>
    obtain rfl := Option.some_inj.mp hleaf
    have hrange := contains_range_of_mem_elements he
    rw [range.eq_1 e, heq, Tree.width_token] at hrange
    apply hrange
  · contradiction

/-- A node that the range lies in, and that lies in the range, is passed by if its tokens do not
stop the way and something below it is selected. -/
theorem passedBy_self (hs : s.range.contains r = true) (hin : r.contains s.range = true)
    (hown : ¬ s.touchesOwnToken r = true) {selected : List Site}
    (hbelow : ∀ d ∈ selected, ∃ e ∈ s.elements, d ∈ e.descendants) :
  PassedBy r selected s
  where
  range_eq := TextRange.contains_antisymm hs hin
  ownTokens := by
    intro l hl
    have htouches : l.range.touches r = true := by
      apply TextRange.touches_of_inside
      apply TextRange.contains_trans hin (contains_range_of_mem_ownTokens hl)
    cases htrivia : l.isTrivia with
    | true => rfl
    | false =>
      apply absurd _ hown
      apply List.any_eq_true.mpr
      use l, hl
      rw [htrivia, htouches]
      rfl
  below := hbelow

theorem mem_touched :
  c ∈ s.touched r ↔ c ∈ s.elements ∧ c.isNode = true ∧ c.range.touches r = true
  := by
  rw [touched, nodes, List.mem_filter, List.mem_filter, and_assoc]

/-- A node that the range touches, below a site, lies below a child that the range touches. -/
theorem exists_touched (hn : n ∈ s.descendants) (hne : n ≠ s) (hnode : n.isNode = true)
    (htouches : n.range.touches r = true) :
  ∃ c ∈ s.touched r, n ∈ c.descendants
  := by
  rw [descendants_eq] at hn
  obtain ⟨e, he, hn⟩ := List.mem_flatMap.mp ((List.mem_cons.mp hn).resolve_left hne)
  use e
  constructor
  · apply mem_touched.mpr ⟨he, isNode_of_mem_descendants hn hnode, _⟩
    apply TextRange.touches_of_contains_of_touches (contains_range_of_mem_descendants n hn)
      htouches
  · apply hn

theorem below_of_touched :
  ∀ d ∈ s.touched r, ∃ e ∈ s.elements, d ∈ e.descendants
  := by
  intro d hd
  use d, mem_elements_of_touched hd
  apply self_mem_descendants

/-- Below a site that the range lies in, a node inside the range lies below what is selected or
is passed by. -/
theorem visited_of_smallest (hs : s.range.contains r = true) (hn : n ∈ s.descendants)
    (hnode : n.isNode = true) (hin : r.contains n.range = true) :
  n ∈ (s.smallest r).flatMap descendants ∨ PassedBy r (s.smallest r) n
  := by
  have htouches := TextRange.touches_of_inside hin
  fun_induction smallest s r with
  | case1 s _ => apply Or.inl (List.mem_flatMap.mpr ⟨s, List.mem_cons_self, hn⟩)
  | case2 s _ _ => apply Or.inl (List.mem_flatMap.mpr ⟨s, List.mem_cons_self, hn⟩)
  | case3 s hown c hc hcontains ih =>
    by_cases hne : n = s
    · obtain rfl := hne
      apply Or.inr (passedBy_self hs hin hown _)
      intro d hd
      have hmem : c ∈ n.touched r := by rw [hc]; apply List.mem_cons_self
      use c, mem_elements_of_touched hmem
      apply mem_descendants_of_smallest hd
    · obtain ⟨c', hc', hn⟩ := exists_touched hn hne hnode htouches
      rw [hc, List.mem_singleton] at hc'
      rw [hc'] at hn
      apply ih hcontains hn
  | case4 s hown c hc hcontains =>
    rw [← hc]
    by_cases hne : n = s
    · obtain rfl := hne
      apply Or.inr (passedBy_self hs hin hown below_of_touched)
    · apply Or.inl (List.mem_flatMap.mpr (exists_touched hn hne hnode htouches))
  | case5 s hown _ _ =>
    by_cases hne : n = s
    · obtain rfl := hne
      apply Or.inr (passedBy_self hs hin hown below_of_touched)
    · apply Or.inl (List.mem_flatMap.mpr (exists_touched hn hne hnode htouches))

/-- A node below a file and inside the range lies below what is selected or is passed by. -/
theorem visited_of_selected (hn : n ∈ s.descendants) (hne : n ≠ s) (hnode : n.isNode = true)
    (hin : r.contains n.range = true) :
  n ∈ (s.selected r).flatMap descendants ∨ PassedBy r (s.selected r) n
  := by
  have htouches := TextRange.touches_of_inside hin
  obtain ⟨c, hc, hn⟩ := exists_touched hn hne hnode htouches
  unfold selected
  split
  · next hnil =>
    rw [hnil] at hc
    contradiction
  · next c' hc' =>
    rw [hc', List.mem_singleton] at hc
    obtain rfl := hc
    split
    · next hcontains => apply visited_of_smallest hcontains hn hnode hin
    · apply Or.inl (List.mem_flatMap.mpr ⟨c, List.mem_cons_self, hn⟩)
  · apply Or.inl (List.mem_flatMap.mpr ⟨c, hc, hn⟩)

end Site

end InlayHints
