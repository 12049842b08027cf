import InlayHints.Hint.Request
import InlayHints.Proofs.Hint.Selection
import InlayHints.Proofs.Syntax.Site.Preorder

/-!
# A range selects siblings

The way down from a file to the smallest nodes that a range touches ends at one node, and what
is selected are the children of that node that the range touches (`Site.exists_selected_eq`).
This is so also where a single node is selected for its own sake: it is then the only child of
its parent that the range touches.  On the way down the range touches one child only, so all
that it touches besides lies on the way.  So the selected nodes are siblings, in the order of
the text, and what the range touches is either below one of them or around all of them.
-/

namespace InlayHints

namespace TextRange

variable {r s : TextRange}

/-- The ranges have an offset in common, ends included. -/
def Meets (r s : TextRange) : Prop :=
  ∃ offset, (r.start ≤ offset ∧ offset ≤ r.stop) ∧ s.start ≤ offset ∧ offset ≤ s.stop

theorem touches_iff_meets :
  r.touches s = true ↔ r.Meets s
  := by
  have hr := r.start_le_stop
  have hs := s.start_le_stop
  rw [touches_iff]
  constructor
  · intro h
    use max r.start s.start
    omega
  · rintro ⟨offset, h⟩
    omega

end TextRange

namespace Site

variable {s e d n c q file : Site} {r : TextRange}

/-! ### Touched children -/

theorem touched_sublist (s : Site) (r : TextRange) :
  (s.touched r).Sublist s.elements
  := List.filter_sublist.trans List.filter_sublist

/-- What lies below a child of a site below `n` lies below a child of `n`. -/
theorem exists_element_of_mem_elements {n q d : Site} (hq : q ∈ n.descendants)
    (hd : d ∈ q.elements) :
  ∃ e ∈ n.elements, d ∈ e.descendants
  := by
  rw [descendants_eq] at hq
  rcases List.mem_cons.mp hq with rfl | hq
  · exact ⟨d, hd, self_mem_descendants d⟩
  · obtain ⟨e, he, hq⟩ := List.mem_flatMap.mp hq
    use e, he
    apply (descendants_sublist hq).subset
    apply mem_descendants_of_element hd (self_mem_descendants d)

/-! ### The way down -/

/-- The way down from a file ends at `q`: whatever the range touches below the file lies below a
child of `q` that the range touches, or around `q`, on the way. -/
structure EndsAt (file : Site) (r : TextRange) (q : Site) : Prop where
  below : q ∈ file.descendants
  touched : ∀ n ∈ file.descendants, n ≠ file → n.isNode = true → n.range.touches r = true →
    (∃ c ∈ q.touched r, n ∈ c.descendants) ∨ q ∈ n.descendants

/-- The way may end where it starts. -/
theorem endsAt_self (file : Site) (r : TextRange) :
  file.EndsAt r file
  where
  below := self_mem_descendants file
  touched _ hn hne hnode htouches := Or.inl (exists_touched hn hne hnode htouches)

/-- The way may go on from the only child that the range touches. -/
theorem EndsAt.child (h : c.EndsAt r q) (hc : s.touched r = [c]) :
  s.EndsAt r q
  where
  below := by
    have hmem : c ∈ s.touched r := by rw [hc]; apply List.mem_cons_self
    apply mem_descendants_of_element (mem_elements_of_touched hmem) h.below
  touched := by
    intro n hn hne hnode htouches
    obtain ⟨c', hc', hn⟩ := exists_touched hn hne hnode htouches
    rw [hc, List.mem_singleton] at hc'
    rw [hc'] at hn
    by_cases heq : n = c
    · rw [heq]
      apply Or.inr h.below
    · apply h.touched n hn heq hnode htouches

/-- Below the only child that the range touches, the smallest nodes are the touched children of
the node where the way ends. -/
theorem exists_smallest_eq (hc : s.touched r = [c]) :
  ∃ q, s.EndsAt r q ∧ c.smallest r = q.touched r
  := by
  fun_induction smallest c r generalizing s with
  | case1 c _ => exact ⟨s, endsAt_self s r, hc.symm⟩
  | case2 c _ _ => exact ⟨s, endsAt_self s r, hc.symm⟩
  | case3 c _ c' hc' _ ih =>
    obtain ⟨q, hends, heq⟩ := ih hc'
    exact ⟨q, hends.child hc, heq⟩
  | case4 c _ c' hc' _ => exact ⟨c, (endsAt_self c r).child hc, hc'.symm⟩
  | case5 c _ _ _ => exact ⟨c, (endsAt_self c r).child hc, rfl⟩

/-- What a range selects are the touched children of the node where the way down ends. -/
theorem exists_selected_eq (file : Site) (r : TextRange) :
  ∃ q, file.EndsAt r q ∧ file.selected r = q.touched r
  := by
  unfold selected
  split
  · next hnil => exact ⟨file, endsAt_self file r, hnil.symm⟩
  · next c hc =>
    split
    · apply exists_smallest_eq hc
    · exact ⟨file, endsAt_self file r, hc.symm⟩
  · exact ⟨file, endsAt_self file r, rfl⟩

theorem smallest_ne_nil (s : Site) (r : TextRange) :
  s.smallest r ≠ []
  := by
  fun_induction smallest s r with
  | case1 s _ => apply List.cons_ne_nil
  | case2 s _ _ => apply List.cons_ne_nil
  | case3 s _ c _ _ ih => apply ih
  | case4 s _ c _ _ => apply List.cons_ne_nil
  | case5 s _ hnil _ => apply hnil

/-- Nothing is selected exactly if the range touches no child of the file. -/
theorem selected_eq_nil :
  file.selected r = [] ↔ file.touched r = []
  := by
  unfold selected
  split
  · next hnil => rw [hnil]
  · next c hc =>
    rw [hc]
    split
    · apply iff_of_false (smallest_ne_nil c r) (List.cons_ne_nil _ _)
    · rfl
  · rfl

/-! ### Selections -/

/-- What it means for nodes to be selected by a range: they are distinct siblings below the file,
in the order of the text, and the range touches them.  Whatever else it touches is a part of one
of them or has all of them as parts.  There are none only if the range touches nothing. -/
structure IsSelection (file : Site) (r : TextRange) (selected : List Site) : Prop where
  distinct : selected.Nodup
  ordered : selected.Sublist file.descendants
  siblings : ∃ parent ∈ file.descendants, ∀ s ∈ selected, s ∈ parent.nodes
  nonroot : ∀ s ∈ selected, s ≠ file
  touched : ∀ s ∈ selected, s.range.Meets r
  complete : ∀ n ∈ file.descendants, n ≠ file → n.isNode = true → n.range.Meets r →
    (∃ s ∈ selected, n ∈ s.descendants) ∨ ∀ s ∈ selected, ∃ e ∈ n.elements, s ∈ e.descendants
  empty : selected = [] ↔
    ∀ n ∈ file.descendants, n ≠ file → n.isNode = true → ¬ n.range.Meets r

/-- A child of a site below is not the site itself. -/
theorem ne_of_mem_elements (hq : q ∈ file.descendants) (hd : d ∈ q.elements) :
  d ≠ file
  := by
  rintro rfl
  obtain ⟨e, he, hd⟩ := exists_element_of_mem_elements hq hd
  apply notMem_descendants_of_element he hd

theorem isSelection_selected (file : Site) (r : TextRange) :
  file.IsSelection r (file.selected r)
  := by
  obtain ⟨q, hends, heq⟩ := exists_selected_eq file r
  have hordered : (file.selected r).Sublist file.descendants := by
    rw [heq]
    apply ((touched_sublist q r).trans q.elements_sublist_descendants).trans
    apply descendants_sublist hends.below
  constructor
  · apply (nodup_descendants file).sublist hordered
  · apply hordered
  · use q, hends.below
    intro s hs
    rw [heq] at hs
    apply List.mem_of_mem_filter hs
  · intro s hs
    rw [heq] at hs
    apply ne_of_mem_elements hends.below (mem_elements_of_touched hs)
  · intro s hs
    rw [heq] at hs
    apply TextRange.touches_iff_meets.mp (mem_touched.mp hs).2.2
  · intro n hn hne hnode hmeets
    rw [heq]
    apply (hends.touched n hn hne hnode (TextRange.touches_iff_meets.mpr hmeets)).imp_right
    intro hq s hs
    apply exists_element_of_mem_elements hq (mem_elements_of_touched hs)
  · rw [selected_eq_nil]
    constructor
    · intro hnil n hn hne hnode hmeets
      obtain ⟨c, hc, -⟩ := exists_touched hn hne hnode
        (TextRange.touches_iff_meets.mpr hmeets)
      rw [hnil] at hc
      contradiction
    · intro hnone
      apply List.eq_nil_iff_forall_not_mem.mpr
      intro c hc
      obtain ⟨helement, hnode, htouches⟩ := mem_touched.mp hc
      apply hnone c (mem_descendants_of_touched hc) _ hnode
        (TextRange.touches_iff_meets.mp htouches)
      apply ne_of_mem_elements (self_mem_descendants file) helement

end Site

/-- The sites that a request visits are listed in the order of all sites of the file. -/
theorem visitedSites_sublist (file : SourceFile) (range : TextRange) :
  (visitedSites file range).Sublist file.root.descendants
  := by
  obtain ⟨q, hends, heq⟩ := Site.exists_selected_eq file.root range
  rw [visitedSites, heq]
  apply (Site.flatMap_descendants_sublist (Site.touched_sublist q range)).trans
  apply Site.descendants_sublist hends.below

/-- For every file and every range, the selected nodes are distinct siblings in the order of the
text which the range touches, and what it touches besides lies below one of them or around all
of them.  So no site is visited twice. -/
theorem selected_siblings (file : SourceFile) (range : TextRange) :
  file.root.IsSelection range (file.root.selected range) ∧ (visitedSites file range).Nodup
  := by
  use Site.isSelection_selected file.root range
  apply (Site.nodup_descendants file.root).sublist (visitedSites_sublist file range)

end InlayHints
