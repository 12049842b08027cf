import Mathlib.Data.List.Flatten
import Mathlib.Data.List.Nodup
import InlayHints.Proofs.Syntax.Site.Placement

/-!
# The order of sites

The sites below a site are listed in the order in which they start, outer ones first.  In this
list every site stands once (`Site.nodup_descendants`), since a site knows its way to the root:
sites below different children have different ways.  The children of a site are listed in their
order, and so are all sites below a site below (`Site.descendants_sublist`).
-/

namespace InlayHints

namespace Site

variable {s e d a b : Site}

/-! ### Ways to the root -/

/-- The way from a site to the root leads over all sites that it lies below. -/
theorem path_suffix_of_mem_descendants :
  ∀ d ∈ s.descendants, s.path <:+ d.path
  := by
  have hstep : ∀ {d e : Site}, s.path <:+ d.path → e ∈ d.elements → s.path <:+ e.path := by
    intro d e hd he
    obtain ⟨kind, before, after, -, -, hpath⟩ := exists_of_mem_elements he
    rw [hpath]
    apply hd.trans (List.suffix_cons _ _)
  apply forall_descendants (P := fun d => s.path <:+ d.path) hstep List.suffix_rfl

theorem length_path_of_mem_elements (he : e ∈ s.elements) :
  e.path.length = s.path.length + 1
  := by
  obtain ⟨kind, before, after, -, -, hpath⟩ := exists_of_mem_elements he
  rw [hpath, List.length_cons]

/-- Trees that stand side by side have different ways to the root: the number of siblings before
them goes up. -/
theorem pairwise_path_spread {kind : NodeKind} {path : List Frame} {start : Nat}
    {before : List Tree} {done : List Site}
    (hdone : done.reverse.Pairwise fun a b => a.path ≠ b.path)
    (hbefore : ∀ d ∈ done, ∃ f, d.path = f :: path ∧ f.before.length < before.length)
    (cs : List Tree) :
  (spread kind path start before done cs).Pairwise fun a b => a.path ≠ b.path
  := by
  induction cs generalizing start before done with
  | nil => apply hdone
  | cons c cs ih =>
    apply ih
    · rw [List.reverse_cons, List.pairwise_append]
      refine ⟨hdone, List.pairwise_singleton _ _, ?_⟩
      intro a ha b hb heq
      obtain ⟨f, hpath, hlt⟩ := hbefore a (List.mem_reverse.mp ha)
      rw [List.mem_singleton.mp hb, hpath] at heq
      obtain rfl := (List.cons_eq_cons.mp heq).1
      apply Nat.lt_irrefl _ hlt
    · intro d hd
      rcases List.mem_cons.mp hd with rfl | hd
      · exact ⟨_, rfl, Nat.lt_succ_self _⟩
      · obtain ⟨f, hpath, hlt⟩ := hbefore d hd
        exact ⟨f, hpath, Nat.lt_succ_of_lt hlt⟩

theorem pairwise_path_elements (s : Site) :
  s.elements.Pairwise fun a b => a.path ≠ b.path
  := by
  unfold elements
  split
  · apply List.Pairwise.nil
  · apply pairwise_path_spread List.Pairwise.nil (List.forall_mem_nil _)

/-! ### No site stands twice -/

/-- Below children with different ways to the root there are different sites. -/
theorem disjoint_descendants (ha : a ∈ s.elements) (hb : b ∈ s.elements)
    (hpath : a.path ≠ b.path) :
  a.descendants.Disjoint b.descendants
  := by
  intro d hda hdb
  have hlength : a.path.length = b.path.length := by
    rw [length_path_of_mem_elements ha, length_path_of_mem_elements hb]
  have hsuffix : a.path <:+ b.path := by
    apply List.suffix_of_suffix_length_le (path_suffix_of_mem_descendants d hda)
      (path_suffix_of_mem_descendants d hdb) (Nat.le_of_eq hlength)
  apply hpath (hsuffix.eq_of_length hlength)

/-- A site does not lie below its children. -/
theorem notMem_descendants_of_element (he : e ∈ s.elements) :
  s ∉ e.descendants
  := by
  intro hs
  have hle := (path_suffix_of_mem_descendants s hs).length_le
  rw [length_path_of_mem_elements he] at hle
  omega

/-- Every site below a site is listed once. -/
theorem nodup_descendants (s : Site) :
  s.descendants.Nodup
  := by
  rw [descendants_eq, List.nodup_cons, List.nodup_flatMap]
  refine ⟨?_, ?_, ?_⟩
  · intro hs
    obtain ⟨e, he, hs⟩ := List.mem_flatMap.mp hs
    apply notMem_descendants_of_element he hs
  · intro e he
    apply nodup_descendants e
  · apply s.pairwise_path_elements.imp_of_mem
    intro a b ha hb hpath
    apply disjoint_descendants ha hb hpath
termination_by sizeOf s.tree
decreasing_by exact sizeOf_tree_lt he

/-! ### Parts of the list -/

theorem elements_sublist_descendants (s : Site) :
  s.elements.Sublist s.descendants
  := by
  have hflat : (s.elements.flatMap fun e => [e]).Sublist (s.elements.flatMap descendants) := by
    apply List.Sublist.flatMap_right
    intro e _
    apply List.singleton_sublist.mpr (self_mem_descendants e)
  rw [List.flatMap_singleton'] at hflat
  rw [descendants_eq]
  apply hflat.trans (List.sublist_cons_self _ _)

/-- The sites below some of the children are listed in the same order. -/
theorem flatMap_descendants_sublist {es : List Site} (h : es.Sublist s.elements) :
  (es.flatMap descendants).Sublist s.descendants
  := by
  rw [descendants_eq s]
  apply (h.flatMap descendants).trans (List.sublist_cons_self _ _)

/-- The sites below a site below are listed in the same order. -/
theorem descendants_sublist {s d : Site} (hd : d ∈ s.descendants) :
  d.descendants.Sublist s.descendants
  := by
  rw [descendants_eq s] at hd
  rcases List.mem_cons.mp hd with rfl | hd
  · apply List.Sublist.refl
  · obtain ⟨e, he, hd⟩ := List.mem_flatMap.mp hd
    have hchild : e.descendants.Sublist s.descendants := by
      have hflat := flatMap_descendants_sublist (List.singleton_sublist.mpr he)
      rw [List.flatMap_singleton] at hflat
      apply hflat
    apply (descendants_sublist hd).trans hchild
termination_by sizeOf s.tree
decreasing_by exact sizeOf_tree_lt he

/-- The children of a site below lie below. -/
theorem element_mem_descendants {root s e : Site} (hs : s ∈ root.descendants)
    (he : e ∈ s.elements) :
  e ∈ root.descendants
  := (descendants_sublist hs).subset (mem_descendants_of_element he (self_mem_descendants e))

end Site

end InlayHints
