import InlayHints.Proofs.Hint.Anchor
import InlayHints.Proofs.Hint.Siblings
import InlayHints.Proofs.Syntax.Expression

/-!
# Arguments start apart

No two arguments of the calls in a file start at one offset (`SourceFile.nodup_start_arguments`).
Of two sites in a tree one lies below the other, or they stand side by side
(`Site.nested_or_apart`); an argument that lies below another one belongs to a call in there, and
the name of what is called stands before it.
-/

namespace InlayHints

/-- The arguments of a call. -/
def HintSource.arguments : HintSource → List Expr
  | .call c => c.arguments
  | .builtinCall c => c.arguments
  | .declaration _ => []

/-- The arguments of the call at a site, none if there is no call. -/
def Site.arguments (s : Site) : List Expr :=
  ((HintSource.ofSite? s).map HintSource.arguments).getD []

theorem HintSource.ofSite?_call (c : Call) :
  ofSite? c.site = some (.call c)
  := by
  rw [ofSite?, NodeSite.ofSite?_site]
  rfl

theorem HintSource.ofSite?_builtinCall (c : BuiltinCall) :
  ofSite? c.site = some (.builtinCall c)
  := by
  have hcall : NodeSite.ofSite? (NodeKind.is .callExpr) c.site = none := by
    apply Site.ofSite?_eq_none
    rw [c.kind_site]
    rfl
  rw [ofSite?, hcall, NodeSite.ofSite?_site]
  rfl

/-- The arguments of the calls that a request visits. -/
def visitedArguments (file : SourceFile) (range : TextRange) : List Expr :=
  (visitedSites file range).flatMap Site.arguments

namespace Site

variable {root s p q a b e : Site} {whole : Tree}

/-! ### Places in a tree -/

/-- Of two sites below a site, one lies below the other, or they stand side by side. -/
theorem nested_or_apart {root a b : Site} (ha : a ∈ root.descendants)
    (hb : b ∈ root.descendants) :
  (b ∈ a.descendants ∨ a ∈ b.descendants) ∨ a.stop ≤ b.start ∨ b.stop ≤ a.start
  := by
  by_cases har : a = root
  · rw [har]
    exact Or.inl (Or.inl hb)
  by_cases hbr : b = root
  · rw [hbr]
    exact Or.inl (Or.inr ha)
  rw [descendants_eq] at ha hb
  obtain ⟨e, he, ha⟩ := List.mem_flatMap.mp ((List.mem_cons.mp ha).resolve_left har)
  obtain ⟨d, hd, hb⟩ := List.mem_flatMap.mp ((List.mem_cons.mp hb).resolve_left hbr)
  obtain ⟨pre, post, hsplit⟩ := List.append_of_mem he
  have hpairs := root.pairwise_elements
  rw [hsplit, List.pairwise_append, List.pairwise_cons] at hpairs
  obtain ⟨-, ⟨hpost, -⟩, hpre⟩ := hpairs
  have hina := TextRange.contains_iff.mp (contains_range_of_mem_descendants a ha)
  have hinb := TextRange.contains_iff.mp (contains_range_of_mem_descendants b hb)
  simp only [range, TextRange.ofWidth] at hina hinb
  rw [hsplit] at hd
  rcases List.mem_append.mp hd with hd | hd
  · have := hpre d hd e List.mem_cons_self
    apply Or.inr (Or.inr _)
    rw [stop] at this ⊢
    omega
  rcases List.mem_cons.mp hd with rfl | hd
  · apply nested_or_apart ha hb
  · have := hpost d hd
    apply Or.inr (Or.inl _)
    rw [stop] at this ⊢
    omega
termination_by sizeOf root.tree
decreasing_by exact sizeOf_tree_lt he

/-- A site has one parent only. -/
theorem eq_of_mem_elements (hp : p.LiesIn whole) (hq : q.LiesIn whole) (hep : e ∈ p.elements)
    (heq : e ∈ q.elements) :
  p = q
  := by
  obtain ⟨kind, before, after, htree, -, hpath⟩ := exists_of_mem_elements hep
  obtain ⟨kind', before', after', htree', -, hpath'⟩ := exists_of_mem_elements heq
  obtain ⟨hframe, hpath⟩ := List.cons.inj (hpath.symm.trans hpath')
  obtain ⟨rfl, rfl, rfl⟩ := Frame.mk.inj hframe
  have hstart : p.start = q.start := by rw [hp.start_eq, hq.start_eq, hpath]
  obtain ⟨start, tree, path⟩ := p
  obtain ⟨start', tree', path'⟩ := q
  obtain rfl : tree = tree' := htree.trans htree'.symm
  obtain rfl := hpath
  obtain rfl := hstart
  rfl

/-- The parent of a site that lies below another one lies below it, too. -/
theorem parent_mem_descendants (ha : a.LiesIn whole) (hp : p.LiesIn whole) (hb : b ∈ a.descendants)
    (hne : b ≠ a) (hbp : b ∈ p.elements) :
  p ∈ a.descendants
  := by
  obtain ⟨q, hq, hbq⟩ := (exists_parent hb).resolve_left hne
  rw [eq_of_mem_elements hp (ha.descendant q hq) hbp hbq]
  apply hq

/-! ### Arguments -/

/-- A site stands in a list of arguments of an expression. -/
def HasArgument (s a : Site) : Prop :=
  s.kind.isExpr = true ∧ ∃ list ∈ s.elements, list.kind = .node .argList ∧ a ∈ list.elements

theorem hasArgument_of_list {l : ArgumentList} {a : Expr} (hs : s.kind.isExpr = true)
    (hl : s.childOf? (NodeKind.is .argList) = some l) (ha : a ∈ l.arguments) :
  s.HasArgument a.site
  := by
  use hs, l.site, mem_elements_of_childOf? hl, l.kind_site
  apply mem_elements_of_childrenOf ha

/-- The arguments at a site stand in its list of arguments. -/
theorem hasArgument_of_mem {a : Expr} (ha : a ∈ s.arguments) :
  s.HasArgument a.site
  := by
  rw [arguments] at ha
  cases hsource : HintSource.ofSite? s with
  | none =>
    rw [hsource] at ha
    contradiction
  | some source =>
    rw [hsource] at ha
    simp only [HintSource.ofSite?, Option.or_eq_some_iff, Option.map_eq_some_iff] at hsource
    obtain ⟨c, hc, rfl⟩ | ⟨-, ⟨c, hc, rfl⟩ | ⟨-, d, hd, rfl⟩⟩ := hsource
    · have ha : a ∈ Call.arguments c := ha
      rw [← NodeSite.site_of_ofSite? hc]
      have hexpr : c.site.kind.isExpr = true := by rw [c.kind_site]; rfl
      unfold Call.arguments at ha
      split at ha
      · next l hl => apply hasArgument_of_list hexpr hl ha
      · contradiction
    · have ha : a ∈ BuiltinCall.arguments c := ha
      rw [← NodeSite.site_of_ofSite? hc]
      have hexpr : c.site.kind.isExpr = true := by rw [c.kind_site]; rfl
      unfold BuiltinCall.arguments at ha
      split at ha
      · next l hl => apply hasArgument_of_list hexpr hl ha
      · contradiction
    · contradiction

/-- The arguments at a site are listed once. -/
theorem nodup_arguments (s : Site) :
  s.arguments.Nodup
  := by
  have hlist : ∀ l : ArgumentList, l.arguments.Nodup := by
    intro l
    have hnodup := (nodup_descendants l.site).sublist (elements_sublist_descendants l.site)
    apply hnodup.filterMap
    intro e e' a ha ha'
    rw [← NodeSite.site_of_ofSite? (Option.mem_def.mp ha),
      ← NodeSite.site_of_ofSite? (Option.mem_def.mp ha')]
  rw [arguments]
  cases HintSource.ofSite? s with
  | none => apply List.nodup_nil
  | some source =>
    cases source with
    | call c =>
      rw [Option.map_some, Option.getD_some, HintSource.arguments, Call.arguments]
      split
      · apply hlist
      · apply List.nodup_nil
    | builtinCall c =>
      rw [Option.map_some, Option.getD_some, HintSource.arguments, BuiltinCall.arguments]
      split
      · apply hlist
      · apply List.nodup_nil
    | declaration d => apply List.nodup_nil

end Site

namespace SourceFile

variable {text : String} {s p q a b : Site}

theorem liesIn_of_mem (hs : s ∈ (ofText text).root.descendants) :
  s.LiesIn (ofText text).parse.tree
  := (Site.liesIn_root _).descendant s hs

/-- Something stands before the arguments of an expression. -/
theorem start_lt_of_hasArgument (hs : s ∈ (ofText text).root.descendants)
    (h : s.HasArgument a) :
  s.start < a.start
  := by
  obtain ⟨hexpr, list, hlist, hkind, ha⟩ := h
  obtain ⟨e, post, helements, hstart, -, he⟩ := exists_elements_of_isExpr hs hexpr
  have hmem : e ∈ s.elements := by rw [helements]; apply List.mem_cons_self
  have hlt := start_lt_stop (Site.element_mem_descendants hs hmem) he
  have hne : list ≠ e := by
    rintro rfl
    rw [hkind] at he
    rcases he with he | he
    · contradiction
    · contradiction
  have hpairs := s.pairwise_elements
  rw [helements] at hlist hpairs
  have hle : e.stop ≤ list.start :=
    (List.pairwise_cons.mp hpairs).1 list ((List.mem_cons.mp hlist).resolve_left hne)
  have hin := TextRange.contains_iff.mp (Site.contains_range_of_mem_elements ha)
  simp only [Site.range, TextRange.ofWidth] at hin
  omega

/-- An argument does not lie below another one that starts where it does. -/
theorem eq_of_mem_descendants (ha : a ∈ (ofText text).root.descendants)
    (haexpr : a.kind.isExpr = true) (hq : q ∈ (ofText text).root.descendants)
    (hb : b ∈ a.descendants) (hqb : q.HasArgument b) (hstart : a.start = b.start) :
  b = a
  := by
  obtain ⟨-, list, hlist, hkind, hbl⟩ := id hqb
  have hliesa := liesIn_of_mem ha
  have hliesq := liesIn_of_mem hq
  by_contra hne
  have hmem := Site.parent_mem_descendants hliesa (hliesq.element hlist) hb hne hbl
  have hnelist : list ≠ a := by
    rintro rfl
    rw [hkind] at haexpr
    contradiction
  have hmemq := Site.parent_mem_descendants hliesa hliesq hmem hnelist hlist
  have hin := TextRange.contains_iff.mp (Site.contains_range_of_mem_descendants q hmemq)
  have hlt := start_lt_of_hasArgument hq hqb
  simp only [Site.range, TextRange.ofWidth] at hin
  omega

theorem mem_descendants_of_hasArgument (hp : p ∈ (ofText text).root.descendants)
    (h : p.HasArgument a) :
  a ∈ (ofText text).root.descendants
  := by
  obtain ⟨-, list, hlist, -, ha⟩ := h
  apply Site.element_mem_descendants (Site.element_mem_descendants hp hlist) ha

theorem mem_descendants_of_argument {c : Call} {a : Expr}
    (hc : c.site ∈ (ofText text).root.descendants) (ha : a ∈ c.arguments) :
  a.site ∈ (ofText text).root.descendants
  := by
  apply mem_descendants_of_hasArgument hc
  apply Site.hasArgument_of_mem
  rw [Site.arguments, HintSource.ofSite?_call]
  apply ha

/-- Arguments that start at one offset are the same. -/
theorem eq_of_start_eq (hp : p ∈ (ofText text).root.descendants) (hpa : p.HasArgument a)
    (haexpr : a.kind.isExpr = true) (hq : q ∈ (ofText text).root.descendants)
    (hqb : q.HasArgument b) (hbexpr : b.kind.isExpr = true) (hstart : a.start = b.start) :
  a = b
  := by
  have ha := mem_descendants_of_hasArgument hp hpa
  have hb := mem_descendants_of_hasArgument hq hqb
  have hlta := start_lt_stop ha (Or.inr haexpr)
  have hltb := start_lt_stop hb (Or.inr hbexpr)
  obtain (hmem | hmem) | hle | hle := Site.nested_or_apart ha hb
  · apply (eq_of_mem_descendants ha haexpr hq hmem hqb hstart).symm
  · apply eq_of_mem_descendants hb hbexpr hp hmem hpa hstart.symm
  · omega
  · omega

/-- In a text that is not read there are no calls to visit. -/
theorem visitedArguments_of_lt (h : countLimit < text.utf8ByteSize) (range : TextRange) :
  visitedArguments (ofText text) range = []
  := by
  have helements := elements_root_of_lt h
  have hdescendants := (ofText text).root.descendants_eq
  rw [helements, List.flatMap_nil] at hdescendants
  apply List.eq_nil_iff_forall_not_mem.mpr
  intro a ha
  obtain ⟨p, hp, ha⟩ := List.mem_flatMap.mp ha
  obtain ⟨-, list, hlist, -⟩ := Site.hasArgument_of_mem ha
  have hmem := (visitedSites_sublist (ofText text) range).subset hp
  rw [hdescendants] at hmem
  obtain rfl := List.mem_singleton.mp hmem
  rw [helements] at hlist
  contradiction

/-- The arguments of the calls that a request visits all start at different offsets. -/
theorem nodup_start_arguments (text : String) (range : TextRange) :
  ((visitedArguments (ofText text) range).map NodeSite.start).Nodup
  := by
  have hvisited : ∀ s ∈ visitedSites (ofText text) range, s ∈ (ofText text).root.descendants :=
    fun s hs => (visitedSites_sublist (ofText text) range).subset hs
  have hnodup : (visitedArguments (ofText text) range).Nodup := by
    apply List.nodup_flatMap.mpr
    use fun s _ => s.nodup_arguments
    have hsites : (visitedSites (ofText text) range).Nodup :=
      (Site.nodup_descendants _).sublist (visitedSites_sublist _ range)
    apply hsites.imp_of_mem
    intro p q hp hq hne a hap haq
    obtain ⟨-, l, hl, -, hal⟩ := Site.hasArgument_of_mem hap
    obtain ⟨-, m, hm, -, ham⟩ := Site.hasArgument_of_mem haq
    have hliesp := liesIn_of_mem (hvisited p hp)
    have hliesq := liesIn_of_mem (hvisited q hq)
    -- a common argument would stand in one list, and this list in one call
    obtain rfl := Site.eq_of_mem_elements (hliesp.element hl) (hliesq.element hm) hal ham
    apply hne (Site.eq_of_mem_elements hliesp hliesq hl hm)
  apply hnodup.map_on
  intro a ha b hb hstart
  obtain ⟨p, hp, ha⟩ := List.mem_flatMap.mp ha
  obtain ⟨q, hq, hb⟩ := List.mem_flatMap.mp hb
  apply NodeSite.ext
  apply eq_of_start_eq (hvisited p hp) (Site.hasArgument_of_mem ha) a.isExpr_kind (hvisited q hq)
    (Site.hasArgument_of_mem hb) b.isExpr_kind hstart

end SourceFile

end InlayHints
