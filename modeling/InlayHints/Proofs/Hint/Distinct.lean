import InlayHints.Proofs.Hint.Arguments
import InlayHints.Proofs.Hint.Switches

/-!
# No argument is labelled twice

The hints that show parameters stand at the starts of arguments of visited calls, at each start at
most one (`inlayHints_distinct`).  A call labels each of its arguments at most once, whatever the
answers to its questions are, no site is visited twice, and no two arguments start at one offset;
so different hints have different lines and columns, too.
-/

namespace InlayHints

/-! ### Offsets of the labels of arguments -/

/-- The offsets of the hints that show parameters. -/
def parameterOffsets (hints : List RawHint) : List Nat :=
  (hints.filter (·.kind = .parameter)).map RawHint.offset

theorem parameterOffsets_append (hints hints' : List RawHint) :
  parameterOffsets (hints ++ hints') = parameterOffsets hints ++ parameterOffsets hints'
  := by
  rw [parameterOffsets, List.filter_append, List.map_append]
  rfl

theorem parameterOffsets_sublist (hints : List RawHint) :
  (parameterOffsets hints).Sublist (hints.map RawHint.offset)
  := List.filter_sublist.map _

section

variable {α β : Type} {text : String} {options : Options}

/-- Hints that are found at some members of a list stand where these members tell. -/
theorem offsets_filterMap_sublist {xs : List α} {f : α → Option RawHint} {g : α → Nat}
    (h : ∀ x ∈ xs, ∀ r, f x = some r → r.offset = g x) :
  ((xs.filterMap f).map RawHint.offset).Sublist (xs.map g)
  := by
  induction xs with
  | nil => apply List.Sublist.refl
  | cons x xs ih =>
    have hrest := ih fun x' hx' => h x' (List.mem_cons_of_mem x hx')
    cases hfound : f x with
    | none =>
      rw [List.filterMap_cons_none hfound]
      apply hrest.cons
    | some r =>
      rw [List.filterMap_cons_some hfound, List.map_cons, List.map_cons,
        h x List.mem_cons_self r hfound]
      apply hrest.cons_cons

theorem map_snd_zip_sublist (xs : List α) (ys : List β) :
  ((xs.zip ys).map Prod.snd).Sublist ys
  := by
  induction xs generalizing ys with
  | nil => apply List.nil_sublist
  | cons x xs ih =>
    cases ys with
    | nil => apply List.nil_sublist
    | cons y ys => apply (ih ys).cons_cons

theorem map_fst_zip_sublist (xs : List α) (ys : List β) :
  ((xs.zip ys).map Prod.fst).Sublist xs
  := by
  rw [← List.zip_swap, List.map_map]
  apply map_snd_zip_sublist

/-- A label stands at the start of its argument. -/
theorem offset_labelHint? {markup : Markup} {a : Expr} {label type : String}
    {isNoalias isComptime : Bool} {h : RawHint}
    (ha : a.site ∈ (SourceFile.ofText text).root.descendants)
    (hh : labelHint? markup a label isNoalias isComptime type = some h) :
  h.offset = a.start
  := by
  obtain ⟨first, hfirst, rfl⟩ := Option.map_eq_some_iff.mp hh
  obtain ⟨l, hl, hstart, -⟩ := SourceFile.exists_firstToken_expr ha
  rw [hl, Option.some_inj] at hfirst
  rw [← hstart, hfirst]

theorem offset_parameterHint? {parameter : Parameter} {a : Expr} {h : RawHint}
    (ha : a.site ∈ (SourceFile.ofText text).root.descendants)
    (hh : parameterHint? options parameter a = some h) :
  h.offset = a.start
  := by
  obtain ⟨name, -, hh⟩ := Option.bind_eq_some_iff.mp hh
  split at hh
  · contradiction
  · apply offset_labelHint? ha hh

theorem offset_descriptorHint? {a : Expr} {descriptor : String} {h : RawHint}
    (ha : a.site ∈ (SourceFile.ofText text).root.descendants)
    (hh : descriptorHint? options a descriptor = some h) :
  h.offset = a.start
  := by
  simp only [descriptorHint?] at hh
  split at hh
  · contradiction
  · apply offset_labelHint? ha hh

variable {arguments : List Expr}

/-- A call labels its arguments in order, each at most once. -/
theorem offsets_labelArguments (parameters : List Parameter)
    (h : ∀ a ∈ arguments, a.site ∈ (SourceFile.ofText text).root.descendants) :
  ((labelArguments options parameters arguments).map RawHint.offset).Sublist
    (arguments.map NodeSite.start)
  := by
  have hpairs : ((labelArguments options parameters arguments).map RawHint.offset).Sublist
      ((parameters.zip arguments).map fun pair => pair.2.start) := by
    apply offsets_filterMap_sublist
    rintro ⟨parameter, a⟩ hmem r hr
    apply offset_parameterHint? (h a (List.of_mem_zip hmem).2) hr
  apply hpairs.trans
  have hsublist := (map_snd_zip_sublist parameters arguments).map NodeSite.start
  rwa [List.map_map] at hsublist

/-- So does a call of a builtin. -/
theorem offsets_builtinHints {c : BuiltinCall}
    (h : ∀ a ∈ c.arguments, a.site ∈ (SourceFile.ofText text).root.descendants) :
  ((builtinHints options c).map RawHint.offset).Sublist (c.arguments.map NodeSite.start)
  := by
  unfold builtinHints
  split
  · apply List.nil_sublist
  split
  · apply List.nil_sublist
  split
  · apply List.nil_sublist
  next builtin _ =>
  have htaken := List.takeWhile_sublist (fun pair : Expr × String => !endsDescriptors pair.2)
    (l := c.arguments.zip builtin.arguments)
  have hpairs : ((describeArguments options c.arguments builtin.arguments).map
      RawHint.offset).Sublist
        ((c.arguments.zip builtin.arguments).map fun pair => pair.1.start) := by
    refine List.Sublist.trans ?_ (htaken.map _)
    apply offsets_filterMap_sublist
    rintro ⟨a, descriptor⟩ hmem r hr
    apply offset_descriptorHint? (h a (List.of_mem_zip (htaken.subset hmem)).1) hr
  apply hpairs.trans
  have hsublist := (map_fst_zip_sublist c.arguments builtin.arguments).map NodeSite.start
  rwa [List.map_map] at hsublist

end

/-! ### Requests -/

section

variable {σ Receiver α : Type} (sem : Semantics σ Receiver) (options : Options) {text : String}

/-- The labels at a site stand at its arguments, at each at most one. -/
theorem parameterOffsets_hintsAt {s : Site}
    (hs : s ∈ (SourceFile.ofText text).root.descendants) (st : σ) :
  (parameterOffsets ((hintsAt sem options s).run st).1).Sublist
    (s.arguments.map NodeSite.start)
  := by
  have harguments : ∀ a ∈ s.arguments, a.site ∈ (SourceFile.ofText text).root.descendants :=
    fun a ha => SourceFile.mem_descendants_of_hasArgument hs (Site.hasArgument_of_mem ha)
  rw [Site.arguments] at harguments ⊢
  unfold hintsAt
  split
  · apply List.nil_sublist
  next source hsource =>
  rw [hsource, Option.map_some, Option.getD_some] at harguments ⊢
  split
  · cases source with
    | call c =>
      obtain ⟨parameters, heq⟩ := callHints_eq_labelArguments sem c st
      rw [HintSource.hints, heq]
      apply (parameterOffsets_sublist _).trans
      apply offsets_labelArguments parameters harguments
    | builtinCall c =>
      apply (parameterOffsets_sublist _).trans
      apply offsets_builtinHints harguments
    | declaration d =>
      have hnone : parameterOffsets (((HintSource.declaration d).hints sem options).run st).1
          = [] := by
        rw [parameterOffsets, List.map_eq_nil_iff, List.filter_eq_nil_iff]
        intro h hh
        have hkind : h.kind = .type := HintSource.kind_hints sem (.declaration d) st h hh
        rw [hkind]
        decide
      rw [hnone]
      apply List.nil_sublist
  · apply List.nil_sublist

theorem run_mapM_cons {β : Type} (f : α → StateM σ β) (x : α) (xs : List α) (st : σ) :
  (((x :: xs).mapM f).run st).1
    = ((f x).run st).1 :: ((xs.mapM f).run ((f x).run st).2).1
  := by
  rw [List.mapM_cons]
  rfl

/-- If the labels found at each member of a list stand where the member tells, then so do those
found on a walk over the list, whatever the answers on the way are. -/
theorem parameterOffsets_mapM {f : α → StateM σ (List RawHint)} {g : α → List Nat} {xs : List α}
    (h : ∀ x ∈ xs, ∀ st, (parameterOffsets ((f x).run st).1).Sublist (g x)) (st : σ) :
  (parameterOffsets ((xs.mapM f).run st).1.flatten).Sublist (xs.flatMap g)
  := by
  induction xs generalizing st with
  | nil => apply List.Sublist.refl
  | cons x xs ih =>
    rw [run_mapM_cons, List.flatten_cons, parameterOffsets_append, List.flatMap_cons]
    apply List.Sublist.append (h x List.mem_cons_self st)
    apply ih fun x' hx' => h x' (List.mem_cons_of_mem x hx')

/-- The labels that a request finds stand at the arguments of the visited calls, at each at most
one. -/
theorem parameterOffsets_rawHints (text : String) (range : TextRange) (st : σ) :
  (parameterOffsets ((rawHints sem (.ofText text) range options).run st).1).Sublist
    ((visitedArguments (.ofText text) range).map NodeSite.start)
  := by
  rw [visitedArguments, List.map_flatMap]
  apply parameterOffsets_mapM
  intro s hs st
  apply parameterOffsets_hintsAt sem options ((visitedSites_sublist _ range).subset hs)

end

/-! ### Positions of hints -/

section

variable {e : Encoding} {text : String} {hints : List RawHint}

/-- A hint that is shown is one of those placed, at the position of its offset. -/
theorem exists_of_mem_place (hsize : text.utf8ByteSize ≤ countLimit) {h : Hint}
    (hh : h ∈ RawHint.place e text hints) :
  ∃ r ∈ hints, h = r.placeAt (.ofOffset e text.toList r.offset)
  := by
  rw [RawHint.place_eq_map e text hints hsize] at hh
  obtain ⟨r, hr, rfl⟩ := List.mem_map.mp hh
  use r, (List.mergeSort_perm hints RawHint.le).mem_iff.mp hr

/-- Hints at different offsets are shown at different positions. -/
theorem nodup_position_place (hsize : text.utf8ByteSize ≤ countLimit)
    (hboundary : ∀ r ∈ hints, isBoundary r.offset text.toList = true)
    (hnodup : (hints.map RawHint.offset).Nodup) :
  ((RawHint.place e text hints).map Hint.position).Nodup
  := by
  have hperm := (List.mergeSort_perm hints RawHint.le).map RawHint.offset
  have hpositions : (RawHint.place e text hints).map Hint.position
      = ((hints.mergeSort RawHint.le).map RawHint.offset).map (LineCol.ofOffset e text.toList) := by
    rw [RawHint.place_eq_map e text hints hsize, List.map_map, List.map_map]
    rfl
  have hoffset : ∀ n ∈ (hints.mergeSort RawHint.le).map RawHint.offset,
      isBoundary n text.toList = true := by
    intro n hn
    obtain ⟨r, hr, rfl⟩ := List.mem_map.mp (hperm.mem_iff.mp hn)
    apply hboundary r hr
  rw [hpositions]
  apply List.Nodup.map_on _ (hperm.nodup_iff.mpr hnodup)
  intro m hm n hn
  rw [← Encoding.size_utf8] at hsize
  apply LineCol.ofOffset_injective e hsize (hoffset m hm) (hoffset n hn)

end

/-- In the answer to any request, every hint that shows a parameter stands at the start of an
argument of a visited call, and no two of them stand at one offset, nor at one line and column. -/
theorem inlayHints_distinct {σ Receiver : Type} (sem : Semantics σ Receiver) (text : String)
    (range : TextRange) (options : Options) (st : σ) :
  let found := ((rawHints sem (.ofText text) range options).run st).1.filter (·.kind = .parameter)
  let shown := ((inlayHints sem (.ofText text) range options).run st).1.filter (·.kind = .parameter)
  (∀ h ∈ found, ∃ a ∈ visitedArguments (.ofText text) range, h.offset = a.start)
    ∧ (found.map RawHint.offset).Nodup
    ∧ (∀ h ∈ shown, ∃ a ∈ visitedArguments (.ofText text) range,
        h.position = .ofOffset options.encoding text.toList a.start)
    ∧ (shown.map Hint.position).Nodup
  := by
  intro found shown
  have hsublist : (found.map RawHint.offset).Sublist
      ((visitedArguments (.ofText text) range).map NodeSite.start) :=
    parameterOffsets_rawHints sem options text range st
  have hanchor : ∀ h ∈ found, ∃ a ∈ visitedArguments (.ofText text) range,
      h.offset = a.start := by
    intro h hh
    obtain ⟨a, ha, hstart⟩ := List.mem_map.mp (hsublist.subset (List.mem_map_of_mem hh))
    exact ⟨a, ha, hstart.symm⟩
  have hnodup : (found.map RawHint.offset).Nodup :=
    (SourceFile.nodup_start_arguments text range).sublist hsublist
  have hshown : shown = RawHint.place options.encoding text found := by
    apply RawHint.filter_place
  have hboundary : ∀ h ∈ found, isBoundary h.offset text.toList = true := by
    intro h hh
    have hstands := isBoundary_rawHints sem options (.ofText text) range st h
      (List.mem_of_mem_filter hh)
    apply Token.IsBoundary.isBoundary_text hstands
  refine ⟨hanchor, hnodup, ?_⟩
  rw [hshown]
  rcases Nat.lt_or_ge countLimit text.utf8ByteSize with hlt | hsize
  · -- nothing is visited in a text that is not read
    rw [SourceFile.visitedArguments_of_lt hlt] at hsublist
    have hnil : found = [] := List.map_eq_nil_iff.mp (List.sublist_nil.mp hsublist)
    have hplace : RawHint.place options.encoding text [] = [] := by simp [RawHint.place]
    rw [hnil, hplace]
    exact ⟨List.forall_mem_nil _, List.nodup_nil⟩
  · constructor
    · intro h hh
      obtain ⟨r, hr, rfl⟩ := exists_of_mem_place hsize hh
      obtain ⟨a, ha, hstart⟩ := hanchor r hr
      use a, ha
      rw [← hstart]
      rfl
    · apply nodup_position_place hsize hboundary hnodup

/-- A call and its first argument, which is a call again, label four arguments at four places. -/
theorem inlayHints_distinct_nested :
  let text := "foo(foo(\"é\", 2), 3);"
  let found := ((rawHints .twoParameters (.ofText text) (.ofWidth 0 20) {}).run ()).1
  let shown := ((inlayHints .twoParameters (.ofText text) (.ofWidth 0 20) {}).run ()).1
  (found.filter (·.kind = .parameter)).map RawHint.offset = [4, 18, 8, 14]
    ∧ ((found.filter (·.kind = .parameter)).map RawHint.offset).Nodup
    ∧ ((shown.filter (·.kind = .parameter)).map Hint.position).Nodup
  := by
  obtain ⟨-, hoffsets, -, hpositions⟩ := inlayHints_distinct .twoParameters
    "foo(foo(\"é\", 2), 3);" (.ofWidth 0 20) {} ()
  refine ⟨?_, hoffsets, hpositions⟩
  cbv

end InlayHints
