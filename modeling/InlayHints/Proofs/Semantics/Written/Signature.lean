import InlayHints.Proofs.Semantics.Qualifiers
import InlayHints.Proofs.Semantics.Written.Reading

/-!
# The signatures of written functions

A written function whose types do not nest too deep is parsed without faults, it is the only
function in its text, and its signature has exactly the parameters that were written
(`Signature.ofFnDecl_text`).
-/

namespace InlayHints

/-- Members at equal places that have the same image under two functions have it under two others
too. -/
theorem map_eq_map_of_imp {α β γ δ : Type} {f : α → γ} {g : β → γ} {f' : α → δ} {g' : β → δ}
    {xs : List α} {ys : List β} (h : xs.map f = ys.map g)
    (himp : ∀ x ∈ xs, ∀ y ∈ ys, f x = g y → f' x = g' y) :
  xs.map f' = ys.map g'
  := by
  induction xs generalizing ys with
  | nil =>
    rw [List.map_nil, eq_comm, List.map_eq_nil_iff] at h
    rw [h]
    rfl
  | cons x xs ih =>
    obtain ⟨y, ys, rfl, hy, hys⟩ := List.map_eq_cons_iff.mp h.symm
    rw [List.map_cons, List.map_cons, himp x List.mem_cons_self y List.mem_cons_self hy.symm,
      ih hys.symm]
    intro x hx y hy
    apply himp x (List.mem_cons_of_mem _ hx) y (List.mem_cons_of_mem _ hy)

/-! ### Parameters -/

theorem Tree.IsType.isExpr {t : Tree} (h : t.IsType) :
  t.nodeKind?.any NodeKind.isExpr = true
  := by
  cases h with
  | modified m h =>
    obtain ⟨modifier, isConst⟩ := m
    cases modifier <;> rfl
  | _ => rfl

theorem Tree.IsType.token?_eq {t : Tree} (h : t.IsType) :
  t.token? = none
  := by
  cases h <;> rfl

namespace WrittenParameter

variable {text : String} {p : Param} {w : WrittenParameter}

/-- Before the type of a parameter there are qualifiers, and an identifier and a colon only if the
parameter has a name. -/
theorem kind_of_mem_frontTokens {u : Token} (hu : u ∈ w.frontTokens) :
  u.isTrivia = true ∨ u.kind.isQualifier = true
    ∨ w.name.isSome = true ∧ (u.kind = .ident ∨ u.kind = .colon)
  := by
  rcases List.mem_append.mp hu with hu | hu
  · obtain ⟨q, -, hu⟩ := List.mem_flatMap.mp hu
    rcases List.mem_pair.mp hu with rfl | rfl
    · right
      left
      cases q <;> rfl
    · exact Or.inl rfl
  · cases hname : w.name with
    | none =>
      rw [hname] at hu
      contradiction
    | some n =>
      rw [hname, Option.elim_some] at hu
      simp only [List.mem_cons, List.not_mem_nil, or_false] at hu
      rcases hu with rfl | rfl | rfl
      · exact Or.inr (Or.inr ⟨rfl, Or.inl rfl⟩)
      · exact Or.inr (Or.inr ⟨rfl, Or.inr rfl⟩)
      · exact Or.inl rfl

/-- The trees in a parameter other than trivia. -/
theorem partTrees (w : WrittenParameter) :
  w.tree.children.filter (!·.isTrivia)
    = (w.qualifiers.map Qualifier.token).map .token ++ (w.nameTokens.map .token ++ [w.typeTree])
  := by
  have hfront : (w.frontTokens.map Tree.token).filter (!·.isTrivia)
      = (Token.significant w.frontTokens).map .token := by
    rw [List.filter_map]
    rfl
  rw [tree, Tree.children, List.filter_append, hfront, significant_frontTokens, List.map_append,
    List.append_assoc, List.filter_singleton, w.isTrivia_typeTree]
  rfl

/-- The tokens of the parameter itself. -/
theorem ownTokens_tree (w : WrittenParameter) :
  w.tree.children.filterMap Tree.token? = w.frontTokens ++ w.typeTree.token?.toList
  := by
  have hfront : (w.frontTokens.map Tree.token).filterMap Tree.token? = w.frontTokens := by
    rw [List.filterMap_map]
    apply List.filterMap_some
  rw [tree, Tree.children, List.filterMap_append, hfront, List.filterMap_cons, List.filterMap_nil]
  cases w.typeTree.token? <;> rfl

theorem token?_typeTree (w : WrittenParameter) :
  w.typeTree.token? = if w.type.isNone then some ⟨.anytypeKw, "anytype"⟩ else none
  := by
  rw [typeTree]
  cases w.type with
  | none => rfl
  | some t => apply t.isType_tree.token?_eq

theorem type?_eq (hw : p.site.tree = w.tree) :
  p.type?.map (·.site.tree) = w.type.map TypeExpr.tree
  := by
  have hfront : (w.frontTokens.map Tree.token).find? (fun t => t.nodeKind?.any NodeKind.isExpr)
      = none := by
    rw [List.find?_eq_none, List.forall_mem_map]
    nofun
  rw [Param.type?, Site.map_tree_childOf?, hw, tree, Tree.children, List.find?_append, hfront,
    Option.none_or, typeTree]
  cases w.type with
  | none => rfl
  | some t =>
    simp [t.isType_tree.isExpr]

/-- No token before the type of a parameter is of another kind than a qualifier, an identifier or a
colon. -/
theorem find?_frontTokens {k : TokenKind} (htrivia : k.isTrivia = false)
    (hqualifier : k.isQualifier = false)
    (hname : w.name.isSome = true → k ≠ .ident ∧ k ≠ .colon) :
  w.frontTokens.find? (·.kind = k) = none
  := by
  rw [List.find?_eq_none]
  intro u hu hkind
  obtain rfl := of_decide_eq_true hkind
  rcases kind_of_mem_frontTokens hu with h | h | ⟨hsome, h⟩
  · rw [Token.isTrivia, htrivia] at h
    contradiction
  · rw [hqualifier] at h
    contradiction
  · rcases h with h | h
    · apply (hname hsome).1 h
    · apply (hname hsome).2 h

theorem isSome_anytype? (hw : p.site.tree = w.tree) :
  p.anytype?.isSome = w.type.isNone
  := by
  have hfront : w.frontTokens.find? (·.kind = .anytypeKw) = none :=
    find?_frontTokens rfl rfl fun _ => ⟨nofun, nofun⟩
  rw [Param.anytype?, ← Option.isSome_map, Site.map_token_ownToken?, hw, ownTokens_tree,
    List.find?_append, hfront, Option.none_or, token?_typeTree]
  cases w.type <;> rfl

theorem name?_eq (hp : p.site ∈ (SourceFile.ofText text).root.descendants)
    (hw : p.site.tree = w.tree) :
  p.name?.map Leaf.text = w.name.map Identifier.text
  := by
  cases hname : w.name with
  | none =>
    have hfront : w.frontTokens.find? (·.kind = .colon) = none :=
      find?_frontTokens rfl rfl fun hsome => by rw [hname] at hsome; contradiction
    have hcolon : (p.site.ownToken? .colon).map Leaf.token = none := by
      rw [Site.map_token_ownToken?, hw, ownTokens_tree, List.find?_append, hfront, Option.none_or,
        token?_typeTree]
      cases w.type <;> rfl
    rw [Option.map_eq_none_iff] at hcolon
    rw [Param.name?, hcolon]
    rfl
  | some n =>
    have hparts := p.site.map_tree_parts
    rw [hw, partTrees, nameTokens, hname] at hparts
    obtain ⟨pre, rest, hsplit, -, hrest⟩ := List.map_eq_append_iff.mp hparts
    obtain ⟨first, rest, rfl, hfirst, hrest⟩ := List.map_eq_cons_iff.mp hrest
    obtain ⟨second, rest, rfl, hsecond, -⟩ := List.map_eq_cons_iff.mp hrest
    obtain ⟨l, rfl, hl⟩ := Site.exists_leaf_of_tree hfirst
    obtain ⟨colon, rfl, hcolon⟩ := Site.exists_leaf_of_tree hsecond
    have hkind : colon.kind = .colon := congrArg Token.kind hcolon
    have hmem : colon.site ∈ p.site.parts := by
      rw [hsplit]
      apply List.mem_append_right _ (List.mem_cons_of_mem _ List.mem_cons_self)
    have hcount := (p.wellFormed (SourceFile.partKinds_mem hp p.kind_site)).count_colon
    rw [← hkind] at hcount
    have hown := Site.ownToken?_of_count hcount hmem
    rw [hkind] at hown
    have hident : l.kind = .ident := congrArg Token.kind hl
    rw [Param.name?, hown, Option.bind_some, Site.previousSignificant?_of_parts hsplit,
      Option.filter_some, if_pos (decide_eq_true hident), Option.map_some, Leaf.text, hl]
    rfl

/-- The qualifiers of a parameter are those that were written. -/
theorem map_token_qualifierTokens (hw : p.site.tree = w.tree) :
  p.qualifierTokens.map Leaf.token = w.qualifiers.map Qualifier.token
  := by
  have hname : (w.name.elim [] fun n => [n.token, ⟨.colon, ":"⟩, .blank]).filter
      (·.kind.isQualifier) = [] := by
    cases w.name <;> rfl
  have htype : w.typeTree.token?.toList.filter (·.kind.isQualifier) = [] := by
    rw [token?_typeTree]
    cases w.type <;> rfl
  have hqualifiers : (w.qualifiers.flatMap fun q => [q.token, .blank]).filter (·.kind.isQualifier)
      = w.qualifiers.map Qualifier.token := by
    induction w.qualifiers with
    | nil => rfl
    | cons q qs ih =>
      rw [List.flatMap_cons, List.filter_append, ih]
      cases q <;> rfl
  have hfilter : p.qualifierTokens.map Leaf.token
      = (p.site.ownTokens.map Leaf.token).filter (·.kind.isQualifier) := by
    rw [List.filter_map]
    rfl
  rw [hfilter, Site.map_token_ownTokens, hw, ownTokens_tree, frontTokens, List.filter_append,
    List.filter_append, hqualifiers, hname, htype, List.append_nil, List.append_nil]

theorem contains_qualifiers (hp : p.site ∈ (SourceFile.ofText text).root.descendants)
    (hw : p.site.tree = w.tree) (q : Qualifier) :
  p.qualifiers.contains q.token.kind = w.qualifiers.contains q
  := by
  have htokens := map_token_qualifierTokens hw
  have hlength : p.qualifierTokens.length ≤ 2 := by
    have hlength := congrArg List.length htokens
    rw [List.length_map, List.length_map] at hlength
    rw [hlength]
    apply w.length_le
  have hall : p.qualifierTokens.rtake 2 = p.qualifierTokens := by
    rw [List.rtake, Nat.sub_eq_zero_of_le hlength, List.drop_zero]
  have hkinds : p.qualifierTokens.map Leaf.kind = w.qualifiers.map fun q => q.token.kind := by
    have hkinds := congrArg (List.map Token.kind) htokens
    rw [List.map_map, List.map_map] at hkinds
    apply hkinds
  have hinjective : Function.Injective fun q : Qualifier => q.token.kind := by
    intro q r
    cases q <;> cases r <;> first | exact fun _ => rfl | nofun
  rw [Bool.eq_iff_iff, Param.contains_qualifiers_iff hp, hall, List.contains_iff_mem,
    ← List.mem_map, hkinds, List.mem_map_of_injective hinjective]

/-- What a caller sees of a parameter is what was written. -/
theorem ofParam_eq (hp : p.site ∈ (SourceFile.ofText text).root.descendants)
    (hw : p.site.tree = w.tree) :
  Parameter.ofParam p = w.parameter
  := by
  have htype : (p.type?.map NodeSite.text).getD "" = w.type.elim "" TypeExpr.text := by
    have hmap := congrArg (Option.map Tree.text) (type?_eq hw)
    rw [Option.map_map, Option.map_map] at hmap
    have htext : p.type?.map NodeSite.text = w.type.map (Tree.text ∘ TypeExpr.tree) := hmap
    rw [htext]
    cases w.type with
    | none => rfl
    | some t => apply t.text_tree
  rw [Parameter.ofParam, parameter, name?_eq hp hw, htype, isSome_anytype? hw,
    ← contains_qualifiers hp hw .noalias, ← contains_qualifiers hp hw .comptime]
  rfl

end WrittenParameter

/-! ### Functions -/

namespace WrittenFunction

variable {f : WrittenFunction}

/-- A written function is the only function in its text. -/
theorem exists_function (hsize : f.text.utf8ByteSize ≤ countLimit) (h : f.Nests nestingLimit) :
  ∃ d : FnDecl, (SourceFile.ofText f.text).root.descendants.filterMap
      (NodeSite.ofSite? (NodeKind.is .fnDecl)) = [d]
    ∧ d.site ∈ (SourceFile.ofText f.text).root.descendants ∧ d.site.tree = f.tree
  := by
  have hroot : (SourceFile.ofText f.text).root.tree = .node .sourceFile [f.tree] :=
    congrArg Parse.tree (ofText_text hsize h)
  have helements := Site.map_tree_elements (SourceFile.ofText f.text).root
  rw [hroot, Tree.children] at helements
  obtain ⟨e, helements, he⟩ := List.map_eq_singleton_iff.mp helements
  have hdescendants := (SourceFile.ofText f.text).root.descendants_eq
  rw [helements, List.flatMap_singleton, e.descendants_eq] at hdescendants
  have hkind : e.kind = .node .fnDecl := by
    rw [Site.kind, he]
    rfl
  obtain ⟨d, rfl⟩ : ∃ d : FnDecl, d.site = e := Site.exists_node (by rw [hkind]; rfl)
  have hinner : (d.site.elements.flatMap Site.descendants).filterMap
      (NodeSite.ofSite? (NodeKind.is .fnDecl)) = [] := by
    rw [List.filterMap_eq_nil_iff]
    intro x hx
    obtain ⟨c, hc, hx⟩ := List.mem_flatMap.mp hx
    have hchild := Site.tree_mem_children hc
    rw [he] at hchild
    have hbounded := Site.shaped_descendants (f.bounded_children _ hchild) x hx
    apply Site.ofSite?_eq_none
    rw [Site.kind]
    generalize x.tree = t at hbounded
    cases hbounded with
    | token t => rfl
    | node fits _ => apply decide_eq_false fits.1
  refine ⟨d, ?_, ?_, he⟩
  · have hnone : NodeSite.ofSite? (NodeKind.is .fnDecl) (SourceFile.ofText f.text).root = none := by
      apply Site.ofSite?_eq_none
      rw [Site.kind, hroot]
      rfl
    rw [hdescendants, List.filterMap_cons, hnone, List.filterMap_cons, d.ofSite?_site, hinner]
  · rw [hdescendants]
    apply List.mem_cons_of_mem _ List.mem_cons_self

theorem exists_paramList {d : FnDecl} (hf : d.site.tree = f.tree) :
  ∃ l : ParamList, d.paramList? = some l
    ∧ l.site.tree = .listed [.comma, .blank] .paramList (f.parameters.map WrittenParameter.tree)
  := by
  have hlist := Site.map_tree_childOf? (NodeKind.is .paramList) d.site
  rw [hf] at hlist
  apply Option.map_eq_some_iff.mp hlist

/-- The parameters in the list are those that were written. -/
theorem map_tree_parameters {l : ParamList}
    (hl : l.site.tree
      = .listed [.comma, .blank] .paramList (f.parameters.map WrittenParameter.tree)) :
  l.parameters.map (·.site.tree) = f.parameters.map WrittenParameter.tree
  := by
  rw [ParamList.parameters, Site.map_tree_childrenOf, hl]
  apply Tree.filter_listed (fun _ => rfl)
  rw [List.forall_mem_map]
  intro p _
  rfl

theorem ofFnDecl_eq {text : String} {d : FnDecl}
    (hd : d.site ∈ (SourceFile.ofText text).root.descendants) (hf : d.site.tree = f.tree) :
  Signature.ofFnDecl d = ⟨f.parameters.map WrittenParameter.parameter⟩
  := by
  obtain ⟨l, hlist, hl⟩ := exists_paramList hf
  have hparameters : d.parameters = l.parameters := by rw [FnDecl.parameters, hlist]
  rw [Signature.ofFnDecl, hparameters, Signature.mk.injEq]
  apply map_eq_map_of_imp (map_tree_parameters hl)
  intro p hp w _ hw
  have hmem := Site.element_mem_descendants hd (Site.mem_elements_of_childOf? hlist)
  have hmem := Site.element_mem_descendants hmem (Site.mem_elements_of_childrenOf hp)
  apply WrittenParameter.ofParam_eq hmem hw

end WrittenFunction

/-- A written function that is not too long and whose types do not nest too deep is parsed without
faults.  There is one function in its text, and the parameters of its signature are those that were
written. -/
theorem Signature.ofFnDecl_text {f : WrittenFunction} (hsize : f.text.utf8ByteSize ≤ countLimit)
    (h : f.Nests nestingLimit) :
  (SourceFile.ofText f.text).parse.faults = []
    ∧ ∃ d : FnDecl, (SourceFile.ofText f.text).root.descendants.filterMap
        (NodeSite.ofSite? (NodeKind.is .fnDecl)) = [d]
      ∧ Signature.ofFnDecl d = ⟨f.parameters.map WrittenParameter.parameter⟩
  := by
  obtain ⟨d, honly, hd, hf⟩ := WrittenFunction.exists_function hsize h
  constructor
  · rw [SourceFile.ofText, WrittenFunction.ofText_text hsize h]
  · exact ⟨d, honly, WrittenFunction.ofFnDecl_eq hd hf⟩

/-- A function with a qualified parameter, whose type is a pointer to a call, and a parameter
without name and type. -/
def WrittenFunction.sample : WrittenFunction where
  name := ⟨"f", Lexer.mem_ident.mpr ⟨'f', [], rfl, rfl, nofun⟩, rfl⟩
  parameters :=
    let a : Identifier := ⟨"a", Lexer.mem_ident.mpr ⟨'a', [], rfl, rfl, nofun⟩, rfl⟩
    let t : Identifier := ⟨"T", Lexer.mem_ident.mpr ⟨'T', [], rfl, rfl, nofun⟩, rfl⟩
    let arguments : List TypeExpr := [.field (.name a) t, .modified .slice false (.name t)]
    [⟨[.noalias, .comptime], le_refl 2, some a,
        some (.modified .star true (.call (.name t) arguments))⟩,
      ⟨[], Nat.zero_le 2, none, none⟩]

theorem Signature.ofFnDecl_text_sample :
  WrittenFunction.sample.text = "fn f(noalias comptime a: *const T(a.T, []T), anytype) void {}"
    ∧ WrittenFunction.sample.text.utf8ByteSize ≤ countLimit
    ∧ WrittenFunction.sample.Nests nestingLimit
    ∧ (SourceFile.ofText WrittenFunction.sample.text).parse.faults = []
    ∧ ∃ d : FnDecl, (SourceFile.ofText WrittenFunction.sample.text).root.descendants.filterMap
        (NodeSite.ofSite? (NodeKind.is .fnDecl)) = [d]
      ∧ Signature.ofFnDecl d
        = ⟨[⟨some "a", "*const T(a.T, []T)", false, true, true⟩, ⟨none, "", true, false, false⟩]⟩
  := by
  have htext : WrittenFunction.sample.text
      = "fn f(noalias comptime a: *const T(a.T, []T), anytype) void {}" := by
    simp [WrittenFunction.text, WrittenFunction.sample, WrittenParameter.text, TypeExpr.text,
      TypeModifier.text, Qualifier.text]
  have hsize : WrittenFunction.sample.text.utf8ByteSize ≤ countLimit := by
    rw [htext]
    decide
  have hnests : WrittenFunction.sample.Nests nestingLimit := by
    simp [WrittenFunction.Nests, WrittenFunction.sample, TypeExpr.depth, TypeExpr.modifiers,
      TypeExpr.argumentDepth, nestingLimit]
  have hparameters : WrittenFunction.sample.parameters.map WrittenParameter.parameter
      = [⟨some "a", "*const T(a.T, []T)", false, true, true⟩, ⟨none, "", true, false, false⟩] := by
    simp [WrittenFunction.sample, WrittenParameter.parameter, TypeExpr.text, TypeModifier.text]
  use htext, hsize, hnests
  rw [← hparameters]
  apply ofFnDecl_text hsize hnests

/-- No keyword has more than eight letters. -/
theorem Lexer.keyword?_eq_none {text : String} (h : 8 < text.utf8ByteSize) :
  keyword? text = none
  := by
  have hshort : ∀ kw ∈ keywords, kw.2.utf8ByteSize ≤ 8 := by decide
  apply Option.eq_none_iff_forall_ne_some.mpr
  intro k hk
  have hle : text.utf8ByteSize ≤ 8 := hshort (k, text) (keyword?_eq_some.mp hk)
  omega

/-- A name of `n` letters. -/
def Identifier.ofSize (n : Nat) (h : 8 < n) : Identifier where
  text := repeated 'a' n
  mem := by
    obtain ⟨m, rfl⟩ := Nat.exists_eq_succ_of_ne_zero (Nat.ne_zero_of_lt h)
    rw [toList_repeated, List.replicate_succ]
    apply Lexer.mem_ident.mpr ⟨'a', List.replicate m 'a', rfl, rfl, _⟩
    exact List.forall_mem_replicate.mpr (Or.inr rfl)
  notKeyword := Lexer.keyword?_eq_none (by rwa [utf8ByteSize_repeated rfl])

/-- A function without parameters whose name has `n` letters. -/
def WrittenFunction.named (n : Nat) (h : 8 < n) : WrittenFunction where
  name := .ofSize n h
  parameters := []

/-- A function whose name has too many letters is not read. -/
theorem WrittenFunction.faults_named {n : Nat} (hn : countLimit < n) (h : 8 < n) :
  (WrittenFunction.named n h).Nests nestingLimit
    ∧ (SourceFile.ofText (WrittenFunction.named n h).text).parse.faults ≠ []
  := by
  constructor
  · apply List.forall_mem_nil
  · have hname : (Identifier.ofSize n h).text.utf8ByteSize = n := utf8ByteSize_repeated rfl n
    have hlt : countLimit < (WrittenFunction.named n h).text.utf8ByteSize := by
      simp only [WrittenFunction.text, WrittenFunction.named, String.utf8ByteSize_append, hname]
      omega
    rw [SourceFile.ofText, Parse.faults_ofText_of_lt hlt]
    apply List.cons_ne_nil

/-- A name as long as all that can be addressed leaves no room for a function. -/
theorem Signature.ofFnDecl_text_overlong :
  (WrittenFunction.named 4294967296 (by decide)).Nests nestingLimit
    ∧ (SourceFile.ofText (WrittenFunction.named 4294967296 (by decide)).text).parse.faults ≠ []
  := WrittenFunction.faults_named (by decide) _

end InlayHints
