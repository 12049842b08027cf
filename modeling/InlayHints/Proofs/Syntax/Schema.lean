import InlayHints.Proofs.Syntax.Layout
import InlayHints.Proofs.Syntax.Site.Parts
import InlayHints.Proofs.Syntax.Trimmed
import InlayHints.Syntax.SourceFile

/-!
# Nodes keep their shape

Whatever faults a text has, the nodes of its tree have the parts that one looks for in them, and
only once (`SourceFile.wellFormed_ofText`): a call has a callee and then arguments, the access to
a field has its name, a declaration its keyword.  So the first child of a kind is the only one, and
what must be there is found.  This is read off the layouts of the nodes.
-/

namespace InlayHints

/-- The kinds of the keywords that say whether a value may change. -/
def Kind.isMutability : Kind → Bool
  | .token k => Construct.isMutability k
  | _ => false

/-! ### Well-formed nodes -/

/-- A call consists of a callee and a list of arguments. -/
def Call.WellFormed (c : Call) : Prop :=
  ∃ (callee : Expr) (list : ArgumentList), c.site.parts = [callee.site, list.site]
    ∧ c.callee? = some callee ∧ c.argumentList? = some list

/-- The access to a field consists of a receiver, a dot and a name. -/
def FieldAccess.WellFormed (a : FieldAccess) : Prop :=
  ∃ (receiver : Expr) (dot name : Leaf), a.site.parts = [receiver.site, dot.site, name.site]
    ∧ dot.kind = .dot ∧ name.kind = .ident
    ∧ a.receiver? = some receiver ∧ a.fieldName? = some name

/-- The call of a builtin starts with its name, and it has nothing else but maybe arguments. -/
def BuiltinCall.WellFormed (c : BuiltinCall) : Prop :=
  ∃ name : Leaf, name.kind = .builtinIdent ∧ c.name? = some name
    ∧ c.site.elements.head? = some name.site
    ∧ (c.site.parts = [name.site] ∨ ∃ list : ArgumentList, c.site.parts = [name.site, list.site])

/-- A name consists of an identifier. -/
def NameRef.WellFormed (n : NameRef) : Prop :=
  ∃ name : Leaf, n.site.parts = [name.site] ∧ name.kind = .ident ∧ n.identifier? = some name

/-- The declaration of a constant or a variable has one keyword and at most one type and one
value, and the value follows the equals sign. -/
structure VarDecl.WellFormed (d : VarDecl) : Prop where
  countP_mutability : d.site.partKinds.countP Kind.isMutability = 1
  isSome_mutability : d.mutability?.isSome = true
  count_ascription : d.site.partKinds.count (.node .typeAscription) ≤ 1
  count_sign : d.site.partKinds.count (.token .eq) ≤ 1
  countP_value : d.site.partKinds.countP Kind.isExpr ≤ 1
  value_after_sign : ∀ before e after, d.site.parts = before ++ e :: after →
    e.kind.isExpr = true → ∃ sign ∈ before, sign.kind = .token .eq
  initializer : ∀ e : Expr, e.site ∈ d.site.elements → d.initializer? = some e

/-- The declaration of a function has one keyword and one list of parameters, and at most one
name. -/
structure FnDecl.WellFormed (d : FnDecl) : Prop where
  count_keyword : d.site.partKinds.count (.token .fnKw) = 1
  count_name : d.site.partKinds.count (.token .ident) ≤ 1
  count_parameters : d.site.partKinds.count (.node .paramList) = 1

/-- A parameter has at most one colon, right after its name, and at most one type, for which
`anytype` does not stand. -/
structure Param.WellFormed (p : Param) : Prop where
  count_colon : p.site.partKinds.count (.token .colon) ≤ 1
  name_before_colon : ∀ before after, p.site.partKinds = before ++ .token .colon :: after →
    before.getLast? = some (.token .ident)
  countP_type : p.site.partKinds.countP Kind.isExpr ≤ 1
  no_type_of_anytype : .token .anytypeKw ∈ p.site.partKinds →
    ∀ k ∈ p.site.partKinds, k.isExpr = false

/-- All nodes of a file are well-formed, and tokens that no token class describes stand in error
nodes only. -/
structure SourceFile.WellFormed (f : SourceFile) : Prop where
  calls : ∀ c : Call, c.site ∈ f.root.descendants → c.WellFormed
  accesses : ∀ a : FieldAccess, a.site ∈ f.root.descendants → a.WellFormed
  builtins : ∀ c : BuiltinCall, c.site ∈ f.root.descendants → c.WellFormed
  names : ∀ n : NameRef, n.site ∈ f.root.descendants → n.WellFormed
  declarations : ∀ d : VarDecl, d.site ∈ f.root.descendants → d.WellFormed
  functions : ∀ d : FnDecl, d.site ∈ f.root.descendants → d.WellFormed
  parameters : ∀ p : Param, p.site ∈ f.root.descendants → p.WellFormed
  tokens_of_root : ∀ l ∈ f.root.ownTokens, l.isTrivia = true
  error_tokens : ∀ s ∈ f.root.descendants, s.kind = .token .errorToken →
    ∃ e ∈ f.root.descendants, e.kind = .node .error ∧ s ∈ e.elements

/-! ### Kinds -/

theorem Construct.isMutability_eq (k : TokenKind) :
  isMutability k = (k = .constKw || k = .varKw)
  := by
  cases k <;> rfl

namespace Kind

theorem isNode_is (k : NodeKind) :
  (node k).isNode (NodeKind.is k) = true
  := decide_eq_true rfl

theorem isExpr_eq :
  isExpr = isNode NodeKind.isExpr
  := by
  funext k
  cases k with
  | token k => rfl
  | endOfText => rfl
  | node k => rfl

/-- Arguments are not an expression. -/
theorem isNode_argList_of_isExpr {k : Kind} (h : k.isExpr = true) :
  k.isNode (NodeKind.is .argList) = false
  := by
  cases k with
  | token k => rfl
  | endOfText => rfl
  | node k =>
    cases k with
    | argList => contradiction
    | _ => rfl

end Kind

/-- The kind of a node of one kind. -/
theorem NodeSite.kind_site {k : NodeKind} (n : NodeSite (NodeKind.is k)) :
  n.site.kind = .node k
  := by
  have hkind := n.isNode_kind
  cases hs : n.site.kind with
  | node l =>
    rw [hs] at hkind
    rw [of_decide_eq_true hkind]
  | _ =>
    rw [hs] at hkind
    contradiction

/-- An expression has the kind of an expression. -/
theorem Expr.isExpr_kind (e : Expr) :
  e.site.kind.isExpr = true
  := by
  rw [Kind.isExpr_eq]
  apply e.isNode_kind

namespace Site

variable {e : Site}

theorem exists_expr (h : e.kind.isExpr = true) :
  ∃ x : Expr, x.site = e
  := by
  rw [Kind.isExpr_eq] at h
  apply exists_node h

theorem exists_argumentList (h : e.kind = .node .argList) :
  ∃ list : ArgumentList, list.site = e
  := by
  apply exists_node
  rw [h]
  apply Kind.isNode_is

end Site

/-! ### Expressions -/

section

open Layout

theorem Call.wellFormed {c : Call} (h : c.site.partKinds ∈ (NodeKind.layout .callExpr).language) :
  c.WellFormed
  := by
  obtain ⟨_, ⟨k, hk, rfl⟩, _, hlist, hkinds⟩ := mem_andThen.mp h
  rw [mem_node.mp hlist] at hkinds
  obtain ⟨e₁, _, hparts, rfl, hrest⟩ := List.map_eq_cons_iff.mp hkinds.symm
  obtain ⟨e₂, rfl, hkind₂⟩ := List.map_eq_singleton_iff.mp hrest
  obtain ⟨callee, rfl⟩ := Site.exists_expr hk
  obtain ⟨list, rfl⟩ := Site.exists_argumentList hkind₂
  use callee, list, hparts
  constructor
  · have hfirst : c.site.parts = [] ++ callee.site :: [list.site] := hparts
    apply Site.childOf?_of_parts hfirst (List.forall_mem_nil _)
  · have hsecond : c.site.parts = [callee.site] ++ list.site :: [] := hparts
    apply Site.childOf?_of_parts hsecond
    intro e he
    rw [List.mem_singleton.mp he]
    apply Kind.isNode_argList_of_isExpr hk

theorem FieldAccess.wellFormed {a : FieldAccess}
    (h : a.site.partKinds ∈ (NodeKind.layout .fieldExpr).language) :
  a.WellFormed
  := by
  obtain ⟨_, ⟨k, hk, rfl⟩, _, hrest, hkinds⟩ := mem_andThen.mp h
  obtain ⟨_, hdot, _, hname, rfl⟩ := mem_andThen.mp hrest
  rw [mem_token.mp hdot, mem_token.mp hname] at hkinds
  obtain ⟨e₁, _, hparts, rfl, hrest⟩ := List.map_eq_cons_iff.mp hkinds.symm
  obtain ⟨e₂, _, rfl, hkind₂, hrest⟩ := List.map_eq_cons_iff.mp hrest
  obtain ⟨e₃, rfl, hkind₃⟩ := List.map_eq_singleton_iff.mp hrest
  obtain ⟨receiver, rfl⟩ := Site.exists_expr hk
  obtain ⟨dot, rfl, hdot⟩ := Site.exists_leaf hkind₂
  obtain ⟨name, rfl, hname⟩ := Site.exists_leaf hkind₃
  use receiver, dot, name, hparts, hdot, hname
  constructor
  · have hfirst : a.site.parts = [] ++ receiver.site :: [dot.site, name.site] := hparts
    apply Site.childOf?_of_parts hfirst (List.forall_mem_nil _)
  · have htrivia : ∀ l : Leaf, decide (l.kind = .ident) = true → l.isTrivia = false := by
      intro l hl
      rw [Leaf.isTrivia_eq, of_decide_eq_true hl]
      rfl
    have htokens : a.site.parts.filterMap Site.leaf? = [dot, name] := by
      rw [hparts, List.filterMap_cons_none receiver.leaf?_site]
      rfl
    rw [fieldName?, Site.filter_ownTokens htrivia, htokens]
    simp [hdot, hname]

theorem BuiltinCall.wellFormed {c : BuiltinCall}
    (h : c.site.partKinds ∈ (NodeKind.layout .builtinCall).language)
    (htrimmed : Tree.Trimmed c.site.tree.children) :
  c.WellFormed
  := by
  obtain ⟨_, hname, ks, hlist, hkinds⟩ := mem_andThen.mp h
  rw [mem_token.mp hname] at hkinds
  obtain ⟨e₁, es, hparts, hkind₁, hrest⟩ := List.map_eq_cons_iff.mp hkinds.symm
  obtain ⟨name, rfl, hname⟩ := Site.exists_leaf hkind₁
  have htrivia : name.isTrivia = false := by
    rw [Leaf.isTrivia_eq, hname]
    rfl
  use name, hname
  refine ⟨?_, ?_, ?_⟩
  · rw [name?, ← hname]
    apply Site.ownToken?_of_parts hparts htrivia
  · rw [Site.head?_elements htrimmed, hparts]
    rfl
  · rcases mem_maybe.mp hlist with hlist | rfl
    · rw [mem_node.mp hlist] at hrest
      obtain ⟨e₂, rfl, hkind₂⟩ := List.map_eq_singleton_iff.mp hrest
      obtain ⟨list, rfl⟩ := Site.exists_argumentList hkind₂
      apply Or.inr ⟨list, hparts⟩
    · rw [List.map_eq_nil_iff.mp hrest] at hparts
      apply Or.inl hparts

theorem NameRef.wellFormed {n : NameRef}
    (h : n.site.partKinds ∈ (NodeKind.layout .nameRef).language) :
  n.WellFormed
  := by
  obtain ⟨e, hparts, hkind⟩ := List.map_eq_singleton_iff.mp (mem_token.mp h)
  obtain ⟨name, rfl, hname⟩ := Site.exists_leaf hkind
  use name, hparts, hname
  rw [identifier?, ← hname]
  apply Site.ownToken?_of_parts hparts
  rw [Leaf.isTrivia_eq, hname]
  rfl

/-! ### Declarations -/

/-- The value of a declaration follows an equals sign. -/
theorem VarDecl.exists_sign {d : VarDecl}
    (h : d.site.partKinds ∈ (NodeKind.layout .varDecl).language)
    {before after : List Site} {e : Site} (hparts : d.site.parts = before ++ e :: after)
    (he : e.kind.isExpr = true) :
  ∃ sign ∈ before, sign.kind = .token .eq
  := by
  have hkinds : d.site.partKinds = before.map Site.kind ++ e.kind :: after.map Site.kind := by
    rw [Site.partKinds, hparts, List.map_append, List.map_cons]
  have hleads : (NodeKind.layout .varDecl).leads (· == .token .eq) Kind.isExpr = true := by decide
  obtain ⟨k, hk, heq⟩ := exists_before_of_leads hleads h hkinds he
  obtain ⟨sign, hsign, rfl⟩ := List.mem_map.mp hk
  use sign, hsign, eq_of_beq heq

/-- The value of a declaration is found behind the equals sign. -/
theorem VarDecl.initializer?_eq {d : VarDecl}
    (h : d.site.partKinds ∈ (NodeKind.layout .varDecl).language) {e : Expr}
    (he : e.site ∈ d.site.elements) :
  d.initializer? = some e
  := by
  obtain ⟨before, after, hparts⟩ := List.append_of_mem (Site.mem_parts.mpr ⟨he, e.isTrivia_site⟩)
  obtain ⟨x, hx, hkind⟩ := exists_sign h hparts e.isExpr_kind
  obtain ⟨sign, rfl, hsign⟩ := Site.exists_leaf hkind
  have hfound : d.site.ownToken? .eq = some sign := by
    have hmem : sign.site ∈ d.site.parts := by
      rw [hparts]
      apply List.mem_append_left _ hx
    rw [← hsign]
    apply Site.ownToken?_of_count _ hmem
    rw [hsign]
    apply countP_le_one (by decide) h
  have hstop : sign.stop ≤ e.start := by
    have hordered := d.site.pairwise_parts
    rw [hparts, List.pairwise_append] at hordered
    have hle := hordered.2.2 _ hx _ List.mem_cons_self
    rw [Site.stop, Leaf.site, Tree.width_token] at hle
    apply hle
  rw [initializer?, hfound, Option.bind_some]
  apply Site.findSome?_of_countP (s := d.site)
  · rw [← Kind.isExpr_eq]
    apply countP_le_one (by decide) h
  · intro x hx
    apply List.mem_of_mem_filter hx
  · apply List.mem_filter.mpr ⟨he, decide_eq_true hstop⟩

theorem VarDecl.wellFormed {d : VarDecl}
    (h : d.site.partKinds ∈ (NodeKind.layout .varDecl).language) :
  d.WellFormed
  where
  countP_mutability := countP_eq_one (by decide) (by decide) h
  isSome_mutability := by
    have hleast : (NodeKind.layout .varDecl).atLeastOnce Kind.isMutability = true := by decide
    obtain ⟨k, hk, hmutability⟩ := exists_of_atLeastOnce hleast h
    obtain ⟨e, he, rfl⟩ := List.mem_map.mp hk
    cases hkind : e.kind with
    | token k =>
      obtain ⟨l, rfl, rfl⟩ := Site.exists_leaf hkind
      rw [hkind] at hmutability
      apply List.find?_isSome.mpr
      use l, Site.mem_ownTokens (Site.mem_parts.mp he).1
      rw [← Construct.isMutability_eq]
      apply hmutability
    | _ =>
      rw [hkind] at hmutability
      contradiction
  count_ascription := countP_le_one (by decide) h
  count_sign := countP_le_one (by decide) h
  countP_value := countP_le_one (by decide) h
  value_after_sign _ _ _ hparts he := exists_sign h hparts he
  initializer _ he := initializer?_eq h he

theorem FnDecl.wellFormed {d : FnDecl} (h : d.site.partKinds ∈ (NodeKind.layout .fnDecl).language) :
  d.WellFormed
  where
  count_keyword := countP_eq_one (by decide) (by decide) h
  count_name := countP_le_one (by decide) h
  count_parameters := countP_eq_one (by decide) (by decide) h

/-- Only the colon behind the name of a parameter is a colon of the parameter. -/
theorem Param.getLast?_before_colon {p : Param}
    (h : p.site.partKinds ∈ (NodeKind.layout .param).language) {before after : List Kind}
    (hkinds : p.site.partKinds = before ++ .token .colon :: after) :
  before.getLast? = some (.token .ident)
  := by
  obtain ⟨qualifiers, hqualifiers, _, hrest, heq⟩ := mem_andThen.mp h
  obtain ⟨name, hname, type, htype, rfl⟩ := mem_andThen.mp hrest
  have hcolon : (Kind.token .colon == .token .colon) = true := beq_self_eq_true _
  have hnone₁ := notMem_of_avoids (by decide) hqualifiers hcolon
  have hnone₂ := notMem_of_avoids (by decide) htype hcolon
  rw [hkinds] at heq
  rcases mem_maybe.mp hname with hname | rfl
  · obtain ⟨_, hident, _, hcolon, rfl⟩ := mem_andThen.mp hname
    rw [mem_token.mp hident, mem_token.mp hcolon] at heq
    have hsplit : (qualifiers ++ [.token .ident]) ++ .token .colon :: type
        = before ++ .token .colon :: after := by
      rw [← heq, List.append_assoc]
      rfl
    have hnone : Kind.token .colon ∉ qualifiers ++ [.token .ident] := by simp [hnone₁]
    obtain ⟨rfl, -, -⟩ := (List.append_cons_inj_of_notMem hnone hnone₂).mp hsplit
    apply List.getLast?_concat
  · have hmem : Kind.token .colon ∈ qualifiers ++ type := by
      rw [← List.nil_append type, heq]
      apply List.mem_append_right before List.mem_cons_self
    rcases List.mem_append.mp hmem with hmem | hmem
    · apply absurd hmem hnone₁
    · apply absurd hmem hnone₂

theorem Param.wellFormed {p : Param} (h : p.site.partKinds ∈ (NodeKind.layout .param).language) :
  p.WellFormed
  where
  count_colon := countP_le_one (by decide) h
  name_before_colon _ _ hkinds := getLast?_before_colon h hkinds
  countP_type := countP_le_one (by decide) h
  no_type_of_anytype hanytype k hk := by
    have hmost : (NodeKind.layout .param).atMostOnce
        (fun k => k == .token .anytypeKw || k.isExpr) = true := by decide
    apply Bool.eq_false_iff.mpr
    intro hexpr
    have heq : .token .anytypeKw = k := by
      apply eq_of_countP_le_one (countP_le_one hmost h) hanytype rfl hk
      rw [hexpr, Bool.or_true]
    rw [← heq] at hexpr
    contradiction

/-! ### Files -/

/-- Only error nodes have tokens as parts that no token class describes. -/
theorem NodeKind.avoids_errorToken {kind : NodeKind} (h : kind ≠ .error) :
  kind.layout.avoids (· == .token .errorToken) = true
  := by
  cases kind with
  | error => contradiction
  | _ => decide

namespace SourceFile

variable {text : String} {s : Site}

theorem partKinds_mem (hs : s ∈ (ofText text).root.descendants) {kind : NodeKind}
    (hkind : s.kind = .node kind) :
  s.partKinds ∈ kind.layout.language
  := by
  have hshaped := Site.shaped_descendants (Parse.shaped_ofText Parse.laidOut_ofTokens text) s hs
  rw [Site.partKinds_eq]
  apply Site.fits_of_shaped hshaped hkind

/-- No node of a file starts with trivia, the file itself apart. -/
theorem trimmed_children (hs : s ∈ (ofText text).root.descendants) {kind : NodeKind}
    (hkind : s.kind = .node kind) (hroot : kind ≠ .sourceFile) :
  Tree.Trimmed s.tree.children
  := by
  have hne : s ≠ (ofText text).root := by
    rintro rfl
    rw [kind_root] at hkind
    apply hroot (Kind.node.inj hkind).symm
  have hshaped : s.tree.Shaped Tree.StartsSignificant :=
    Site.shaped_of_children
      (Parse.shaped_children_ofText Parse.startsSignificant_ofTokens text) hs hne
  apply (Site.fits_of_shaped hshaped hkind).trimmed

/-- All parts of a file are nodes. -/
theorem isTrivia_rootTokens :
  ∀ l ∈ (ofText text).root.ownTokens, l.isTrivia = true
  := by
  intro l hl
  cases htrivia : l.isTrivia with
  | true => rfl
  | false =>
    have honly : (NodeKind.layout .sourceFile).only (Kind.isNode fun _ => true) = true := by decide
    have hmem := partKinds_mem (Site.self_mem_descendants (ofText text).root) (kind_root text)
    have hnode := forall_of_only honly hmem _ (Site.mem_partKinds (Site.site_mem_parts hl htrivia))
    contradiction

/-- What only nodes of one kind have as a part stands in such a node. -/
theorem exists_parent_of_avoids (hs : s ∈ (ofText text).root.descendants) {kind : Kind}
    (hkind : s.kind = kind) (htrivia : s.tree.isTrivia = false) {parent : NodeKind}
    (havoids : ∀ k, k ≠ parent → k.layout.avoids (· == kind) = true)
    (hroot : kind ≠ .node .sourceFile) :
  ∃ e ∈ (ofText text).root.descendants, e.kind = .node parent ∧ s ∈ e.elements
  := by
  rcases Site.exists_parent hs with rfl | ⟨e, he, hse⟩
  · rw [kind_root] at hkind
    apply absurd hkind.symm hroot
  · obtain ⟨k, _, _, htree, -⟩ := Site.exists_of_mem_elements hse
    have hnode : e.kind = .node k := by rw [Site.kind, htree]; rfl
    have hparent : k = parent := by
      by_contra hne
      apply notMem_of_avoids (havoids k hne) (partKinds_mem he hnode) (beq_self_eq_true kind)
      rw [← hkind]
      apply Site.mem_partKinds (Site.mem_parts.mpr ⟨hse, htrivia⟩)
    use e, he, hparent ▸ hnode, hse

/-- Tokens that no token class describes stand in error nodes only. -/
theorem exists_error (hs : s ∈ (ofText text).root.descendants)
    (hkind : s.kind = .token .errorToken) :
  ∃ e ∈ (ofText text).root.descendants, e.kind = .node .error ∧ s ∈ e.elements
  := by
  obtain ⟨l, rfl, hl⟩ := Site.exists_leaf hkind
  apply exists_parent_of_avoids hs hkind _ (fun _ => NodeKind.avoids_errorToken) nofun
  rw [l.isTrivia_site, hl]
  rfl

/-- In the file of any text, all nodes are well-formed. -/
theorem wellFormed_ofText (text : String) :
  (ofText text).WellFormed
  where
  calls c hc := c.wellFormed (partKinds_mem hc c.kind_site)
  accesses a ha := a.wellFormed (partKinds_mem ha a.kind_site)
  builtins c hc := by
    have htrimmed := trimmed_children hc c.kind_site nofun
    apply c.wellFormed (partKinds_mem hc c.kind_site) htrimmed
  names n hn := n.wellFormed (partKinds_mem hn n.kind_site)
  declarations d hd := d.wellFormed (partKinds_mem hd d.kind_site)
  functions d hd := d.wellFormed (partKinds_mem hd d.kind_site)
  parameters p hp := p.wellFormed (partKinds_mem hp p.kind_site)
  tokens_of_root := isTrivia_rootTokens
  error_tokens _ hs hkind := exists_error hs hkind

/-- A call that is not closed is a call, and the token it breaks off with stands in an error
node. -/
example :
  (ofText "a.b($").root.descendants.map Site.kind
    = [.node .sourceFile, .node .exprStmt, .node .callExpr, .node .fieldExpr, .node .nameRef,
      .token .ident, .token .dot, .token .ident, .node .argList, .token .lParen, .node .error,
      .token .errorToken]
  := by
  cbv

end SourceFile

end

end InlayHints
