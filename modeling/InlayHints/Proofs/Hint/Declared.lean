import InlayHints.Proofs.Grammar.Derivation
import InlayHints.Proofs.Hint.Purity
import InlayHints.Proofs.Hint.Switches
import InlayHints.Proofs.Hint.Visits
import InlayHints.Proofs.Syntax.Acceptance
import InlayHints.Proofs.Syntax.Adjacent
import InlayHints.Proofs.Syntax.Schema

/-!
# Types of declarations

The type of a declared value is shown after the token that comes next after the keyword of the
declaration.  This is the name, if the declaration has one (`VarDecl.name?_of_ident`), as it does
in every text without faults (`SourceFile.exists_ident`).  Where the name is missing, it is
whatever stands there, in the declaration or behind it.  `inlayHints_named` says that this is so
for every type that a request shows, and in `inlayHints_named_unfinished` the type stands behind
the declaration.
-/

namespace InlayHints

open Layout Pattern

/-! ### Names of declarations -/

theorem isTrivia_of_isMutability {k : TokenKind} (h : Construct.isMutability k = true) :
  k.isTrivia = false
  := by
  cases k with
  | constKw => rfl
  | varKw => rfl
  | _ => contradiction

/-- If the declaration of a constant or variable has a name, it comes right after the keyword. -/
theorem NodeKind.exists_keyword {ks : List Kind} (h : ks ∈ (layout .varDecl).language) :
  ∃ pre keyword post, ks = pre ++ keyword :: post ∧ keyword.isMutability = true
    ∧ (.token .ident ∈ ks → ∃ rest, post = .token .ident :: rest)
  := by
  obtain ⟨pre, hpre, declared, hdeclared, rfl⟩ := mem_andThen.mp h
  obtain ⟨keywords, hkeyword, named, hnamed, rfl⟩ := mem_andThen.mp hdeclared
  obtain ⟨names, hnames, rest, hrest, rfl⟩ := mem_andThen.mp hnamed
  have hpre' : .token .ident ∉ pre :=
    notMem_of_avoids (p := (· == .token .ident)) (by decide) hpre rfl
  have hkeyword' : .token .ident ∉ keywords :=
    notMem_of_avoids (p := (· == .token .ident)) (by decide) hkeyword rfl
  have hrest' : .token .ident ∉ rest :=
    notMem_of_avoids (p := (· == .token .ident)) (by decide) hrest rfl
  obtain ⟨keyword, hmutability, rfl⟩ := mem_oneOf.mp hkeyword
  refine ⟨pre, keyword, names ++ rest, rfl, ?_, ?_⟩
  · rcases List.mem_pair.mp hmutability with rfl | rfl
    · rfl
    · rfl
  · intro hident
    rcases mem_maybe.mp hnames with hname | rfl
    · use rest
      rw [mem_token.mp hname]
      rfl
    · simp [hpre', hrest'] at hident hkeyword'
      contradiction

namespace VarDecl

variable {text : String} {d : VarDecl} {l : Leaf}

/-- The name that the walk from the keyword finds is the identifier of the declaration, if it has
one. -/
theorem name?_of_ident (hd : d.site ∈ (SourceFile.ofText text).root.descendants)
    (hl : l ∈ d.site.ownTokens) (hident : l.kind = .ident) :
  ∃ name : Leaf, name.kind = .ident ∧ name.site ∈ d.site.elements ∧ d.name? = some name
  := by
  have hmem : .token .ident ∈ d.site.partKinds := by
    have hpart := Site.site_mem_parts hl (by rw [l.isTrivia_eq, hident]; rfl)
    rw [← hident]
    apply Site.mem_partKinds hpart
  have hkinds := SourceFile.partKinds_mem hd d.kind_site
  obtain ⟨pre, kind, post, hsplit, hmutability, hnext⟩ := NodeKind.exists_keyword hkinds
  obtain ⟨rest, rfl⟩ := hnext hmem
  obtain ⟨before, es, hparts, rfl, hes⟩ := List.map_eq_append_iff.mp hsplit
  obtain ⟨e, es, rfl, rfl, hafter⟩ := List.map_eq_cons_iff.mp hes
  obtain ⟨n, after, rfl, hident', rfl⟩ := List.map_eq_cons_iff.mp hafter
  obtain ⟨name, rfl, hname⟩ := Site.exists_leaf hident'
  obtain ⟨keyword, hkeyword⟩ := Option.isSome_iff_exists.mp (wellFormed hkinds).isSome_mutability
  have hkind : Construct.isMutability keyword.kind = true := by
    rw [Construct.isMutability_eq]
    apply List.find?_some hkeyword
  have hown : keyword.site ∈ d.site.parts := by
    apply Site.site_mem_parts (List.mem_of_find?_eq_some hkeyword)
    rw [keyword.isTrivia_eq]
    apply isTrivia_of_isMutability hkind
  have he : e ∈ d.site.parts := by rw [hparts]; simp
  obtain rfl : keyword.site = e := by
    apply Site.eq_of_countP_partKinds (q := Kind.isMutability) _ hown hkind he hmutability
    rw [(wellFormed hkinds).countP_mutability]
  refine ⟨name, hname, (Site.mem_parts.mp (by rw [hparts]; simp)).1, ?_⟩
  rw [name?, hkeyword, Option.bind_some, Site.nextSignificant?_of_parts hparts]

end VarDecl

/-! ### Declarations without faults -/

/-- If the node is a declaration of a constant or a variable, it has an identifier. -/
def NodeKind.HasName (kind : NodeKind) (cs : List Tree) : Prop :=
  kind = .varDecl → ∃ t : Token, t.kind = .ident ∧ .token t ∈ cs

/-- Declarations that the grammar derives have names. -/
theorem Phrase.shaped_file {w : List Token} {ts : List Tree} (h : file.Derives production w ts) :
  ∀ t ∈ ts, t.Shaped NodeKind.HasName
  := by
  have hproduction : ∀ name, (production name).nodesPass
      (fun kind p => kind ≠ .varDecl || p.requires .ident) = true := by
    intro name
    cases name <;> decide
  apply h.shaped _ hproduction
  · rfl
  · rintro kind p w ts hcheck h rfl
    apply h.exists_token
    simpa using hcheck

theorem SourceFile.exists_ident {text : String} (h : (ofText text).parse.faults = [])
    {d : VarDecl} (hd : d.site ∈ (ofText text).root.descendants) :
  ∃ l ∈ d.site.ownTokens, l.kind = .ident
  := by
  have hread : (ofText text).parse = Parse.ofTokens (Token.lex text) := Parse.ofText_of_faults h
  have hfaults : (Parse.ofTokens (Token.lex text)).faults = [] := by rw [← hread, h]
  have hderives := (Parse.derives_iff_ofTokens (by rw [hfaults]; nofun) _).mpr
    ⟨hfaults, Parse.sift_ofTokens _⟩
  have hroot : (ofText text).root.tree.sift.Shaped NodeKind.HasName := by
    rw [root, Site.root, hread, Parse.sift_ofTokens]
    apply Tree.Shaped.node
    · intro hkind
      contradiction
    · apply Phrase.shaped_file hderives
  have hshaped := Site.shaped_descendants (Tree.shaped_of_sift hroot) d.site hd
  obtain ⟨t, ht, hmem⟩ := Site.fits_of_shaped hshaped d.kind_site rfl
  rw [Tree.siftAll, List.mem_filter, List.mem_map] at hmem
  obtain ⟨⟨c, hc, hsift⟩, -⟩ := hmem
  rw [← Site.map_tree_elements, List.mem_map] at hc
  obtain ⟨e, he, rfl⟩ := hc
  cases htree : e.tree with
  | token u =>
    rw [htree, Tree.sift_token, Tree.token.injEq] at hsift
    obtain rfl := hsift
    have hkind : e.kind = .token .ident := by rw [Site.kind, htree, ← ht]; rfl
    obtain ⟨l, rfl, hl⟩ := Site.exists_leaf hkind
    use l, Site.mem_ownTokens he
  | node kind cs =>
    rw [htree, Tree.sift_node] at hsift
    contradiction

/-! ### Types -/

/-- A token that is a child of a site below is one of the leaves. -/
theorem Site.mem_leaves_of_element {s d : Site} {l : Leaf} (hd : d ∈ s.descendants)
    (hl : l.site ∈ d.elements) :
  l ∈ s.leaves
  := by
  apply leaves_subset (element_mem_descendants hd hl)
  rw [leaves_site]
  apply List.mem_singleton_self

namespace VarDecl

variable {text : String} {d : VarDecl} {offset : Nat}

/-- At the offset a name of the declaration ends, an identifier among its children; so the offset
lies in the declaration. -/
def EndsName (d : VarDecl) (offset : Nat) : Prop :=
  ∃ name : Leaf, name.kind = .ident ∧ name.site ∈ d.site.elements ∧ offset = name.stop
    ∧ d.start ≤ offset ∧ offset ≤ d.stop

/-- The declaration has no name, and at the offset ends the first significant token that comes
after its keyword in the text. -/
def EndsNext (root : Site) (d : VarDecl) (offset : Nat) : Prop :=
  (∀ l ∈ d.site.ownTokens, l.kind ≠ .ident)
    ∧ ∃ keyword next before after, d.mutability? = some keyword
      ∧ root.leaves = before ++ keyword :: after
      ∧ (Leaf.significant after).head? = some next ∧ offset = next.stop

theorem endsName_of_ident (hd : d.site ∈ (SourceFile.ofText text).root.descendants) {l : Leaf}
    (hl : l ∈ d.site.ownTokens) (hident : l.kind = .ident) {name : Leaf}
    (hname : d.name? = some name) :
  d.EndsName name.stop
  := by
  obtain ⟨name', hkind, hmem, hname'⟩ := name?_of_ident hd hl hident
  obtain rfl : name = name' := Option.some_inj.mp (hname.symm.trans hname')
  have hleaf := Site.mem_leaves_of_element (Site.self_mem_descendants d.site) hmem
  obtain ⟨hstart, hstop⟩ := Site.bounds_of_mem_leaves hleaf
  refine ⟨name, hkind, hmem, rfl, ?_, hstop⟩
  apply Nat.le_trans hstart
  apply Nat.le_add_right

theorem endsNext_of_nameless (hd : d.site ∈ (SourceFile.ofText text).root.descendants)
    (hnameless : ∀ l ∈ d.site.ownTokens, l.kind ≠ .ident) {name : Leaf}
    (hname : d.name? = some name) :
  d.EndsNext (SourceFile.ofText text).root name.stop
  := by
  obtain ⟨keyword, hkeyword, hnext⟩ := Option.bind_eq_some_iff.mp hname
  have hown := Site.site_mem_elements (List.mem_of_find?_eq_some hkeyword)
  have hleaf := Site.mem_leaves_of_element hd hown
  obtain ⟨before, after, hleaves⟩ := List.append_of_mem hleaf
  refine ⟨hnameless, keyword, name, before, after, hkeyword, hleaves, ?_, rfl⟩
  apply (Site.reaches_nextSignificant rfl hleaves).sound name hnext

end VarDecl

section

variable {σ Receiver : Type}

theorem HintSource.site_of_declaration {s : Site} {d : VarDecl}
    (h : ofSite? s = some (.declaration d)) :
  d.site = s
  := by
  simp only [ofSite?, Option.or_eq_some_iff, Option.map_eq_some_iff] at h
  obtain ⟨c, -, hc⟩ | ⟨-, ⟨c, -, hc⟩ | ⟨-, d', hd, hd'⟩⟩ := h
  · contradiction
  · contradiction
  · obtain rfl := HintSource.declaration.inj hd'
    apply NodeSite.site_of_ofSite? hd

/-- A hint at a site that shows a type shows it for the declaration at the site, and ends the
token that the walk from its keyword finds. -/
theorem exists_declaration {sem : Semantics σ Receiver} {options : Options} {s : Site} {st : σ}
    {h : RawHint} (hh : h ∈ ((hintsAt sem options s).run st).1) (hkind : h.kind = .type) :
  ∃ (d : VarDecl) (name : Leaf), d.site = s ∧ d.name? = some name ∧ h.offset = name.stop
  := by
  unfold hintsAt at hh
  split at hh
  · contradiction
  · next source hsource =>
    split at hh
    · have hdeclaration := (source.kind_hints sem st h hh).symm.trans hkind
      cases source with
      | call c => contradiction
      | builtinCall c => contradiction
      | declaration d =>
        obtain ⟨type, heq⟩ := declarationHints_eq_toList sem d st
        rw [HintSource.hints, heq, Option.mem_toList] at hh
        obtain ⟨type, -, hh⟩ := Option.bind_eq_some_iff.mp hh
        unfold typeHint? at hh
        split at hh
        · contradiction
        · obtain ⟨name, hname, rfl⟩ := Option.map_eq_some_iff.mp hh
          exact ⟨d, name, HintSource.site_of_declaration hsource, hname, rfl⟩
    · contradiction

/-- Every type that a request shows is shown for the declaration at the visited site.  If the
declaration has a name, the type stands at the end of the name, and otherwise at the end of the
next significant token after the keyword.  In a text without faults all declarations have
names. -/
theorem inlayHints_named (sem : Semantics σ Receiver) (text : String) (range : TextRange)
    (options : Options) (st : σ) :
  ∃ given, Contribution sem (.ofText text) range options st given
    ∧ ∀ s ∈ visitedSites (.ofText text) range, ∀ h ∈ given s, h.kind = .type →
      ∃ d : VarDecl, d.site = s
        ∧ (d.EndsName h.offset ∨ d.EndsNext (SourceFile.ofText text).root h.offset)
        ∧ ((SourceFile.ofText text).parse.faults = [] → d.EndsName h.offset)
  := by
  obtain ⟨given, hgiven⟩ := exists_contribution sem (.ofText text) range options st
  refine ⟨given, hgiven, ?_⟩
  intro s hs h hh hkind
  obtain ⟨st', hst'⟩ := hgiven.site s hs
  rw [hst'] at hh
  obtain ⟨d, name, rfl, hname, hoffset⟩ := exists_declaration hh hkind
  have hd : d.site ∈ (SourceFile.ofText text).root.descendants :=
    (visitedSites_sublist _ _).subset hs
  refine ⟨d, rfl, ?_, ?_⟩
  · rw [hoffset]
    by_cases hident : ∃ l ∈ d.site.ownTokens, l.kind = .ident
    · obtain ⟨l, hl, hident⟩ := hident
      apply Or.inl (VarDecl.endsName_of_ident hd hl hident hname)
    · push Not at hident
      apply Or.inr (VarDecl.endsNext_of_nameless hd hident hname)
  · intro hfaults
    obtain ⟨l, hl, hident⟩ := SourceFile.exists_ident hfaults hd
    rw [hoffset]
    apply VarDecl.endsName_of_ident hd hl hident hname

end

/-- A declaration without faults has its type at its name. -/
theorem inlayHints_named_constant :
  ∃ given, Contribution .twoParametersAndNumbers (.ofText "const x = 1;") (.ofWidth 0 12) {} ()
      given
    ∧ ∃ s ∈ visitedSites (.ofText "const x = 1;") (.ofWidth 0 12), ∃ h ∈ given s,
      h = ⟨7, ": u8", .type, none⟩
        ∧ ∃ d : VarDecl, d.site = s ∧ d.EndsName h.offset
  := by
  obtain ⟨given, hgiven, hnamed⟩ :=
    inlayHints_named .twoParametersAndNumbers "const x = 1;" (.ofWidth 0 12) {} ()
  have hfaults : (SourceFile.ofText "const x = 1;").parse.faults = [] := by decide +kernel
  have hfound : ((visitedSites (.ofText "const x = 1;") (.ofWidth 0 12)).any fun s =>
      ((hintsAt .twoParametersAndNumbers {} s).run ()).1 = [⟨7, ": u8", .type, none⟩]) = true := by
    cbv
  obtain ⟨s, hs, hhints⟩ := List.any_eq_true.mp hfound
  obtain ⟨_, hsite⟩ := hgiven.site s hs
  have hmem : ⟨7, ": u8", .type, none⟩ ∈ given s := by
    rw [hsite, of_decide_eq_true hhints]
    apply List.mem_singleton_self
  obtain ⟨d, hd, -, hends⟩ := hnamed s hs _ hmem rfl
  exact ⟨given, hgiven, s, hs, _, hmem, rfl, d, hd, hends hfaults⟩

/-- In a block that ends where a name is expected, the type of the declaration stands behind the
brace that closes the block. -/
theorem inlayHints_named_unfinished :
  ∃ d : VarDecl, d.site ∈ visitedSites (.ofText "fn f() void \x7b const \x7d") (.ofWidth 0 21)
    ∧ ((hintsAt .twoParametersAndNumbers {} d.site).run ()).1 = [⟨21, ": u8", .type, none⟩]
    ∧ d.stop = 19 ∧ ¬ d.EndsName 21
    ∧ ((inlayHints .twoParametersAndNumbers (.ofText "fn f() void \x7b const \x7d")
      (.ofWidth 0 21) {}).run ()).1 = [⟨⟨0, 21⟩, ": u8", .type, none, false, false⟩]
  := by
  have hfound : (((visitedSites (.ofText "fn f() void \x7b const \x7d") (.ofWidth 0 21)).filterMap
      (NodeSite.ofSite? (NodeKind.is .varDecl))).any fun d : VarDecl =>
        ((hintsAt .twoParametersAndNumbers {} d.site).run ()).1 = [⟨21, ": u8", .type, none⟩]
          && d.stop = 19) = true := by
    cbv
  obtain ⟨d, hvisited, hd⟩ := exists_nodeSite hfound
  obtain ⟨hhints, hstop⟩ := Bool.and_eq_true_iff.mp hd
  refine ⟨d, hvisited, of_decide_eq_true hhints, of_decide_eq_true hstop, ?_, ?_⟩
  · rintro ⟨_, _, _, _, _, hle⟩
    rw [of_decide_eq_true hstop] at hle
    contradiction
  · cbv

end InlayHints
