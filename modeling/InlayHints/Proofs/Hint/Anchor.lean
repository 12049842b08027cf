import InlayHints.Hint.Request
import InlayHints.Proofs.Hint.Selection

/-!
# Where hints stand

Every hint stands where a token of the text starts or ends, whatever the answers to the
questions are that are asked on the way.  A hint of an argument stands at the start of the
first token of the argument, and a hint of a declaration at the end of the token after its
keyword.  Both tokens are found by steps from a visited site, so they are tokens of the text
(`isBoundary_rawHints`).
-/

namespace InlayHints

/-- An offset at which some of the tokens end and the others start. -/
def Token.IsBoundary (ts : List Token) (n : Nat) : Prop :=
  ∃ before after, ts = before ++ after ∧ totalWidth before = n

namespace Leaf.LiesIn

variable {whole : Tree} {l : Leaf}

theorem isBoundary_start (h : l.LiesIn whole) :
  Token.IsBoundary whole.tokens l.start
  := by
  obtain ⟨htokens, hstart⟩ := h.located
  use Frame.tokensBefore l.path, l.token :: Frame.tokensAfter l.path, htokens, hstart.symm

theorem isBoundary_stop (h : l.LiesIn whole) :
  Token.IsBoundary whole.tokens l.stop
  := by
  obtain ⟨htokens, hstart⟩ := h.located
  use Frame.tokensBefore l.path ++ [l.token], Frame.tokensAfter l.path
  constructor
  · rw [htokens, List.append_assoc, List.singleton_append]
  · rw [stop, hstart, Token.totalWidth_append, Token.totalWidth_cons, Token.totalWidth_nil,
      Nat.add_zero]

end Leaf.LiesIn

/-! ### Parts of a node -/

namespace Site

variable {whole : Tree} {s : Site}

/-- The arguments in a list that lies in a tree lie in it. -/
theorem LiesIn.arguments {l : ArgumentList} (hs : s.LiesIn whole)
    (hl : s.childOf? (NodeKind.is .argList) = some l) :
  ∀ a ∈ l.arguments, a.site.LiesIn whole
  := by
  intro a ha
  apply (hs.element (mem_elements_of_childOf? hl)).element (mem_elements_of_childrenOf ha)

end Site

theorem Call.liesIn_arguments {whole : Tree} {c : Call} (h : c.site.LiesIn whole) :
  ∀ a ∈ c.arguments, a.site.LiesIn whole
  := by
  unfold arguments
  split
  · next l hl => apply h.arguments hl
  · nofun

theorem BuiltinCall.liesIn_arguments {whole : Tree} {c : BuiltinCall}
    (h : c.site.LiesIn whole) :
  ∀ a ∈ c.arguments, a.site.LiesIn whole
  := by
  unfold arguments
  split
  · next l hl => apply h.arguments hl
  · nofun

theorem VarDecl.liesIn_name {whole : Tree} {d : VarDecl} {l : Leaf} (h : d.site.LiesIn whole)
    (hl : d.name? = some l) :
  l.LiesIn whole
  := by
  obtain ⟨keyword, hkeyword, hl⟩ := Option.bind_eq_some_iff.mp hl
  apply (h.ownToken (List.mem_of_find?_eq_some hkeyword)).nextSignificant hl

/-! ### Hints of one source -/

section

variable {whole : Tree} {options : Options} {h : RawHint}

theorem isBoundary_labelHint? {markup : Markup} {a : Expr} {label type : String}
    {isNoalias isComptime : Bool} (ha : a.site.LiesIn whole)
    (hh : labelHint? markup a label isNoalias isComptime type = some h) :
  Token.IsBoundary whole.tokens h.offset
  := by
  obtain ⟨first, hfirst, rfl⟩ := Option.map_eq_some_iff.mp hh
  apply (ha.firstSignificant hfirst).isBoundary_start

theorem isBoundary_labelArguments {parameters : List Parameter} {arguments : List Expr}
    (harguments : ∀ a ∈ arguments, a.site.LiesIn whole)
    (hh : h ∈ labelArguments options parameters arguments) :
  Token.IsBoundary whole.tokens h.offset
  := by
  obtain ⟨⟨parameter, a⟩, hmem, hh⟩ := List.mem_filterMap.mp hh
  obtain ⟨name, -, hh⟩ := Option.bind_eq_some_iff.mp hh
  split at hh
  · contradiction
  · apply isBoundary_labelHint? (harguments a (List.of_mem_zip hmem).2) hh

theorem isBoundary_describeArguments {arguments : List Expr} {descriptors : List String}
    (harguments : ∀ a ∈ arguments, a.site.LiesIn whole)
    (hh : h ∈ describeArguments options arguments descriptors) :
  Token.IsBoundary whole.tokens h.offset
  := by
  obtain ⟨⟨a, descriptor⟩, hmem, hh⟩ := List.mem_filterMap.mp hh
  have hzip := (List.takeWhile_sublist _).subset hmem
  simp only [descriptorHint?] at hh
  split at hh
  · contradiction
  · apply isBoundary_labelHint? (harguments a (List.of_mem_zip hzip).1) hh

theorem isBoundary_builtinHints {c : BuiltinCall} (hc : c.site.LiesIn whole)
    (hh : h ∈ builtinHints options c) :
  Token.IsBoundary whole.tokens h.offset
  := by
  unfold builtinHints at hh
  split at hh
  · contradiction
  · split at hh
    · contradiction
    · split at hh
      · contradiction
      · apply isBoundary_describeArguments (BuiltinCall.liesIn_arguments hc) hh

theorem isBoundary_typeHint? {d : VarDecl} {type : InferredType} (hd : d.site.LiesIn whole)
    (hh : typeHint? d type = some h) :
  Token.IsBoundary whole.tokens h.offset
  := by
  unfold typeHint? at hh
  split at hh
  · contradiction
  · obtain ⟨name, hname, rfl⟩ := Option.map_eq_some_iff.mp hh
    apply (VarDecl.liesIn_name hd hname).isBoundary_stop

end

/-! ### Hints of all sources -/

section

variable {σ Receiver : Type} (sem : Semantics σ Receiver) (options : Options)

/-- One question after another: the second one is asked in the state that the first one leaves. -/
theorem run_bind_eq {α β : Type} (m : StateM σ α) (f : α → StateM σ β) (st : σ) :
  (m >>= f).run st = (f (m.run st).1).run (m.run st).2
  := rfl

/-- Whatever is answered, the hints of a call label its arguments with some parameters, which do
not depend on the options. -/
theorem callHints_eq_labelArguments (c : Call) (st : σ) :
  ∃ parameters, ∀ options, ((callHints sem options c).run st).1
    = labelArguments options parameters c.arguments
  := by
  cases hd : ((resolveCall sem c).run st).1 with
  | none =>
    use []
    intro options
    rw [callHints, run_bind_eq, hd]
    rfl
  | some d =>
    cases hsignature : d.signature? with
    | none =>
      use []
      intro options
      rw [callHints, run_bind_eq, hd]
      simp only [hsignature]
      rfl
    | some signature =>
      use ((visibleParameters sem c d signature).run ((resolveCall sem c).run st).2).1
      intro options
      rw [callHints, run_bind_eq, hd]
      simp only [hsignature, run_bind_eq]
      rfl

/-- Whatever is answered, the hint of a declaration shows some type, if there is one. -/
theorem declarationHints_eq_toList (d : VarDecl) (st : σ) :
  ∃ type : Option InferredType, ((declarationHints sem d).run st).1
    = (type.bind (typeHint? d)).toList
  := by
  unfold declarationHints
  split
  · use none
    rfl
  · rw [run_bind_eq]
    use ((sem.declaredType? d).run st).1
    cases ((sem.declaredType? d).run st).1 with
    | none => rfl
    | some type => rfl

theorem isBoundary_hints {whole : Tree} {s : Site} (hs : s.LiesIn whole) {source : HintSource}
    (hsource : HintSource.ofSite? s = some source) (st : σ) :
  ∀ h ∈ ((source.hints sem options).run st).1, Token.IsBoundary whole.tokens h.offset
  := by
  intro h hh
  simp only [HintSource.ofSite?, Option.or_eq_some_iff, Option.map_eq_some_iff] at hsource
  obtain ⟨c, hc, rfl⟩ | ⟨-, ⟨c, hc, rfl⟩ | ⟨-, d, hd, rfl⟩⟩ := hsource
  · obtain ⟨parameters, heq⟩ := callHints_eq_labelArguments sem c st
    rw [HintSource.hints, heq] at hh
    rw [← NodeSite.site_of_ofSite? hc] at hs
    apply isBoundary_labelArguments (Call.liesIn_arguments hs) hh
  · rw [← NodeSite.site_of_ofSite? hc] at hs
    apply isBoundary_builtinHints hs hh
  · obtain ⟨type, heq⟩ := declarationHints_eq_toList sem d st
    rw [HintSource.hints, heq, Option.mem_toList] at hh
    obtain ⟨type, -, hh⟩ := Option.bind_eq_some_iff.mp hh
    rw [← NodeSite.site_of_ofSite? hd] at hs
    apply isBoundary_typeHint? hs hh

theorem isBoundary_hintsAt {whole : Tree} {s : Site} (hs : s.LiesIn whole) (st : σ) :
  ∀ h ∈ ((hintsAt sem options s).run st).1, Token.IsBoundary whole.tokens h.offset
  := by
  unfold hintsAt
  split
  · nofun
  · next source hsource =>
    split
    · apply isBoundary_hints sem options hs hsource
    · nofun

/-- What is found in one walk over a list is found at one of its members. -/
theorem exists_of_mem_mapM {α β : Type} (f : α → StateM σ β) (xs : List α) (st : σ) :
  ∀ b ∈ ((xs.mapM f).run st).1, ∃ x ∈ xs, ∃ st', ((f x).run st').1 = b
  := by
  induction xs generalizing st with
  | nil => nofun
  | cons x xs ih =>
    intro b hb
    rw [List.mapM_cons] at hb
    rcases List.mem_cons.mp hb with rfl | hb
    · use x, List.mem_cons_self, st
      rfl
    · obtain ⟨x', hx', st', hb⟩ := ih _ b hb
      use x', List.mem_cons_of_mem x hx', st'

/-- Every site that is visited lies in the tree of the file. -/
theorem liesIn_visitedSites (file : SourceFile) (range : TextRange) :
  ∀ s ∈ visitedSites file range, s.LiesIn file.parse.tree
  := by
  intro s hs
  obtain ⟨d, hd, hs⟩ := List.mem_flatMap.mp hs
  have hroot : file.root.LiesIn file.parse.tree := Site.liesIn_root file.parse.tree
  apply (hroot.descendant d (Site.mem_descendants_of_selected hd)).descendant s hs

/-- Every hint of a request stands where a token starts or ends. -/
theorem isBoundary_rawHints (file : SourceFile) (range : TextRange) (st : σ) :
  ∀ h ∈ ((rawHints sem file range options).run st).1,
    Token.IsBoundary file.parse.tree.tokens h.offset
  := by
  intro h hh
  obtain ⟨hs, hhs, hh⟩ := List.mem_flatten.mp hh
  obtain ⟨s, hs, st', rfl⟩ := exists_of_mem_mapM _ _ _ hs hhs
  apply isBoundary_hintsAt sem options (liesIn_visitedSites file range s hs) st' h hh

end

end InlayHints
