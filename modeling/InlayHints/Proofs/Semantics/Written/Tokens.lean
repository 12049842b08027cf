import InlayHints.Proofs.Semantics.Written.Tree

/-!
# The tokens of written functions

In the trees of written functions blanks stand inside nodes, but not at their ends
(`WrittenFunction.solid_tree`), and tokens next to each other keep apart.  So a written function
has the tokens of its tree (`WrittenFunction.lex_text`).
-/

namespace InlayHints

open Token (Spaced)

namespace Tree

/-! ### Shapes -/

/-- A node other than a function, with neither trivia in front nor at the end. -/
def Bounded (kind : NodeKind) (cs : List Tree) : Prop :=
  kind ≠ .fnDecl ∧ (∃ c ∈ cs.head?, c.isTrivia = false) ∧ ∃ c ∈ cs.getLast?, c.isTrivia = false

theorem solid_of_bounded {t : Tree} (h : t.Shaped Bounded) :
  t.Solid
  := by
  induction h with
  | token t => apply solid_token
  | node fits _ ih => apply solid_node ih fits.2.1 fits.2.2

theorem bounded_listed {kind : NodeKind} (hkind : kind ≠ .fnDecl) {ts : List Tree}
    (hts : ∀ t ∈ ts, t.Shaped Bounded) (sep : List Token) :
  (listed sep kind ts).Shaped Bounded
  := by
  apply Shaped.node _ (forall_listed Shaped.token hts sep kind)
  refine ⟨hkind, ⟨_, rfl, rfl⟩, .token ⟨.rParen, ")"⟩, ?_, rfl⟩
  rw [listed, children, ← List.cons_append, List.getLast?_concat, Option.mem_def]

/-! ### Types -/

/-- The trees that types have. -/
inductive IsType : Tree → Prop where
  | name (n : Identifier) : IsType (.node .nameRef [.token n.token])
  | field {t : Tree} (h : IsType t) (n : Identifier) :
    IsType (.node .fieldExpr [t, .token ⟨.dot, "."⟩, .token n.token])
  | call {t : Tree} {ts : List Tree} (h : IsType t) (hs : ∀ u ∈ ts, IsType u) :
    IsType (.node .callExpr [t, .listed [.comma, .blank] .argList ts])
  | modified (m : TypeModifier × Bool) {t : Tree} (h : IsType t) : IsType (TypeModifier.tree m t)

namespace IsType

variable {t : Tree}

theorem isTrivia (h : t.IsType) :
  t.isTrivia = false
  := by
  cases h <;> rfl

theorem bounded (h : t.IsType) :
  t.Shaped Bounded
  := by
  induction h with
  | name n =>
    apply Shaped.node ⟨nofun, ⟨_, rfl, rfl⟩, ⟨_, rfl, rfl⟩⟩
    simpa using .token _
  | field h n ih =>
    apply Shaped.node ⟨nofun, ⟨_, rfl, h.isTrivia⟩, ⟨_, rfl, rfl⟩⟩
    simpa using ⟨ih, .token _, .token _⟩
  | call h hs ih ihs =>
    apply Shaped.node ⟨nofun, ⟨_, rfl, h.isTrivia⟩, ⟨_, rfl, rfl⟩⟩
    simpa using ⟨ih, bounded_listed (by decide) ihs _⟩
  | @modified m t h ih =>
    obtain ⟨modifier, isConst⟩ := m
    refine Shaped.node ⟨?_, ?_, t, List.getLast?_concat, h.isTrivia⟩ ?_
    · cases modifier <;> nofun
    · cases modifier <;> exact ⟨_, rfl, rfl⟩
    · intro c hc
      rcases List.mem_append.mp hc with hc | hc
      · obtain ⟨u, -, rfl⟩ := List.mem_map.mp hc
        apply Shaped.token
      · rw [List.mem_singleton.mp hc]
        apply ih

end IsType

/-! ### Tokens next to each other -/

end Tree

theorem Identifier.spaced (n : Identifier) {ts : List Token} (h : Spaced ts)
    (hnext : ∀ u ∈ ts.head?, u.kind.isWord = false) :
  Spaced (n.token :: ts)
  := by
  apply Spaced.word n.mem _ hnext h
  rw [token, n.notKeyword]
  rfl

theorem TypeModifier.spaced (m : TypeModifier) (isConst : Bool) {ts : List Token} (h : Spaced ts)
    (hfirst : ∀ u ∈ ts.head?, u.isTrivia = false) :
  Spaced (m.allTokens isConst ++ ts)
  := by
  have hconst : Spaced ((if isConst then [⟨.constKw, "const"⟩, .blank] else []) ++ ts) := by
    cases isConst with
    | false => apply h
    | true => apply (Spaced.blank hfirst h).keyword (by decide) (by rintro _ ⟨⟩; rfl)
  rw [allTokens, List.append_assoc]
  cases m with
  | slice => apply Spaced.mark (by decide) (Spaced.mark (by decide) hconst)
  | _ => apply Spaced.mark (by decide) hconst

namespace Tree.IsType

theorem exists_first {t : Tree} (h : t.IsType) :
  ∃ u us, t.tokens = u :: us ∧ u.isTrivia = false
  := (solid_of_bounded h.bounded).exists_first h.isTrivia

theorem keepsApart {t : Tree} (h : t.IsType) :
  t.KeepsApart
  := by
  use h.exists_first
  induction h with
  | name n =>
    intro rest hrest hnext
    simpa using n.spaced hrest hnext
  | field h n ih =>
    intro rest hrest hnext
    have hdot : Spaced (⟨.dot, "."⟩ :: n.token :: rest) :=
      Spaced.mark (by decide) (n.spaced hrest hnext)
    simpa using ih hdot (by rintro _ ⟨⟩; rfl)
  | @call t ts h hs ih ihs =>
    intro rest hrest hnext
    have harguments : ∀ u ∈ ts, u.KeepsApart := fun u hu => ⟨(hs u hu).exists_first, ihs u hu⟩
    have hlist := spaced_listed harguments hrest .argList
    rw [tokens_node, List.flatMap_cons, List.flatMap_singleton, List.append_assoc]
    apply ih hlist
    rw [tokens_listed]
    rintro _ ⟨⟩
    rfl
  | @modified m t h ih =>
    intro rest hrest hnext
    have hfirst : ∀ u ∈ (t.tokens ++ rest).head?, u.isTrivia = false := by
      obtain ⟨u, us, htokens, hu⟩ := h.exists_first
      rw [htokens]
      rintro _ ⟨⟩
      apply hu
    have hall := m.1.spaced m.2 (ih hrest hnext) hfirst
    simpa [TypeModifier.tree, List.flatMap_map] using hall

end Tree.IsType

namespace TypeExpr

theorem isType_modified (ms : List (TypeModifier × Bool)) {t : Tree} (h : t.IsType) :
  (ms.foldr TypeModifier.tree t).IsType
  := by
  induction ms with
  | nil => apply h
  | cons m ms ih => apply Tree.IsType.modified m ih

theorem isType_chainTree (t : TypeExpr) :
  t.chainTree.IsType
  := by
  induction t using induct with
  | name n =>
    rw [chainTree]
    apply Tree.IsType.name
  | field receiver n ih =>
    rw [chainTree]
    apply Tree.IsType.field ih
  | call callee arguments ih ihs =>
    rw [chainTree_call]
    apply Tree.IsType.call ih
    rw [List.forall_mem_map]
    intro a ha
    apply isType_modified _ (ihs a ha)
  | modified modifier isConst operand ih =>
    rw [chainTree]
    apply ih

theorem isType_tree (t : TypeExpr) :
  t.tree.IsType
  := isType_modified t.modifiers t.isType_chainTree

end TypeExpr

/-! ### Parameters and functions -/

namespace WrittenParameter

theorem isTrivia_typeTree (p : WrittenParameter) :
  p.typeTree.isTrivia = false
  := by
  rw [typeTree]
  cases p.type with
  | none => rfl
  | some t => apply t.isType_tree.isTrivia

theorem isTrivia_frontTokens (p : WrittenParameter) :
  ∀ u ∈ p.frontTokens.head?, u.isTrivia = false
  := by
  rw [frontTokens]
  cases p.qualifiers with
  | nil =>
    cases p.name with
    | none => rintro _ ⟨⟩
    | some n =>
      rintro _ ⟨⟩
      rfl
  | cons q qs =>
    rintro _ ⟨⟩
    cases q <;> rfl

theorem bounded_tree (p : WrittenParameter) :
  p.tree.Shaped Tree.Bounded
  := by
  refine Tree.Shaped.node ⟨nofun, ?_, p.typeTree, List.getLast?_concat, p.isTrivia_typeTree⟩ ?_
  · have hfront := p.isTrivia_frontTokens
    cases htokens : p.frontTokens with
    | nil => exact ⟨_, rfl, p.isTrivia_typeTree⟩
    | cons u us =>
      rw [htokens] at hfront
      exact ⟨_, rfl, hfront u rfl⟩
  · intro c hc
    rcases List.mem_append.mp hc with hc | hc
    · obtain ⟨u, -, rfl⟩ := List.mem_map.mp hc
      apply Tree.Shaped.token
    · rw [List.mem_singleton.mp hc, typeTree]
      cases p.type with
      | none => apply Tree.Shaped.token
      | some t => apply t.isType_tree.bounded

/-- Qualifiers with blanks behind them may stand before anything but trivia. -/
theorem spaced_qualifiers (qs : List Qualifier) {ts : List Token} (h : Spaced ts)
    (hfirst : ∀ u ∈ ts.head?, u.isTrivia = false) :
  Spaced (qs.flatMap (fun q => [q.token, .blank]) ++ ts)
    ∧ ∀ u ∈ (qs.flatMap (fun q => [q.token, .blank]) ++ ts).head?, u.isTrivia = false
  := by
  induction qs with
  | nil => exact ⟨h, hfirst⟩
  | cons q qs ih =>
    constructor
    · apply (Spaced.blank ih.2 ih.1).keyword _ (by rintro _ ⟨⟩; rfl)
      cases q <;> decide
    · rintro _ ⟨⟩
      cases q <;> rfl

theorem spaced_typeTree (p : WrittenParameter) {rest : List Token} (h : Spaced rest)
    (hnext : ∀ u ∈ rest.head?, u.kind.isWord = false) :
  Spaced (p.typeTree.tokens ++ rest)
    ∧ ∀ u ∈ (p.typeTree.tokens ++ rest).head?, u.isTrivia = false
  := by
  rw [typeTree]
  cases p.type with
  | none =>
    rw [Option.elim_none, Tree.tokens_token]
    constructor
    · apply h.keyword (by decide) hnext
    · rintro _ ⟨⟩
      rfl
  | some t =>
    have hkeeps := t.isType_tree.keepsApart
    obtain ⟨u, us, htokens, hu⟩ := hkeeps.first
    have hspaced := hkeeps.spaced h hnext
    rw [Option.elim_some, htokens] at *
    use hspaced
    rintro _ ⟨⟩
    apply hu

theorem keepsApart_tree (p : WrittenParameter) :
  p.tree.KeepsApart
  where
  first := (Tree.solid_of_bounded p.bounded_tree).exists_first rfl
  spaced := by
    intro rest hrest hnext
    obtain ⟨htype, hfirst⟩ := p.spaced_typeTree hrest hnext
    have htokens : p.tree.tokens = p.frontTokens ++ p.typeTree.tokens := by
      rw [tree, Tree.tokens_node, List.flatMap_append, List.flatMap_map, List.flatMap_singleton]
      simp
    rw [htokens, frontTokens, List.append_assoc, List.append_assoc]
    cases p.name with
    | none => apply (spaced_qualifiers p.qualifiers htype hfirst).1
    | some n =>
      have hcolon : Spaced (⟨.colon, ":"⟩ :: .blank :: (p.typeTree.tokens ++ rest)) :=
        Spaced.mark (by decide) (Spaced.blank hfirst htype)
      have hname := n.spaced hcolon (by rintro _ ⟨⟩; rfl)
      apply (spaced_qualifiers p.qualifiers hname _).1
      rintro _ ⟨⟩
      rfl

end WrittenParameter

namespace WrittenFunction

/-- In a written function there is no other function. -/
theorem bounded_children (f : WrittenFunction) :
  ∀ c ∈ f.tree.children, c.Shaped Tree.Bounded
  := by
  have hparameters : ∀ t ∈ f.parameters.map WrittenParameter.tree, t.Shaped Tree.Bounded := by
    rw [List.forall_mem_map]
    intro p _
    apply p.bounded_tree
  have hlist := Tree.bounded_listed (by decide : NodeKind.paramList ≠ .fnDecl) hparameters
    [.comma, .blank]
  have hblock : (Tree.node .block [.token ⟨.lBrace, "\x7b"⟩, .token ⟨.rBrace, "\x7d"⟩]).Shaped
      Tree.Bounded := by
    apply Tree.Shaped.node ⟨nofun, ⟨_, rfl, rfl⟩, ⟨_, rfl, rfl⟩⟩
    simpa using ⟨.token _, .token _⟩
  have htype := (TypeExpr.name .void).isType_tree.bounded
  simp only [tree, Tree.children, List.forall_mem_cons]
  exact ⟨.token _, .token _, .token _, hlist, .token _, htype, .token _, hblock,
    List.forall_mem_nil _⟩

theorem solid_tree (f : WrittenFunction) :
  f.tree.Solid
  := by
  apply Tree.solid_node _ ⟨_, rfl, rfl⟩ ⟨_, rfl, rfl⟩
  intro c hc
  apply Tree.solid_of_bounded (f.bounded_children c hc)

theorem spaced_tree (f : WrittenFunction) :
  Spaced f.tree.tokens
  := by
  have hparameters : ∀ t ∈ f.parameters.map WrittenParameter.tree, t.KeepsApart := by
    rw [List.forall_mem_map]
    intro p _
    apply p.keepsApart_tree
  have hblock : Spaced [.blank, ⟨.lBrace, "\x7b"⟩, ⟨.rBrace, "\x7d"⟩] := by
    apply Spaced.blank (by rintro _ ⟨⟩; rfl)
    apply Spaced.mark (by decide) (Spaced.mark (by decide) Spaced.nil)
  have htype : Spaced (.blank :: Identifier.void.token :: _) :=
    Spaced.blank (by rintro _ ⟨⟩; rfl) (Identifier.void.spaced hblock (by rintro _ ⟨⟩; rfl))
  have hlist := Tree.spaced_listed hparameters htype .paramList
  have hname := f.name.spaced hlist (by rw [Tree.tokens_listed]; rintro _ ⟨⟩; rfl)
  have hall : Spaced (⟨.fnKw, "fn"⟩ :: .blank :: _) :=
    (Spaced.blank (by rintro _ ⟨⟩; rfl) hname).keyword (by decide) (by rintro _ ⟨⟩; rfl)
  simpa [tree, TypeExpr.tree, TypeExpr.modifiers, TypeExpr.chainTree] using hall

/-- The tokens of a function are those of its tree. -/
theorem lex_text {f : WrittenFunction} (h : f.text.utf8ByteSize ≤ countLimit) :
  Token.lex f.text = f.tree.tokens
  := by
  rw [Token.lex_eq_pieces h]
  apply f.spaced_tree.pieces_eq
  rw [← f.text_tree, Tree.toList_text]

end WrittenFunction

end InlayHints
