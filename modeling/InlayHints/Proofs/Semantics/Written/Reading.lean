import InlayHints.Proofs.Semantics.Written.Tokens

/-!
# Reading written functions

A written function whose types do not nest too deep is read without faults, and what is read is its
tree (`WrittenFunction.ofText_text`).
-/

namespace InlayHints

open Relation Rule Construct

/-- What holds of the first token of each of two pieces holds of the first token of both. -/
theorem forall_head?_append {P : Token → Prop} {us vs : List Token} (hus : ∀ u ∈ us.head?, P u)
    (hvs : ∀ v ∈ vs.head?, P v) :
  ∀ u ∈ (us ++ vs).head?, P u
  := by
  cases us with
  | nil => apply hvs
  | cons u us => apply hus

/-! ### Types -/

/-- A call or a field access is added to what was read of a chain. -/
def Construct.ChainRound (R : Symbol → Bare → Bare → Prop) (b c : Bare) : Prop :=
  continues b.look = true
    ∧ (branch (·.isAt .lParen) (wrap .callExpr argumentList)
        (wrap .fieldExpr (take >> take))).Reads R b c

/-- A tree starts like an expression. -/
def Tree.StartsExpression (t : Tree) : Prop :=
  ∃ u us, t.tokens = u :: us ∧ startsExpression u.kind = true

namespace Tree.StartsExpression

variable {t : Tree}

theorem isAny (h : t.StartsExpression) (rest : List Token) (out : List Tree) :
  (Bare.mk (t.tokens ++ rest) out).look.isAny startsExpression = true
  := by
  obtain ⟨u, us, htokens, hu⟩ := h
  rw [htokens]
  apply hu

/-- What an expression starts with is ahead, and no other kind of token. -/
theorem isAt_eq_false (h : t.StartsExpression) {k : TokenKind} (hk : startsExpression k = false)
    (rest : List Token) (out : List Tree) :
  (Bare.mk (t.tokens ++ rest) out).look.isAt k = false
  := Lookahead.isAt_eq_false_of_isAny (h.isAny rest out) hk

theorem exists_first (h : t.StartsExpression) {k : TokenKind} (hk : startsExpression k = false) :
  ∃ u us, t.tokens = u :: us ∧ u.kind ≠ k
  := by
  obtain ⟨u, us, htokens, hu⟩ := h
  refine ⟨u, us, htokens, ?_⟩
  rintro rfl
  rw [hu] at hk
  contradiction

end Tree.StartsExpression

/-- What follows an item of a list does not go on with a type. -/
theorem EndsItem.continues {rest : List Token} (h : EndsItem rest) (out : List Tree) :
  Construct.continues (Bare.mk rest out).look = false ∧ bindsOver 0 (Bare.mk rest out).look = false
  := by
  obtain ⟨u, us, rfl, hu⟩ := h
  rcases hu with hu | hu | hu <;>
    simp [Construct.continues, bindsOver, Bare.look, Lookahead.ofTokens, Lookahead.isAt, hu,
      TokenKind.bindingPower?]

namespace TypeModifier

/-- The keyword `const`, if it is there. -/
def constTokens (isConst : Bool) : List Token := if isConst then [⟨.constKw, "const"⟩] else []

/-- A modifier and the `const` behind it, without the blank. -/
def bareTokens (m : TypeModifier) (isConst : Bool) : List Token := m.tokens ++ constTokens isConst

theorem significant_allTokens (m : TypeModifier) (isConst : Bool) :
  Token.significant (m.allTokens isConst) = m.bareTokens isConst
  := by
  cases m <;> cases isConst <;> rfl

theorem starts (m : TypeModifier) (isConst : Bool) :
  ∃ u us, m.bareTokens isConst = u :: us ∧ startsExpression u.kind = true ∧ u.kind ≠ .ident
  := by
  cases m <;> exact ⟨_, _, rfl, rfl, nofun⟩

end TypeModifier

namespace Tree

theorem sift_name (n : Identifier) :
  (node .nameRef [.token n.token]).sift = node .nameRef [.token n.token]
  := by
  rw [sift_node, siftAll_cons_token (by rfl), siftAll_nil]

theorem sift_field {t : Tree} (h : t.isTrivia = false) (n : Identifier) :
  (node .fieldExpr [t, .token ⟨.dot, "."⟩, .token n.token]).sift
    = node .fieldExpr [t.sift, .token ⟨.dot, "."⟩, .token n.token]
  := by
  rw [sift_node, siftAll_cons_of_isTrivia h, siftAll_cons_token (by rfl),
    siftAll_cons_token (by rfl), siftAll_nil]

theorem sift_call {t : Tree} (h : t.isTrivia = false) {ts : List Tree}
    (hs : ∀ u ∈ ts, u.isTrivia = false) :
  (node .callExpr [t, listed [.comma, .blank] .argList ts]).sift
    = node .callExpr [t.sift, listed [.comma] .argList (ts.map sift)]
  := by
  rw [sift_node, siftAll_cons_of_isTrivia h, siftAll_cons_of_isTrivia (by rfl), siftAll_nil,
    sift_listed _ _ hs]
  rfl

theorem sift_modified (m : TypeModifier × Bool) {t : Tree} (h : t.isTrivia = false) :
  (TypeModifier.tree m t).sift
    = node m.1.kind ((m.1.bareTokens m.2).map .token ++ [t.sift])
  := by
  rw [TypeModifier.tree, sift_node, siftAll_append, siftAll_map, siftAll_cons_of_isTrivia h,
    siftAll_nil, TypeModifier.significant_allTokens]

theorem tokens_modified (ts : List Token) (t : Tree) (kind : NodeKind) :
  (node kind (ts.map .token ++ [t])).tokens = ts ++ t.tokens
  := by
  simp [List.flatMap_map]

/-- A type starts like an expression, and a name at its start stands alone or before a field or
arguments. -/
theorem IsType.starts {t : Tree} (h : t.IsType) :
  ∃ u us, t.sift.tokens = u :: us ∧ startsExpression u.kind = true
    ∧ (u.kind = .ident → ∀ v ∈ us.head?, v.kind = .dot ∨ v.kind = .lParen)
  := by
  induction h with
  | name n =>
    rw [sift_name]
    exact ⟨n.token, [], by simp, rfl, nofun⟩
  | field h n ih =>
    obtain ⟨u, us, htokens, hstarts, hnext⟩ := ih
    rw [sift_field h.isTrivia, tokens_node, List.flatMap_cons, htokens]
    refine ⟨u, _, rfl, hstarts, fun hu => forall_head?_append (hnext hu) ?_⟩
    rw [List.flatMap_cons, tokens_token]
    rintro _ ⟨⟩
    exact Or.inl rfl
  | call h hs ih ihs =>
    obtain ⟨u, us, htokens, hstarts, hnext⟩ := ih
    rw [sift_call h.isTrivia fun u hu => (hs u hu).isTrivia, tokens_node, List.flatMap_cons,
      htokens]
    refine ⟨u, _, rfl, hstarts, fun hu => forall_head?_append (hnext hu) ?_⟩
    rw [List.flatMap_singleton, listed, tokens_node, List.flatMap_cons, tokens_token]
    rintro _ ⟨⟩
    exact Or.inr rfl
  | @modified m t h ih =>
    obtain ⟨u, us, htokens, hstarts, hne⟩ := m.1.starts m.2
    rw [sift_modified m h.isTrivia, tokens_modified, htokens]
    exact ⟨u, _, rfl, hstarts, fun hu => (hne hu).elim⟩

theorem IsType.startsExpression {t : Tree} (h : t.IsType) :
  t.sift.StartsExpression
  := by
  obtain ⟨u, us, htokens, hstarts, -⟩ := h.starts
  exact ⟨u, us, htokens, hstarts⟩

end Tree

section

variable {R : Symbol → Bare → Bare → Prop}

namespace TypeExpr

/-- A type without its modifiers is read as its first name and then round by round. -/
def ReadsChain (R : Symbol → Bare → Bare → Prop) (t : TypeExpr) : Prop :=
  ∃ (n : Identifier) (tail : List Token), t.chainTree.sift.tokens = n.token :: tail
    ∧ ∀ rest, ReflTransGen (ChainRound R)
        ⟨tail ++ rest, [.node .nameRef [.token n.token]]⟩ ⟨rest, [t.chainTree.sift]⟩

theorem tree_name (n : Identifier) :
  (name n).tree = .node .nameRef [.token n.token]
  := by
  rw [tree, modifiers, List.foldr_nil, chainTree]

theorem readsChain_name (n : Identifier) :
  (name n).ReadsChain R
  := by
  refine ⟨n, [], ?_, fun rest => ?_⟩
  · rw [chainTree, Tree.sift_name]
    simp
  · rw [chainTree, Tree.sift_name]
    apply ReflTransGen.refl

/-- The arguments of a call without trivia. -/
def bareArguments (arguments : List TypeExpr) : List Tree := (arguments.map tree).map Tree.sift

theorem forall_bareArguments {P : Tree → Prop} {arguments : List TypeExpr} :
  (∀ u ∈ bareArguments arguments, P u) ↔ ∀ a ∈ arguments, P a.tree.sift
  := by
  rw [bareArguments, List.map_map, List.forall_mem_map]
  rfl

theorem sift_chainTree_field (receiver : TypeExpr) (n : Identifier) :
  (field receiver n).chainTree.sift
    = .node .fieldExpr [receiver.chainTree.sift, .token ⟨.dot, "."⟩, .token n.token]
  := by
  rw [chainTree, Tree.sift_field receiver.isType_chainTree.isTrivia]

theorem sift_chainTree_call (callee : TypeExpr) (arguments : List TypeExpr) :
  (call callee arguments).chainTree.sift
    = .node .callExpr
      [callee.chainTree.sift, .listed [.comma] .argList (bareArguments arguments)]
  := by
  have htrivia : ∀ u ∈ arguments.map tree, u.isTrivia = false := by
    rw [List.forall_mem_map]
    intro a _
    apply a.isType_tree.isTrivia
  rw [chainTree_call, Tree.sift_call callee.isType_chainTree.isTrivia htrivia]
  rfl

theorem readsChain_field {receiver : TypeExpr} (h : receiver.ReadsChain R) (n : Identifier) :
  (field receiver n).ReadsChain R
  := by
  obtain ⟨first, tail, htokens, hrounds⟩ := h
  refine ⟨first, tail ++ [⟨.dot, "."⟩, n.token], ?_, fun rest => ?_⟩
  · rw [sift_chainTree_field, Tree.tokens_node, List.flatMap_cons, htokens]
    simp
  · rw [sift_chainTree_field, List.append_assoc]
    apply (hrounds _).tail
    use rfl
    apply (reads_branch_of_false rfl).mpr
    exact ⟨_, ⟨_, rfl, rfl⟩, rfl⟩

theorem readsChain_call {callee : TypeExpr} {arguments : List TypeExpr}
    (h : callee.ReadsChain R) (hs : ∀ a ∈ arguments, a.tree.sift.ReadBy R expression) :
  (call callee arguments).ReadsChain R
  := by
  obtain ⟨first, tail, htokens, hrounds⟩ := h
  have hreads : ∀ u ∈ bareArguments arguments,
      u.ReadBy R (expression.orReject .notAnArgument) := by
    rw [forall_bareArguments]
    intro a ha
    apply (hs a ha).orReject
  refine ⟨first, tail ++ (Tree.listed [.comma] .argList (bareArguments arguments)).tokens, ?_,
    fun rest => ?_⟩
  · rw [sift_chainTree_call, Tree.tokens_node, List.flatMap_cons, htokens]
    simp
  · rw [sift_chainTree_call, List.append_assoc]
    have hlist := reads_listed hreads .argList rest [callee.chainTree.sift]
    rw [Tree.tokens_listed] at hlist ⊢
    apply (hrounds _).tail
    use rfl
    apply (reads_branch_of_true rfl).mpr
    exact ⟨_, hlist, rfl⟩

theorem ReadsChain.reads {t : TypeExpr} (h : t.ReadsChain R) {rest : List Token}
    (hrest : EndsItem rest) (out : List Tree) :
  chain.Reads R ⟨t.chainTree.sift.tokens ++ rest, out⟩ ⟨rest, t.chainTree.sift :: out⟩
  := by
  obtain ⟨first, tail, htokens, hrounds⟩ := h
  rw [htokens]
  refine ⟨⟨rest, [t.chainTree.sift]⟩, ?_, rfl⟩
  apply (reads_branch_of_false rfl).mpr
  have hprimary : primary.Reads R ⟨first.token :: tail ++ rest, []⟩
      ⟨tail ++ rest, [.node .nameRef [.token first.token]]⟩ := by
    apply (reads_branch_of_true rfl).mpr
    exact ⟨_, rfl, rfl⟩
  exact ⟨_, hprimary, hrounds rest, (hrest.continues _).1⟩

end TypeExpr

/-- After a modifier there may be `const`, and then an operand follows. -/
theorem reads_const (isConst : Bool) {t : Tree} {rest : List Token}
    (hstarts : t.StartsExpression)
    (h : ∀ out, R .operand ⟨t.tokens ++ rest, out⟩ ⟨rest, t :: out⟩) (out : List Tree) :
  (accept .constKw >> nested Symbol.operand).Reads R
    ⟨TypeModifier.constTokens isConst ++ (t.tokens ++ rest), out⟩
    ⟨rest, t :: (((TypeModifier.constTokens isConst).map Tree.token).reverse ++ out)⟩
  := by
  cases isConst with
  | true => exact ⟨_, (reads_branch_of_true rfl).mpr rfl, h _⟩
  | false =>
    exact ⟨_, (reads_branch_of_false (hstarts.isAt_eq_false rfl _ _)).mpr rfl, h _⟩

/-- A modifier is read before an operand, one level further in. -/
theorem reads_modified {levels : Nat} (m : TypeModifier × Bool) {t : Tree} {rest : List Token}
    (hstarts : t.StartsExpression)
    (h : ∀ out, grammar.Reads levels .operand ⟨t.tokens ++ rest, out⟩ ⟨rest, t :: out⟩)
    (out : List Tree) :
  grammar.Reads (levels + 1) .operand ⟨m.1.bareTokens m.2 ++ (t.tokens ++ rest), out⟩
    ⟨rest, .node m.1.kind ((m.1.bareTokens m.2).map .token ++ [t]) :: out⟩
  := by
  obtain ⟨modifier, isConst⟩ := m
  have hconst := reads_const isConst hstarts h
  rw [TypeModifier.bareTokens, List.append_assoc]
  cases modifier with
  | slice =>
    apply (reads_branch_of_false rfl).mpr
    apply (reads_branch_of_true rfl).mpr
    refine ⟨_, ⟨_, rfl, _, (reads_branch_of_true rfl).mpr rfl, hconst _⟩, ?_⟩
    simp [TypeModifier.tokens, TypeModifier.kind, Bare.opened, Bare.take]
  | _ =>
    apply (reads_branch_of_true rfl).mpr
    refine ⟨_, ⟨_, rfl, hconst _⟩, ?_⟩
    simp [TypeModifier.tokens, TypeModifier.kind, Bare.opened]

namespace TypeExpr

/-- Each modifier takes one level more. -/
theorem ReadsChain.reads_operand {levels : Nat} {t : TypeExpr}
    (h : t.ReadsChain (grammar.Reads levels)) (ms : List (TypeModifier × Bool)) {rest : List Token}
    (hrest : EndsItem rest) (out : List Tree) :
  grammar.Reads (levels + 1 + ms.length) .operand
    ⟨(ms.foldr TypeModifier.tree t.chainTree).sift.tokens ++ rest, out⟩
    ⟨rest, (ms.foldr TypeModifier.tree t.chainTree).sift :: out⟩
  := by
  induction ms generalizing out with
  | nil =>
    have hchain := h.reads hrest out
    obtain ⟨first, tail, htokens, -⟩ := h
    rw [htokens] at hchain
    rw [List.foldr_nil, htokens]
    apply (reads_branch_of_false rfl).mpr
    apply (reads_branch_of_false rfl).mpr
    apply hchain
  | cons m ms ih =>
    have htype := isType_modified ms t.isType_chainTree
    rw [List.foldr_cons, Tree.sift_modified m htype.isTrivia, Tree.tokens_modified,
      List.append_assoc]
    apply reads_modified m htype.startsExpression ih

/-- A type is read as an expression, at as many levels as it is deep. -/
theorem readBy_expression {t : TypeExpr}
    (h : ∀ levels, t.argumentDepth ≤ levels → t.ReadsChain (grammar.Reads levels)) {levels : Nat}
    (hdepth : t.depth ≤ levels) :
  t.tree.sift.ReadBy (grammar.Reads levels) expression
  where
  first := t.isType_tree.startsExpression.exists_first rfl
  reads rest out hrest := by
    obtain ⟨extra, rfl⟩ := Nat.exists_eq_add_of_le hdepth
    have hoperand := (h (t.argumentDepth + extra) (Nat.le_add_right _ _)).reads_operand t.modifiers
      hrest []
    have hlevels : t.depth + extra = t.argumentDepth + extra + 1 + t.modifiers.length + 1 := by
      rw [depth]
      omega
    rw [hlevels]
    exact ⟨⟨rest, [t.tree.sift]⟩, ⟨_, hoperand, ReflTransGen.refl, (hrest.continues _).2⟩, rfl⟩

theorem readsChain (t : TypeExpr) :
  ∀ levels, t.argumentDepth ≤ levels → t.ReadsChain (grammar.Reads levels)
  := by
  induction t using induct with
  | name n =>
    intro levels _
    apply readsChain_name
  | field receiver n ih =>
    intro levels hdepth
    rw [argumentDepth] at hdepth
    apply readsChain_field (ih levels hdepth)
  | call callee arguments ih ihs =>
    intro levels hdepth
    obtain ⟨hcallee, harguments⟩ := argumentDepth_call_le.mp hdepth
    apply readsChain_call (ih levels hcallee)
    intro a ha
    apply readBy_expression (ihs a ha) (harguments a ha)
  | modified modifier isConst operand ih =>
    intro levels hdepth
    rw [argumentDepth] at hdepth
    have hreads := ih levels hdepth
    rw [ReadsChain] at hreads ⊢
    rw [chainTree]
    apply hreads

end TypeExpr

end

/-! ### Parameters -/

theorem Construct.isQualifier_of_startsExpression {k : TokenKind} (h : startsExpression k = true) :
  k.isQualifier = false
  := by
  cases k <;> first | rfl | contradiction

/-- Whether a name with a colon comes next. -/
def Construct.isLabelled (a : Lookahead) : Bool := a.isAt .ident && a.second = some .colon

namespace WrittenParameter

variable {levels : Nat} {rest : List Token}

/-- The tokens of the name of a parameter, if it has one. -/
def nameTokens (p : WrittenParameter) : List Token :=
  p.name.elim [] fun n => [n.token, ⟨.colon, ":"⟩]

theorem significant_frontTokens (p : WrittenParameter) :
  Token.significant p.frontTokens = p.qualifiers.map Qualifier.token ++ p.nameTokens
  := by
  have hqualifiers : Token.significant (p.qualifiers.flatMap fun q => [q.token, .blank])
      = p.qualifiers.map Qualifier.token := by
    induction p.qualifiers with
    | nil => rfl
    | cons q qs ih =>
      rw [List.flatMap_cons, Token.significant_append, ih]
      cases q <;> rfl
  rw [frontTokens, Token.significant_append, hqualifiers, nameTokens]
  cases p.name <;> rfl

theorem sift_tree (p : WrittenParameter) :
  p.tree.sift
    = .node .param ((p.qualifiers.map Qualifier.token ++ p.nameTokens).map .token
        ++ [p.typeTree.sift])
  := by
  rw [tree, Tree.sift_node, Tree.siftAll_append, Tree.siftAll_map,
    Tree.siftAll_cons_of_isTrivia p.isTrivia_typeTree, Tree.siftAll_nil, significant_frontTokens]

/-- The type of a parameter, or `anytype`, does not start like a qualifier or a name with its
colon. -/
theorem starts_typeTree (p : WrittenParameter) (hrest : EndsItem rest) (out : List Tree) :
  (Bare.mk (p.typeTree.sift.tokens ++ rest) out).look.isAny TokenKind.isQualifier = false
    ∧ isLabelled (Bare.mk (p.typeTree.sift.tokens ++ rest) out).look = false
  := by
  rw [typeTree]
  cases p.type with
  | none =>
    rw [Option.elim_none, Tree.sift_token, Tree.tokens_token]
    exact ⟨rfl, rfl⟩
  | some t =>
    obtain ⟨u, us, htokens, hstarts, hnext⟩ := t.isType_tree.starts
    rw [Option.elim_some, htokens]
    constructor
    · apply isQualifier_of_startsExpression hstarts
    · rw [isLabelled, Bool.and_eq_false_imp]
      intro hident
      have hident : u.kind = .ident := by
        simpa [Bare.look, Lookahead.ofTokens, Lookahead.isAt] using hident
      have hcolon : ∀ v ∈ (us ++ rest).head?, v.kind ≠ .colon := by
        apply forall_head?_append
        · intro v hv hkind
          rcases hnext hident v hv with hv | hv <;> rw [hv] at hkind <;> contradiction
        · obtain ⟨v, vs, rfl, hv⟩ := hrest
          rintro _ ⟨⟩ hkind
          rcases hv with hv | hv | hv <;> rw [hv] at hkind <;> contradiction
      rw [decide_eq_false_iff_not]
      intro hsecond
      obtain ⟨v, hv, hkind⟩ := Option.map_eq_some_iff.mp hsecond
      apply hcolon v hv hkind

theorem reads_typeTree (p : WrittenParameter) (hdepth : ∀ t ∈ p.type, t.depth ≤ levels)
    (hrest : EndsItem rest) (out : List Tree) :
  (branch (·.isAt .anytypeKw) take expression).Reads (grammar.Reads levels)
    ⟨p.typeTree.sift.tokens ++ rest, out⟩ ⟨rest, p.typeTree.sift :: out⟩
  := by
  rw [typeTree]
  cases htype : p.type with
  | none =>
    rw [Option.elim_none, Tree.sift_token, Tree.tokens_token]
    apply (reads_branch_of_true rfl).mpr
    rfl
  | some t =>
    have hreads := TypeExpr.readBy_expression t.readsChain (hdepth t htype)
    have hstarts := t.isType_tree.startsExpression
    apply (reads_branch_of_false (hstarts.isAt_eq_false rfl _ _)).mpr
    apply hreads.reads rest out hrest

/-- The name of a parameter is read with its colon, or a type without a name. -/
theorem reads_name (p : WrittenParameter) (hdepth : ∀ t ∈ p.type, t.depth ≤ levels)
    (hrest : EndsItem rest) (out : List Tree) :
  (when isLabelled (take >> take) >> branch (·.isAt .anytypeKw) take expression).Reads
    (grammar.Reads levels) ⟨p.nameTokens ++ (p.typeTree.sift.tokens ++ rest), out⟩
    ⟨rest, p.typeTree.sift :: ((p.nameTokens.map Tree.token).reverse ++ out)⟩
  := by
  rw [nameTokens]
  cases p.name with
  | none =>
    refine ⟨_, (reads_branch_of_false (p.starts_typeTree hrest out).2).mpr rfl, ?_⟩
    apply p.reads_typeTree hdepth hrest
  | some n =>
    refine ⟨_, (reads_branch_of_true rfl).mpr ⟨_, rfl, rfl⟩, ?_⟩
    apply p.reads_typeTree hdepth hrest

theorem isAny_qualifier (p : WrittenParameter) (hrest : EndsItem rest) (out : List Tree) :
  (Bare.mk (p.nameTokens ++ (p.typeTree.sift.tokens ++ rest)) out).look.isAny
    TokenKind.isQualifier = false
  := by
  rw [nameTokens]
  cases p.name with
  | none => apply (p.starts_typeTree hrest out).1
  | some n => rfl

/-- Qualifiers are taken one by one. -/
theorem reads_qualifiers (qs : List Qualifier) (ahead : List Token) (out : List Tree) :
  ReflTransGen (fun b c => b.look.isAny TokenKind.isQualifier = true
      ∧ (take : Rule Symbol).Reads (grammar.Reads levels) b c)
    ⟨qs.map Qualifier.token ++ ahead, out⟩
    ⟨ahead, ((qs.map Qualifier.token).map Tree.token).reverse ++ out⟩
  := by
  induction qs generalizing out with
  | nil => apply ReflTransGen.refl
  | cons q qs ih =>
    have hrest := ih (.token q.token :: out)
    rw [List.map_cons, List.map_cons, List.reverse_cons, List.append_assoc]
    refine ReflTransGen.head ⟨?_, rfl⟩ hrest
    cases q <;> rfl

theorem exists_first (p : WrittenParameter) :
  ∃ u us, p.tree.sift.tokens = u :: us ∧ u.kind ≠ .rParen
  := by
  rw [sift_tree, Tree.tokens_modified, nameTokens, typeTree]
  cases p.qualifiers with
  | cons q qs =>
    refine ⟨q.token, _, rfl, ?_⟩
    cases q <;> rintro ⟨⟩
  | nil =>
    cases p.name with
    | some n => exact ⟨n.token, _, rfl, by rintro ⟨⟩⟩
    | none =>
      cases p.type with
      | none => exact ⟨⟨.anytypeKw, "anytype"⟩, [], by simp, by rintro ⟨⟩⟩
      | some t =>
        apply t.isType_tree.startsExpression.exists_first rfl

theorem readBy_parameter (p : WrittenParameter) (hdepth : ∀ t ∈ p.type, t.depth ≤ levels) :
  p.tree.sift.ReadBy (grammar.Reads levels) Construct.parameter
  where
  first := p.exists_first
  reads rest out hrest := by
    rw [sift_tree, Tree.tokens_modified, List.append_assoc, List.append_assoc]
    refine ⟨⟨rest, _⟩, ⟨_, ⟨reads_qualifiers p.qualifiers _ [], p.isAny_qualifier hrest _⟩,
      p.reads_name hdepth hrest _⟩, ?_⟩
    simp

end WrittenParameter

/-! ### Functions -/

namespace WrittenFunction

/-- No type of a parameter nests deeper than `levels`. -/
def Nests (f : WrittenFunction) (levels : Nat) : Prop :=
  ∀ p ∈ f.parameters, ∀ t ∈ p.type, t.depth ≤ levels

/-- The parameters of a function without trivia. -/
def bareParameters (f : WrittenFunction) : List Tree :=
  (f.parameters.map WrittenParameter.tree).map Tree.sift

theorem forall_bareParameters {P : Tree → Prop} {f : WrittenFunction} :
  (∀ t ∈ f.bareParameters, P t) ↔ ∀ p ∈ f.parameters, P p.tree.sift
  := by
  rw [bareParameters, List.map_map, List.forall_mem_map]
  rfl

theorem sift_tree (f : WrittenFunction) :
  f.tree.sift = .node .fnDecl
    [.token ⟨.fnKw, "fn"⟩, .token f.name.token, Tree.listed [.comma] .paramList f.bareParameters,
      .node .nameRef [.token Identifier.void.token],
      .node .block [.token ⟨.lBrace, "\x7b"⟩, .token ⟨.rBrace, "\x7d"⟩]]
  := by
  have hparameters : ∀ t ∈ f.parameters.map WrittenParameter.tree, t.isTrivia = false := by
    rw [List.forall_mem_map]
    intro p _
    rfl
  rw [tree, Tree.sift_node, TypeExpr.tree_name, Tree.siftAll_cons_token rfl,
    Tree.siftAll_cons_trivia rfl, Tree.siftAll_cons_token (by rfl),
    Tree.siftAll_cons_of_isTrivia (by rfl), Tree.siftAll_cons_trivia rfl,
    Tree.siftAll_cons_of_isTrivia (by rfl), Tree.siftAll_cons_trivia rfl,
    Tree.siftAll_cons_of_isTrivia (by rfl), Tree.siftAll_nil, Tree.sift_listed _ _ hparameters,
    Tree.sift_name, Tree.sift_node, Tree.siftAll_cons_token rfl, Tree.siftAll_cons_token rfl,
    Tree.siftAll_nil]
  rfl

theorem tokens_sift_tree (f : WrittenFunction) :
  f.tree.sift.tokens
    = ⟨.fnKw, "fn"⟩ :: f.name.token :: ((Tree.listed [.comma] .paramList f.bareParameters).tokens
      ++ [Identifier.void.token, ⟨.lBrace, "\x7b"⟩, ⟨.rBrace, "\x7d"⟩])
  := by
  rw [sift_tree]
  simp

/-- The type of the result is read at any levels that are enough for a name. -/
theorem readBy_result (levels : Nat) :
  (Tree.node .nameRef [.token Identifier.void.token]).ReadBy (grammar.Reads (levels + 2)) expression
  := by
  have hdepth : (TypeExpr.name .void).depth ≤ levels + 2 := by
    rw [TypeExpr.depth, TypeExpr.modifiers, TypeExpr.argumentDepth, List.length_nil]
    omega
  have hreads := TypeExpr.readBy_expression (TypeExpr.name .void).readsChain hdepth
  rwa [TypeExpr.tree_name, Tree.sift_name] at hreads

/-- The empty body is read as a block. -/
theorem reads_body (levels : Nat) (out : List Tree) :
  grammar.Reads (levels + 1) .block ⟨[⟨.lBrace, "\x7b"⟩, ⟨.rBrace, "\x7d"⟩], out⟩
    ⟨[], .node .block [.token ⟨.lBrace, "\x7b"⟩, .token ⟨.rBrace, "\x7d"⟩] :: out⟩
  :=
  ⟨_, ⟨_, (reads_branch_of_true rfl).mpr rfl, _, ⟨ReflTransGen.refl, rfl⟩,
    (reads_branch_of_true rfl).mpr rfl⟩, rfl⟩

theorem reads_function (f : WrittenFunction) {levels : Nat} (h : f.Nests (levels + 2)) :
  function.Reads (grammar.Reads (levels + 2)) ⟨f.tree.sift.tokens, []⟩ ⟨[], [f.tree.sift]⟩
  := by
  have hparameters : ∀ t ∈ f.bareParameters,
      t.ReadBy (grammar.Reads (levels + 2)) (Construct.parameter.orReject .notAParameter) := by
    rw [forall_bareParameters]
    intro p hp
    apply (p.readBy_parameter (h p hp)).orReject
  have hend : EndsItem [⟨.lBrace, "\x7b"⟩, ⟨.rBrace, "\x7d"⟩] := ⟨_, _, rfl, Or.inr (Or.inr rfl)⟩
  have hresult (out : List Tree) := (readBy_result levels).reads _ out hend
  rw [Tree.tokens_node, List.flatMap_singleton, Tree.tokens_token] at hresult
  rw [tokens_sift_tree, sift_tree]
  refine ⟨⟨[], _⟩, ⟨_, (reads_branch_of_false rfl).mpr rfl, _, (reads_branch_of_true rfl).mpr rfl,
    _, (reads_branch_of_true rfl).mpr rfl, _, reads_listed hparameters .paramList _ _, _,
    (reads_branch_of_false rfl).mpr (hresult _), (reads_branch_of_true rfl).mpr (reads_body _ _)⟩,
    ?_⟩
  rfl

theorem reads_file (f : WrittenFunction) {levels : Nat} (h : f.Nests (levels + 2)) :
  file.Reads (grammar.Reads (levels + 2)) ⟨f.tree.sift.tokens, []⟩ ⟨[], [f.tree.sift]⟩
  := by
  have hfunction := f.reads_function h
  rw [tokens_sift_tree] at hfunction ⊢
  refine ⟨ReflTransGen.single ⟨rfl, ⟨(reads_branch_of_true rfl).mpr hfunction, ?_⟩⟩, rfl⟩
  apply Nat.succ_pos

/-- Where the reading of a function starts. -/
theorem bare_start (f : WrittenFunction) :
  (State.start f.tree.tokens).bare = ⟨f.tree.sift.tokens, []⟩
  := by
  rw [Tree.tokens_sift rfl]
  rfl

/-- A written function is read without faults, as its tree. -/
theorem ofText_text {f : WrittenFunction} (hsize : f.text.utf8ByteSize ≤ countLimit)
    (h : f.Nests nestingLimit) :
  Parse.ofText f.text = ⟨.node .sourceFile [f.tree], []⟩
  := by
  have hreads : file.Reads (grammar.Reads nestingLimit) ⟨f.tree.sift.tokens, []⟩
      ⟨[], [f.tree.sift]⟩ := f.reads_file h
  rw [← f.bare_start] at hreads
  obtain ⟨hbare, hfaults⟩ := delimited_grammar.run_of_reads delimited_grammar.read_of_reads
    productive_file hreads
  rw [Parse.ofText_of_le hsize, lex_text hsize]
  apply Parse.ofTokens_eq
  · apply List.reverse_eq_nil_iff.mpr hfaults
  · rw [List.forall_mem_singleton]
    apply f.solid_tree
  · apply List.flatMap_singleton
  · rw [Parse.sift_ofTokens, Parse.bare_finalState, hbare, Tree.siftAll_cons_of_isTrivia rfl]
    rfl

end WrittenFunction

end InlayHints
