import InlayHints.Proofs.Semantics.Written.Reading

/-!
# How deep written functions nest

The levels that are enough to read a written function are also needed: it is read without faults
exactly if its types do not nest deeper than the limit (`WrittenFunction.faults_text_iff`).  So
`TypeExpr.depth` counts as the parser does.
-/

namespace InlayHints

open Relation Rule Construct

/-! ### Types -/

section

variable {R : Symbol → Bare → Bare → Prop} {t : Tree} {rest : List Token} {out : List Tree}
variable {c : Bare}

/-- If an operand is read, with or without `const` before it, it is read at its own place. -/
theorem exists_operand_of_const {isConst : Bool} (hstarts : t.StartsExpression)
    (h : (accept .constKw >> nested Symbol.operand).Reads R
      ⟨TypeModifier.constTokens isConst ++ (t.tokens ++ rest), out⟩ c) :
  ∃ out, R .operand ⟨t.tokens ++ rest, out⟩ c
  := by
  obtain ⟨d, hconst, hoperand⟩ := h
  cases isConst with
  | true =>
    obtain rfl : d = ⟨t.tokens ++ rest, .token ⟨.constKw, "const"⟩ :: out⟩ :=
      (reads_branch_of_true rfl).mp hconst
    use .token ⟨.constKw, "const"⟩ :: out, hoperand
  | false =>
    obtain rfl : d = ⟨t.tokens ++ rest, out⟩ :=
      (reads_branch_of_false (hstarts.isAt_eq_false rfl _ _)).mp hconst
    use out, hoperand

theorem exists_operand_of_modified {levels : Nat} {m : TypeModifier × Bool}
    (hstarts : t.StartsExpression)
    (h : grammar.Reads (levels + 1) .operand ⟨m.1.bareTokens m.2 ++ (t.tokens ++ rest), out⟩ c) :
  ∃ out d, grammar.Reads levels .operand ⟨t.tokens ++ rest, out⟩ d
  := by
  obtain ⟨modifier, isConst⟩ := m
  rw [TypeModifier.bareTokens, List.append_assoc] at h
  cases modifier with
  | slice =>
    obtain ⟨d, ⟨_, rfl, e, hbracket, hconst⟩, -⟩ :=
      (reads_branch_of_true rfl).mp ((reads_branch_of_false rfl).mp h)
    obtain rfl : e = _ := (reads_branch_of_true rfl).mp hbracket
    obtain ⟨out, hoperand⟩ := exists_operand_of_const hstarts hconst
    use out, d
  | _ =>
    obtain ⟨d, ⟨_, rfl, hconst⟩, -⟩ := (reads_branch_of_true rfl).mp h
    obtain ⟨out, hoperand⟩ := exists_operand_of_const hstarts hconst
    use out, d

end

namespace TypeExpr

/-- A type without its modifiers is read only at as many levels as its arguments nest deep. -/
def ChainNeedsDepth (t : TypeExpr) : Prop :=
  ∀ levels rest out c, chain.Reads (grammar.Reads levels) ⟨t.chainTree.sift.tokens ++ rest, out⟩ c →
    t.argumentDepth ≤ levels

variable {t : TypeExpr} {levels : Nat} {rest : List Token} {out : List Tree} {c : Bare}

theorem ChainNeedsDepth.operand (h : t.ChainNeedsDepth) (ms : List (TypeModifier × Bool))
    (hreads : grammar.Reads levels .operand
      ⟨(ms.foldr TypeModifier.tree t.chainTree).sift.tokens ++ rest, out⟩ c) :
  ms.length + 1 + t.argumentDepth ≤ levels
  := by
  induction ms generalizing levels out c with
  | nil =>
    cases levels with
    | zero => apply hreads.elim
    | succ levels =>
      obtain ⟨first, tail, htokens, -⟩ := t.readsChain _ (le_refl _)
      rw [List.foldr_nil, htokens] at hreads
      replace hreads := (reads_branch_of_false rfl).mp ((reads_branch_of_false rfl).mp hreads)
      rw [← htokens] at hreads
      have hle := h _ _ _ _ hreads
      rw [List.length_nil]
      omega
  | cons m ms ih =>
    cases levels with
    | zero => apply hreads.elim
    | succ levels =>
      have htype := isType_modified ms t.isType_chainTree
      rw [List.foldr_cons, Tree.sift_modified m htype.isTrivia, Tree.tokens_modified,
        List.append_assoc] at hreads
      obtain ⟨out, d, hoperand⟩ := exists_operand_of_modified htype.startsExpression hreads
      have hle := ih hoperand
      rw [List.length_cons]
      omega

theorem ChainNeedsDepth.expression (h : t.ChainNeedsDepth)
    (hreads : expression.Reads (grammar.Reads levels) ⟨t.tree.sift.tokens ++ rest, out⟩ c) :
  t.depth ≤ levels
  := by
  cases levels with
  | zero => apply hreads.elim
  | succ levels =>
    obtain ⟨_, ⟨d, hoperand, -⟩, -⟩ := hreads
    have hle := h.operand t.modifiers hoperand
    rw [depth]
    omega

theorem ChainNeedsDepth.onlyReadBy (h : t.ChainNeedsDepth) (levels : Nat) :
  t.tree.sift.OnlyReadBy (grammar.Reads levels) Construct.expression
  where
  first := t.isType_tree.startsExpression.exists_first rfl
  readBy _ hreads := readBy_expression t.readsChain (h.expression hreads)

theorem rightUnique_chainRound {R : Symbol → Bare → Bare → Prop}
    (hR : ∀ symbol, Relator.RightUnique (R symbol)) :
  Relator.RightUnique (ChainRound R)
  := fun _ _ _ h h' => rightUnique_reads hR _ h.2 h'.2

/-- If arguments follow what was read of a chain, they are read next. -/
theorem ReadsChain.arguments {R : Symbol → Bare → Bare → Prop}
    (hR : ∀ symbol, Relator.RightUnique (R symbol)) {callee : TypeExpr} {ts : List Tree}
    (h : callee.ReadsChain R)
    (hreads : chain.Reads R ⟨callee.chainTree.sift.tokens
      ++ ((Tree.listed [.comma] .argList ts).tokens ++ rest), out⟩ c) :
  ∃ d, argumentList.Reads R ⟨(Tree.listed [.comma] .argList ts).tokens ++ rest,
    [callee.chainTree.sift]⟩ d
  := by
  obtain ⟨first, tail, htokens, hrounds⟩ := h
  obtain ⟨d, hbody, -⟩ := hreads
  rw [htokens] at hbody
  obtain ⟨e, hprimary, hloop, hstop⟩ := (reads_branch_of_false rfl).mp hbody
  obtain ⟨_, rfl, rfl⟩ := (reads_branch_of_true rfl).mp hprimary
  have hstuck : ∀ e, ¬ChainRound R d e :=
    fun e he => Bool.false_ne_true (hstop.symm.trans he.1)
  have hrest := rounds_of_stuck (rightUnique_chainRound hR) hloop hstuck (hrounds _)
  rw [Tree.tokens_listed] at hrest ⊢
  rcases hrest.cases_head with rfl | ⟨e, ⟨-, hround⟩, -⟩
  · contradiction
  · obtain ⟨d, hlist, -⟩ := (reads_branch_of_true rfl).mp hround
    exact ⟨d, hlist⟩

theorem chainNeedsDepth (t : TypeExpr) :
  t.ChainNeedsDepth
  := by
  induction t using induct with
  | name n =>
    intro levels rest out c _
    rw [argumentDepth]
    apply Nat.zero_le
  | field receiver n ih =>
    intro levels rest out c hreads
    rw [sift_chainTree_field, Tree.tokens_node, List.flatMap_cons, List.append_assoc] at hreads
    rw [argumentDepth]
    apply ih _ _ _ _ hreads
  | call callee arguments ih ihs =>
    intro levels rest out c hreads
    rw [sift_chainTree_call, Tree.tokens_node, List.flatMap_cons, List.flatMap_singleton,
      List.append_assoc] at hreads
    -- The callee is read at these levels, so its arguments come next, and each of them is read.
    have hcallee := ih _ _ _ _ hreads
    have honly : ∀ u ∈ bareArguments arguments,
        u.OnlyReadBy (grammar.Reads levels) (Construct.expression.orReject .notAnArgument) := by
      rw [forall_bareArguments]
      intro a ha
      apply ((ihs a ha).onlyReadBy levels).orReject
    have hunique := Grammar.rightUnique_reads grammar levels
    obtain ⟨d, hlist⟩ := (callee.readsChain levels hcallee).arguments hunique hreads
    have hall := readBy_of_listed hunique honly hlist
    rw [forall_bareArguments] at hall
    rw [argumentDepth_call_le]
    use hcallee
    intro a ha
    obtain ⟨hargument, -⟩ := (hall a ha).reads _ [] (endsItem_close [])
    apply (ihs a ha).expression hargument
  | modified modifier isConst operand ih =>
    intro levels rest out c hreads
    rw [chainTree] at hreads
    rw [argumentDepth]
    apply ih _ _ _ _ hreads

end TypeExpr

/-! ### Parameters and functions -/

namespace WrittenParameter

variable {levels : Nat} {rest : List Token} {out : List Tree} {c : Bare}

theorem depth_le_of_reads (p : WrittenParameter) (hrest : EndsItem rest)
    (hreads : Construct.parameter.Reads (grammar.Reads levels)
      ⟨p.tree.sift.tokens ++ rest, out⟩ c) :
  ∀ t ∈ p.type, t.depth ≤ levels
  := by
  intro t ht
  rw [sift_tree, Tree.tokens_modified, List.append_assoc, List.append_assoc] at hreads
  obtain ⟨_, ⟨d, hqualifiers, e, hname, htype⟩, -⟩ := hreads
  obtain rfl := rightUnique_reads (Grammar.rightUnique_reads grammar levels) _ hqualifiers
    ⟨reads_qualifiers p.qualifiers _ [], p.isAny_qualifier hrest _⟩
  obtain ⟨out, rfl⟩ : ∃ out, e = ⟨p.typeTree.sift.tokens ++ rest, out⟩ := by
    rw [nameTokens] at hname
    cases hp : p.name with
    | none =>
      rw [hp] at hname
      exact ⟨_, (reads_branch_of_false (p.starts_typeTree hrest _).2).mp hname⟩
    | some n =>
      rw [hp] at hname
      obtain ⟨_, rfl, rfl⟩ := (reads_branch_of_true rfl).mp hname
      exact ⟨_, rfl⟩
  have htree : p.typeTree = t.tree := by rw [typeTree, Option.mem_def.mp ht, Option.elim_some]
  have hstarts := t.isType_tree.startsExpression
  rw [htree] at htype
  apply t.chainNeedsDepth.expression
    ((reads_branch_of_false (hstarts.isAt_eq_false rfl _ _)).mp htype)

theorem onlyReadBy (p : WrittenParameter) (levels : Nat) :
  p.tree.sift.OnlyReadBy (grammar.Reads levels) Construct.parameter
  where
  first := p.exists_first
  readBy hrest hreads := p.readBy_parameter (p.depth_le_of_reads hrest hreads)

end WrittenParameter

namespace WrittenFunction

variable {f : WrittenFunction} {levels : Nat} {c : Bare}

theorem nests_of_function (h : function.Reads (grammar.Reads levels) ⟨f.tree.sift.tokens, []⟩ c) :
  f.Nests levels
  := by
  rw [tokens_sift_tree] at h
  obtain ⟨_, ⟨d, hpub, d₁, hfn, d₂, hname, d₃, hlist, -⟩, -⟩ := h
  obtain rfl : d = _ := (reads_branch_of_false rfl).mp hpub
  obtain rfl : d₁ = _ := (reads_branch_of_true rfl).mp hfn
  obtain rfl : d₂ = _ := (reads_branch_of_true rfl).mp hname
  have honly : ∀ t ∈ f.bareParameters,
      t.OnlyReadBy (grammar.Reads levels) (Construct.parameter.orReject .notAParameter) := by
    rw [forall_bareParameters]
    intro p _
    apply (p.onlyReadBy levels).orReject
  have hall := readBy_of_listed (Grammar.rightUnique_reads grammar levels) honly hlist
  rw [forall_bareParameters] at hall
  intro p hp
  have hend := endsItem_close []
  apply p.depth_le_of_reads hend ((hall p hp).reads _ [] hend).1

/-- A written function is read without faults exactly if it is not too long and its types do not
nest too deep. -/
theorem faults_text_iff (f : WrittenFunction) :
  (Parse.ofText f.text).faults = []
    ↔ f.text.utf8ByteSize ≤ countLimit ∧ f.Nests nestingLimit
  := by
  constructor
  · intro h
    have hsize := Parse.size_le_of_faults h
    rw [Parse.ofText_of_le hsize] at h
    use hsize
    have hnone : (file.run (grammar.read nestingLimit) (.start (Token.lex f.text))).faults = [] :=
      List.reverse_eq_nil_iff.mp h
    have hreads := Rule.reads_of_run (State.kept_faults.read grammar nestingLimit)
      (State.kept_takes.read grammar nestingLimit) delimited_grammar.length_lt
      delimited_grammar.reads_of_read productive_file hnone
    rw [lex_text hsize, f.bare_start] at hreads
    obtain ⟨hrounds, hstop⟩ := hreads
    have hfirst := f.tokens_sift_tree
    rcases hrounds.cases_head with h | ⟨d, ⟨-, hitem, -⟩, -⟩
    · rw [← h, hfirst] at hstop
      contradiction
    · apply nests_of_function (c := d)
      rw [hfirst] at hitem ⊢
      apply (reads_branch_of_true rfl).mp hitem
  · rintro ⟨hsize, h⟩
    rw [ofText_text hsize h]

end WrittenFunction

end InlayHints
