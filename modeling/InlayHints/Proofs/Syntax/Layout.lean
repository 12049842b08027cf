import InlayHints.Proofs.Grammar.Parts
import InlayHints.Proofs.Syntax.Progress

/-!
# The layouts of nodes

`NodeKind.layout` says for every kind of node which parts it has in the tree of a text, and in
which order, faults or not.  Where the text has faults, parts may be missing and error nodes may
stand in lists or for an expression, but no part stands where it does not belong.  A construct is
chosen by the tokens ahead, and so some parts are never missing: the keyword of a declaration,
what a call calls, the name behind a dot.  That the trees of all texts are laid out like this
(`Parse.laidOut_ofTokens`) is read off the rules, construct by construct.
-/

namespace InlayHints

namespace Layout

/-- An expression; what stands in its place where it has a fault counts as one. -/
def expression : Layout := one Kind.isExpr

/-- What is left of an item that was rejected. -/
def rejected : Layout := maybe (node .error)

end Layout

open Layout in
/-- The parts of a node of each kind. -/
def NodeKind.layout : NodeKind → Layout
  | .sourceFile =>
    many (maybe (oneOf [.node .fnDecl, .node .varDecl, .node .exprStmt]) >> rejected)
  | .fnDecl =>
    maybe (token .pubKw)
      >> token .fnKw
      >> maybe (token .ident)
      >> node .paramList
      >> maybe expression
      >> maybe (oneOf [.node .block, .node .error, .token .semicolon])
  | .paramList =>
    maybe (token .lParen) >> commaList (node .param >> rejected) >> maybe (token .rParen)
  | .param =>
    many (oneOf [.token .noaliasKw, .token .comptimeKw])
      >> maybe (token .ident >> token .colon)
      >> maybe (one fun k => k = .token .anytypeKw || k.isExpr)
  | .varDecl =>
    maybe (token .pubKw)
      >> oneOf [.token .constKw, .token .varKw]
      >> maybe (token .ident)
      >> maybe (node .typeAscription)
      >> maybe (token .eq >> maybe expression)
      >> maybe (token .semicolon)
  | .typeAscription => token .colon >> maybe expression
  | .containerDecl =>
    token .structKw
      >> maybe (token .lBrace)
      >> many (maybe (oneOf [.node .fnDecl, .node .varDecl, .node .containerField]) >> rejected)
      >> maybe (token .rBrace)
  | .containerField =>
    oneOf [.token .pubKw, .token .ident]
      >> maybe (token .colon >> maybe expression)
      >> maybe (token .eq >> maybe expression)
      >> maybe (token .comma)
  | .block =>
    maybe (token .lBrace)
      >> many (maybe (oneOf [.node .varDecl, .node .block, .node .error, .node .returnStmt,
          .node .exprStmt]) >> rejected)
      >> maybe (token .rBrace)
  | .returnStmt => token .returnKw >> maybe expression >> maybe (token .semicolon)
  | .exprStmt => maybe expression >> maybe (token .semicolon)
  | .callExpr => expression >> node .argList
  | .builtinCall => token .builtinIdent >> maybe (node .argList)
  | .argList =>
    maybe (token .lParen) >> commaList (maybe expression >> rejected) >> maybe (token .rParen)
  | .fieldExpr => expression >> token .dot >> token .ident
  | .nameRef => token .ident
  | .literal => oneOf [.token .intNumber, .token .stringLit]
  | .parenExpr => token .lParen >> maybe expression >> maybe (token .rParen)
  | .prefixExpr =>
    oneOf [.token .star, .token .question, .token .bang, .token .minus, .token .amp]
      >> maybe (token .constKw)
      >> maybe expression
  | .sliceType =>
    token .lBracket >> maybe (token .rBracket) >> maybe (token .constKw) >> maybe expression
  | .binExpr =>
    maybe expression
      >> oneOf [.token .plus, .token .minus, .token .star, .token .slash]
      >> maybe expression
  | .error => tokens

namespace Construct

open Rule Layout

/-- The parts that the constructs that nest add. -/
def parts : Symbol → Layout
  | .expression _ => maybe Layout.expression
  | .operand => maybe Layout.expression
  | .block => maybe (oneOf [.node .block, .node .error])

section

variable {inner : Symbol → State → State} {B : Lookahead → Prop}
variable (hinner : ∀ symbol, Adds NodeKind.layout inner (fun _ => True) (.nested symbol)
  (parts symbol) fun _ => True)

/-- `pub` may stand before a keyword, and then the keyword comes next. -/
theorem adds_accept_pub (P : Option TokenKind → Prop) :
  Adds NodeKind.layout inner (fun a => P a.keyword) (accept .pubKw) (maybe (token .pubKw))
    fun a => P a.first
  := by
  apply Adds.branch
  · apply (Adds.takeAt fun _ ha => ha.2).maybe.after
    rintro a' ⟨a, ⟨hkeyword, hpub⟩, hfirst⟩
    rw [Lookahead.keyword, if_pos hpub] at hkeyword
    rw [hfirst]
    apply hkeyword
  · apply (Adds.pass_maybe _).after
    rintro a ⟨hkeyword, hpub⟩
    rw [Lookahead.keyword_of_isAt_pub hpub] at hkeyword
    apply hkeyword

/-- Where a mutability is the next token, it is taken, whichever it is. -/
theorem adds_mutability :
  Adds NodeKind.layout inner (fun a => a.first.any isMutability = true)
    (.branch (·.isAt .constKw) .take (expect .varKw)) (oneOf [.token .constKw, .token .varKw])
    fun _ => True
  := by
  have hvar : ∀ a : Lookahead, a.first.any isMutability = true ∧ a.isAt .constKw = false →
      a.isAt .varKw = true := by
    rintro a ⟨hmutability, hconst⟩
    obtain ⟨k, hk, hmutability⟩ := (Option.any_eq_true _ _).mp hmutability
    rw [Lookahead.isAt, hk] at hconst ⊢
    cases k with
    | constKw => contradiction
    | varKw => rfl
    | _ => contradiction
  apply Adds.branch
  · apply ((Adds.takeAt fun _ ha => ha.2).mono (language_oneOf_le (by decide))).forget
  · apply (Adds.expectAt hvar).mono (language_oneOf_le (by decide))

include hinner

theorem adds_expression :
  Adds NodeKind.layout inner B expression (maybe Layout.expression) fun _ => True
  := (hinner (.expression 0)).before fun _ _ => trivial

theorem adds_operand :
  Adds NodeKind.layout inner B (.nested .operand) (maybe Layout.expression) fun _ => True
  := (hinner .operand).before fun _ _ => trivial

/-- A mark and the expression behind it. -/
theorem adds_marked {k : TokenKind} (h : ∀ a, B a → a.isAt k = true) :
  Adds NodeKind.layout inner B (take >> expression) (token k >> maybe Layout.expression)
    fun _ => True
  := (Adds.takeAt h).andThen (adds_expression hinner)

/-! ### Declarations -/

theorem adds_parameter :
  Adds NodeKind.layout inner B parameter (node .param) fun _ => True
  := by
  apply Adds.node
  apply Adds.andThen (M := fun _ => True)
  · apply Adds.loop
    apply Adds.takeAny fun _ ha => ha
    intro k
    cases k <;> decide
  apply Adds.andThen (M := fun _ => True)
  · apply Adds.when
    apply Adds.andThen
    · apply Adds.takeAt
      rintro a ⟨-, ha⟩
      rw [Bool.and_eq_true] at ha
      apply ha.1
    · apply Adds.takeAt
      rintro a' ⟨a, ⟨-, ha⟩, hfirst⟩
      rw [Bool.and_eq_true, decide_eq_true_eq] at ha
      apply decide_eq_true (hfirst.trans ha.2)
  · apply Adds.branch
    · apply Adds.maybe
      apply Adds.as (.token .anytypeKw) (by decide) (.takeAt fun _ ha => ha.2)
    · apply (adds_expression hinner).mono (maybe_mono (language_one_le _))
      intro k hk
      rw [hk, Bool.or_true]

theorem adds_parameterList :
  Adds NodeKind.layout inner B parameterList (node .paramList) fun _ => True
  := .node (.andThen .expect (.andThen
      (.commaSeparated (.orReject le_rfl (adds_parameter hinner))) .expect))

theorem adds_function :
  Adds NodeKind.layout inner (·.keyword = some .fnKw) function (node .fnDecl) fun _ => True
  := by
  apply Adds.node
  apply (adds_accept_pub (· = some .fnKw)).andThen
  apply Adds.andThen (Adds.expectAt fun _ ha => decide_eq_true ha)
  apply Adds.andThen Adds.expect
  apply Adds.andThen (adds_parameterList hinner)
  apply Adds.andThen (Adds.whenNot (adds_expression hinner))
  apply Adds.branch
  · apply ((hinner .block).before fun _ _ => trivial).mono
    apply maybe_mono (language_oneOf_le (by decide))
  · apply Adds.expect.mono
    apply maybe_mono (language_oneOf_le (by decide))

theorem adds_typeAscription :
  Adds NodeKind.layout inner B
    (when (·.isAt .colon) (.node .typeAscription (.take >> expression)))
    (maybe (node .typeAscription)) fun _ => True
  := .when (.node (adds_marked hinner fun _ ha => ha.2))

theorem adds_value :
  Adds NodeKind.layout inner B (when (·.isAt .eq) (.take >> expression))
    (maybe (token .eq >> maybe Layout.expression)) fun _ => True
  := .when (adds_marked hinner fun _ ha => ha.2)

theorem adds_variableDeclaration :
  Adds NodeKind.layout inner (fun a => a.keyword.any isMutability = true) variableDeclaration
    (node .varDecl) fun _ => True
  := by
  apply Adds.node
  apply (adds_accept_pub fun k => k.any isMutability = true).andThen
  apply adds_mutability.andThen
  apply Adds.expect.andThen
  apply (adds_typeAscription hinner).andThen
  apply (adds_value hinner).andThen
  apply Adds.expect

theorem adds_expressionStatement :
  Adds NodeKind.layout inner B expressionStatement (maybe (node .exprStmt)) fun _ => True
  := .when (.node (.andThen (adds_expression hinner) .expect))

/-- A declaration, or what is read in its place. -/
theorem adds_declarationOr {other : Rule Symbol} {p : Kind → Bool}
    (hfunction : p (.node .fnDecl) = true) (hvariable : p (.node .varDecl) = true)
    (hother : Adds NodeKind.layout inner (fun _ => True) other (maybe (one p)) fun _ => True) :
  Adds NodeKind.layout inner B (declarationOr other) (maybe (one p)) fun _ => True
  := by
  apply Adds.branch
  · apply Adds.maybe
    apply Adds.as (.node .fnDecl) hfunction
    apply (adds_function hinner).before fun _ ha => of_decide_eq_true ha.2
  apply Adds.branch
  · apply Adds.maybe
    apply Adds.as (.node .varDecl) hvariable
    apply (adds_variableDeclaration hinner).before fun _ ha => ha.2
  · apply hother.before fun _ _ => trivial

theorem adds_field :
  Adds NodeKind.layout inner (·.keyword = some .ident) field (node .containerField) fun _ => True
  := by
  apply Adds.node
  apply Adds.andThen (M := fun _ => True)
  · apply (Adds.take _ _).forget
    intro a ha
    cases hpub : a.isAt .pubKw with
    | true => use .pubKw, of_decide_eq_true hpub, by decide
    | false =>
      rw [Lookahead.keyword_of_isAt_pub hpub] at ha
      use .ident, ha, by decide
  apply Adds.andThen (.when (adds_marked hinner fun _ ha => ha.2))
  apply Adds.andThen (adds_value hinner)
  apply Adds.whenNot Adds.expect

theorem adds_container :
  Adds NodeKind.layout inner (·.isAt .structKw = true) container (node .containerDecl)
    fun _ => True
  := by
  apply Adds.node
  apply (Adds.expectAt fun _ ha => ha).andThen
  apply Adds.expect.andThen
  refine Adds.andThen (M := fun _ => True) ?_ .expect
  apply Adds.many
  apply Adds.orReject le_rfl
  apply adds_declarationOr hinner (by decide) (by decide)
  apply Adds.when
  apply Adds.as (.node .containerField) (by decide)
  apply (adds_field hinner).before fun _ ha => of_decide_eq_true ha.2

/-! ### Statements -/

theorem adds_returnStatement :
  Adds NodeKind.layout inner (·.isAt .returnKw = true) returnStatement (node .returnStmt)
    fun _ => True
  := by
  apply Adds.node
  apply (Adds.takeAt fun _ ha => ha).andThen
  apply Adds.andThen (.whenNot (adds_expression hinner)) .expect

theorem adds_statement :
  Adds NodeKind.layout inner B statement
    (maybe (oneOf [.node .varDecl, .node .block, .node .error, .node .returnStmt,
      .node .exprStmt]))
    fun _ => True
  := by
  apply Adds.branch
  · apply Adds.maybe
    apply Adds.as (.node .varDecl) (by decide)
    apply (adds_variableDeclaration hinner).before fun _ ha => keyword_of_isMutability ha.2
  apply Adds.branch
  · apply ((hinner .block).before fun _ _ => trivial).mono
    apply maybe_mono (language_oneOf_le (by decide))
  apply Adds.branch
  · apply Adds.maybe
    apply Adds.as (.node .returnStmt) (by decide)
    apply (adds_returnStatement hinner).before fun _ ha => ha.2
  · apply (adds_expressionStatement hinner).mono
    apply maybe_mono (language_oneOf_le (by decide))

theorem adds_block :
  Adds NodeKind.layout inner B block (node .block) fun _ => True
  := .node (.andThen .expect (.andThen
      (.many (.orReject le_rfl (adds_statement hinner))) .expect))

/-! ### Expressions -/

theorem adds_argumentList :
  Adds NodeKind.layout inner B argumentList (node .argList) fun _ => True
  := .node (.andThen .expect (.andThen
      (.commaSeparated (.orReject le_rfl (adds_expression hinner))) .expect))

/-- Where a token is ahead, an expression without operators is never missing. -/
theorem adds_primary :
  Adds NodeKind.layout inner (fun a => endsExpression a.first = false) primary Layout.expression
    fun _ => True
  := by
  apply Adds.branch
  · apply Adds.as (.node .nameRef) rfl
    apply Adds.node (.takeAt fun _ ha => ha.2)
  apply Adds.branch
  · apply Adds.as (.node .literal) rfl
    apply Adds.node
    apply Adds.take
    rintro a ⟨-, ha⟩
    rw [Bool.or_eq_true, Lookahead.isAt, Lookahead.isAt, decide_eq_true_eq,
      decide_eq_true_eq] at ha
    rcases ha with ha | ha
    · use .intNumber, ha, by decide
    · use .stringLit, ha, by decide
  apply Adds.branch
  · apply Adds.as (.node .builtinCall) rfl
    apply Adds.node
    apply (Adds.takeAt fun _ ha => ha.2).andThen
    apply Adds.branch
    · apply (adds_argumentList hinner).maybe
    · apply (Adds.report_maybe _).forget
  apply Adds.branch
  · apply Adds.as (.node .parenExpr) rfl
    apply Adds.node
    apply (Adds.takeAt fun _ ha => ha.2).andThen
    apply (adds_expression hinner).andThen .expect
  apply Adds.branch
  · apply Adds.as (.node .containerDecl) rfl
    apply (adds_container hinner).before fun _ ha => ha.2
  · apply Adds.as (.node .error) rfl
    apply Adds.rejectAt le_rfl
    intro a ha
    apply first_ne_none_of_endsExpression ha.1.1.1.1.1

/-- A call takes what is called, and a field access what the field is accessed of; both make one
expression of it. -/
theorem grows_links :
  Grows NodeKind.layout inner B
    (.loop (fun a => a.isAt .lParen || a.isAt .dot && a.second = some .ident)
      (.branch (·.isAt .lParen) (.wrap .callExpr argumentList) (.wrap .fieldExpr (.take >> .take))))
    Layout.expression Layout.expression
  := by
  apply Grows.loop
  apply Grows.branch
  · apply Grows.as (.node .callExpr) rfl
    apply Grows.wrap (adds_argumentList hinner) rfl
  · apply Grows.as (.node .fieldExpr) rfl
    refine Grows.wrap (A := fun _ => True) (m := .token .dot >> .token .ident) ?_ rfl
    have hnext : ∀ a : Lookahead,
        (a.isAt .lParen || a.isAt .dot && decide (a.second = some .ident)) = true
          ∧ a.isAt .lParen = false → a.isAt .dot = true ∧ a.second = some .ident := by
      rintro a ⟨htest, hcall⟩
      rw [hcall, Bool.false_or, Bool.and_eq_true, decide_eq_true_eq] at htest
      apply htest
    apply (Adds.takeAt fun a ha => (hnext a ha).1).andThen
    apply Adds.forget
    apply Adds.takeAt
    rintro a' ⟨a, ha, hfirst⟩
    apply decide_eq_true (hfirst.trans (hnext a ha).2)

theorem adds_chain :
  Adds NodeKind.layout inner B chain (maybe Layout.expression) fun _ => True
  := by
  apply Adds.apart
  apply Grows.branch
  · apply (Adds.report_maybe _).grows
  · apply Grows.maybe
    apply Grows.andThen _ (grows_links hinner)
    apply ((adds_primary hinner).before fun _ ha => ha.2).grows

/-- Prefix operators and slices, or a chain. -/
theorem adds_operandBody :
  Adds NodeKind.layout inner B operand (maybe Layout.expression) fun _ => True
  := by
  apply Adds.branch
  · apply Adds.maybe
    apply Adds.as (.node .prefixExpr) rfl
    apply Adds.node
    apply Adds.andThen (M := fun _ => True)
    · apply Adds.forget
      apply Adds.takeAny fun _ ha => ha.2
      intro k
      cases k <;> decide
    · apply Adds.accept.andThen (adds_operand hinner)
  apply Adds.branch
  · apply Adds.maybe
    apply Adds.as (.node .sliceType) rfl
    apply Adds.node
    apply (Adds.takeAt fun _ ha => ha.2).andThen
    apply Adds.expect.andThen
    apply Adds.accept.andThen (adds_operand hinner)
  · apply adds_chain hinner

/-- A binary operator takes its left operand. -/
theorem grows_operation (power : Nat) {n : Nat} (hB : ∀ a, B a → bindsOver n a = true) :
  Grows NodeKind.layout inner B (operation power) (maybe Layout.expression)
    (maybe Layout.expression)
  := by
  have hoperator : ∀ a, B a → ∃ k, a.first = some k
      ∧ Kind.token k ∈ [.token .plus, .token .minus, .token .star, .token .slash] := by
    intro a ha
    obtain ⟨m, hm, -⟩ := (Option.any_eq_true _ _).mp (hB a ha)
    obtain ⟨k, hk, hpower⟩ := Option.bind_eq_some_iff.mp hm
    use k, hk
    cases k with
    | plus | minus | star | slash => decide
    | _ => contradiction
  apply Grows.maybe
  apply Grows.as (.node .binExpr) rfl
  refine Grows.wrap (A := fun _ => True) ?_ rfl
  apply (Adds.take _ hoperator).andThen
  apply (hinner (.expression power)).before fun _ _ => trivial

theorem adds_operations (power : Nat) :
  Adds NodeKind.layout inner B (operations power) (maybe Layout.expression) fun _ => True
  := by
  apply Adds.apart
  apply (adds_operand hinner).grows.andThen
  apply Grows.loop
  apply Grows.branch
  · apply grows_operation hinner 2 fun _ ha => ha.2
  · apply grows_operation hinner 1 fun _ ha => ha.1

end

/-! ### All texts -/

theorem adds_read (levels : Nat) (symbol : Symbol) :
  Adds NodeKind.layout (grammar.read levels) (fun _ => True) (.nested symbol) (parts symbol)
    fun _ => True
  := by
  apply Grammar.adds_read le_rfl
  · intro symbol
    cases symbol with
    | expression power => apply maybe_mono (language_oneOf_le (by decide))
    | operand => apply maybe_mono (language_oneOf_le (by decide))
    | block => apply maybe_mono (language_oneOf_le (by decide))
  · intro inner hinner symbol
    cases symbol with
    | expression power => apply adds_operations hinner
    | operand => apply adds_operandBody hinner
    | block =>
      apply Adds.maybe
      apply Adds.as (.node .block) (by decide) (adds_block hinner)

theorem adds_file (levels : Nat) {B : Lookahead → Prop} :
  Adds NodeKind.layout (grammar.read levels) B file (NodeKind.layout .sourceFile) fun _ => True
  := by
  apply Adds.loop
  apply Adds.orReject le_rfl
  apply adds_declarationOr (adds_read levels) (by decide) (by decide)
  apply (adds_expressionStatement (adds_read levels)).mono
  apply maybe_mono (language_oneOf_le (by decide))

end Construct

open Construct in
/-- In the tree of any text, every node has the parts of its layout. -/
theorem Parse.laidOut_ofTokens (ts : List Token) :
  (ofTokens ts).tree.Shaped (Layout.Fits NodeKind.layout)
  := by
  have hstart : (State.start ts).LaidOut NodeKind.layout := List.forall_mem_nil _
  have hfile := (adds_file nestingLimit (B := fun _ => True) (State.start ts) trivial hstart).1
  apply State.Shaped.node hfile.laidOut.flush
  have hparts : (finalState ts).partKinds ∈ (NodeKind.layout .sourceFile).language := by
    obtain ⟨ks, hks, hkinds⟩ := hfile.parts
    have hempty : (State.start ts).partKinds = [] := rfl
    rw [finalState, State.partKinds_flush, hkinds, hempty, List.nil_append]
    exact hks
  apply hparts

end InlayHints
