import InlayHints.Proofs.Grammar.Progress

/-!
# Constructs take tokens

Whatever comes after it, the token that a construct is chosen by is taken: declarations,
statements and members advance where their keyword comes next, and an expression advances
before every token that does not end an expression, also where it nests too deep to be read
(`Construct.advances_read`).  So an item, a statement or a member takes a significant token or
nothing at all.
-/

namespace InlayHints

namespace Construct

open Rule

variable {inner : Symbol → State → State} {s : State}

/-! ### First tokens -/

/-- A mutability without `pub` is the keyword. -/
theorem keyword_of_isMutability {a : Lookahead} (h : a.isAny isMutability = true) :
  a.keyword.any isMutability = true
  := by
  have hpub : a.isAt .pubKw = false := by
    apply Bool.eq_false_iff.mpr
    intro hpub
    rw [Lookahead.isAt, decide_eq_true_eq] at hpub
    rw [Lookahead.isAny, hpub] at h
    contradiction
  rw [Lookahead.keyword_of_isAt_pub hpub]
  apply h

/-- The other mutability is `var`. -/
theorem isAt_varKw {a : Lookahead} (h : a.first.any isMutability = true)
    (hconst : a.isAt .constKw = false) :
  a.isAt .varKw = true
  := by
  obtain ⟨k, hk, hmutability⟩ := (Option.any_eq_true _ _).mp h
  rw [Lookahead.isAt, hk] at hconst ⊢
  cases k with
  | constKw => contradiction
  | varKw => rfl
  | _ => contradiction

/-- The declaration of a function starts with `pub` or `fn`. -/
theorem opens_function {rest : Rule Symbol} (hrest : rest.framed = true)
    (h : s.look.keyword = some .fnKw) :
  (accept .pubKw >> expect .fnKw >> rest).Opens inner s
  := by
  have hframed : (expect .fnKw >> rest).framed = true := hrest
  apply opens_accept hframed
  intro hpub
  rw [Lookahead.keyword_of_isAt_pub hpub] at h
  have hfn : s.look.isAt .fnKw = true := decide_eq_true h
  apply (opens_expect hfn).andThen hrest

/-- The declaration of a constant or variable starts with `pub`, `const` or `var`. -/
theorem opens_variableDeclaration {rest : Rule Symbol} (hrest : rest.framed = true)
    (h : s.look.keyword.any isMutability = true) :
  (accept .pubKw >> branch (·.isAt .constKw) take (expect .varKw) >> rest).Opens inner s
  := by
  have hframed : (branch (·.isAt .constKw) take (expect .varKw) >> rest).framed = true := hrest
  apply opens_accept hframed
  intro hpub
  rw [Lookahead.keyword_of_isAt_pub hpub] at h
  apply Opens.andThen _ hrest
  cases hconst : s.look.isAt .constKw with
  | true =>
    rw [Opens, run_branch_true hconst]
    apply opens_take
  | false =>
    rw [Opens, run_branch_false hconst]
    apply opens_expect (isAt_varKw h hconst)

/-! ### Declarations and statements -/

section

variable (htakes : ∀ symbol s, State.Takes s (inner symbol s))

include htakes

theorem advances_function (h : s.look.keyword = some .fnKw) :
  s.Advances (function.run inner s)
  := by
  apply advances_node htakes
  · apply opens_function rfl
    rw [State.look_withOut, State.look_flush]
    apply h
  · apply Lookahead.first_ne_none_of_keyword
    rw [h]
    apply Option.some_ne_none

theorem advances_variableDeclaration (h : s.look.keyword.any isMutability = true) :
  s.Advances (variableDeclaration.run inner s)
  := by
  apply advances_node htakes
  · apply opens_variableDeclaration rfl
    rw [State.look_withOut, State.look_flush]
    apply h
  · apply Lookahead.first_ne_none_of_keyword
    intro hnone
    rw [hnone] at h
    contradiction

/-- A declaration takes a token, and what is read in its place does or takes nothing. -/
theorem advances_declarationOr {other : Rule Symbol}
    (hother : s.Advances (other.run inner s) ∨ other.run inner s = s) :
  s.Advances ((declarationOr other).run inner s) ∨ (declarationOr other).run inner s = s
  := by
  rw [declarationOr]
  cases hfn : decide (s.look.keyword = some .fnKw) with
  | true =>
    rw [run_branch_true hfn]
    apply Or.inl (advances_function htakes (of_decide_eq_true hfn))
  | false =>
    rw [run_branch_false hfn]
    cases hmutability : s.look.keyword.any isMutability with
    | true =>
      rw [run_branch_true hmutability]
      apply Or.inl (advances_variableDeclaration htakes hmutability)
    | false =>
      rw [run_branch_false hmutability]
      apply hother

/-- A node advances if it starts by taking the next token. -/
theorem advances_take_node {kind : NodeKind} {rest : Rule Symbol} (hrest : rest.framed = true)
    (hfirst : s.look.first ≠ none) :
  s.Advances ((node kind (take >> rest)).run inner s)
  := advances_node htakes ((opens_take inner _).andThen hrest) hfirst

theorem advances_expect_node {kind : NodeKind} {k : TokenKind} {rest : Rule Symbol}
    (hrest : rest.framed = true) (h : s.look.isAt k = true) :
  s.Advances ((node kind (expect k >> rest)).run inner s)
  := by
  apply advances_node htakes
  · apply Opens.andThen _ hrest
    apply opens_expect
    rw [State.look_withOut, State.look_flush]
    apply h
  · apply Lookahead.first_ne_none_of_isAt h

theorem advances_argumentList (h : s.look.isAt .lParen = true) :
  s.Advances (argumentList.run inner s)
  := advances_expect_node htakes rfl h

/-- An expression without operators takes the next token. -/
theorem advances_primary (hfirst : s.look.first ≠ none) :
  s.Advances (primary.run inner s)
  := by
  rw [primary]
  simp only [run]
  split
  · apply advances_node htakes (opens_take inner _) hfirst
  split
  · apply advances_node htakes (opens_take inner _) hfirst
  split
  · apply advances_take_node htakes rfl hfirst
  split
  · apply advances_take_node htakes rfl hfirst
  split
  · next hstruct => apply advances_expect_node htakes rfl hstruct
  · apply advances_reject htakes hfirst

end

/-! ### Expressions -/

theorem first_ne_none_of_endsExpression {a : Lookahead} (h : endsExpression a.first = false) :
  a.first ≠ none
  := by
  intro hnone
  rw [hnone] at h
  contradiction

/-- What ends an expression is no binary operator. -/
theorem bindsOver_of_endsExpression {a : Lookahead} (h : endsExpression a.first = true) (power : Nat) :
  bindsOver power a = false
  := by
  obtain ⟨first, second⟩ := a
  cases first with
  | none => rfl
  | some k =>
    cases k with
    | _ => first | rfl | contradiction

/-- An expression that nests too deep is skipped from its first token on. -/
theorem nextBalance_of_endsExpression (h : endsExpression s.look.first = false) :
  s.nextBalance? 0 ≠ none
  := by
  obtain ⟨k, hk⟩ := Option.ne_none_iff_exists'.mp (first_ne_none_of_endsExpression h)
  rw [hk, endsExpression, Bool.or_eq_false_iff] at h
  rw [State.nextBalance?, hk, Option.bind_some, State.balance?, h.1, h.2]
  cases k.isOpening with
  | true => apply Option.some_ne_none
  | false => apply Option.some_ne_none

/-- Before a token that does not end an expression, reading an expression or an operand
advances. -/
theorem advances_read (levels : Nat) {symbol : Symbol} (hsymbol : symbol ≠ .block) {s : State}
    (h : endsExpression s.look.first = false) :
  s.Advances (grammar.read levels symbol s)
  := by
  induction levels generalizing symbol s with
  | zero =>
    have hnext : (s.report fun _ => .nestedTooDeep).nextBalance? 0 ≠ none :=
      nextBalance_of_endsExpression h
    apply State.advances_skipLevel hnext
  | succ levels ih =>
    have htakes := State.kept_takes.read grammar levels
    have hfirst := first_ne_none_of_endsExpression h
    have hopened : endsExpression (s.flush.withOut []).look.first = false := by
      rw [State.look_withOut, State.look_flush, h]
    cases symbol with
    | expression power =>
      apply State.advances_of_opened
      apply advances_andThen htakes
      apply ih (show Symbol.operand ≠ .block from nofun) hopened
    | operand =>
      rw [Grammar.read, grammar, operand]
      simp only [run]
      split
      · apply advances_take_node htakes rfl hfirst
      split
      · apply advances_take_node htakes rfl hfirst
      · apply State.advances_of_opened
        rw [run_branch_false hopened]
        apply advances_andThen htakes
        apply advances_primary htakes (first_ne_none_of_endsExpression hopened)
    | block => contradiction

/-- A block that nests too deep is skipped from its opening brace on. -/
theorem nextBalance_of_isAt_lBrace (h : s.look.isAt .lBrace = true) :
  s.nextBalance? 0 ≠ none
  := by
  rw [Lookahead.isAt, decide_eq_true_eq] at h
  rw [State.nextBalance?, h]
  apply Option.some_ne_none

/-- A block advances at its opening brace. -/
theorem advances_block (levels : Nat) (h : s.look.isAt .lBrace = true) :
  s.Advances (grammar.read levels .block s)
  := by
  cases levels with
  | zero =>
    have hnext : (s.report fun _ => .nestedTooDeep).nextBalance? 0 ≠ none :=
      nextBalance_of_isAt_lBrace h
    apply State.advances_skipLevel hnext
  | succ levels => apply advances_expect_node (State.kept_takes.read grammar levels) rfl h

/-! ### Items, statements and members -/

theorem endsExpression_of_startsExpression {a : Lookahead}
    (h : a.isAny startsExpression = true) :
  endsExpression a.first = false
  := by
  obtain ⟨k, hk, hstarts⟩ := (Option.any_eq_true _ _).mp h
  rw [hk]
  cases k with
  | _ => first | rfl | contradiction

theorem advances_expressionStatement (levels : Nat) (s : State) :
  s.Advances (expressionStatement.run (grammar.read levels) s)
    ∨ expressionStatement.run (grammar.read levels) s = s
  := by
  rw [expressionStatement, when]
  cases hstarts : s.look.isAny startsExpression with
  | true =>
    rw [run_branch_true hstarts]
    apply Or.inl
    apply State.advances_of_opened
    apply advances_andThen (State.kept_takes.read grammar levels)
    apply advances_read levels (show Symbol.expression 0 ≠ .block from nofun)
    rw [State.look_withOut, State.look_flush]
    apply endsExpression_of_startsExpression hstarts
  | false =>
    rw [run_branch_false hstarts]
    apply Or.inr rfl

/-- An item takes a significant token or nothing at all. -/
theorem advances_item (levels : Nat) (s : State) :
  s.Advances (item.run (grammar.read levels) s) ∨ item.run (grammar.read levels) s = s
  := by
  apply advances_declarationOr (State.kept_takes.read grammar levels)
  apply advances_expressionStatement

/-- A member, up to a rejection, takes a significant token or nothing at all. -/
theorem advances_member (levels : Nat) (s : State) :
  s.Advances ((declarationOr (when (·.keyword = some .ident) field)).run (grammar.read levels) s)
    ∨ (declarationOr (when (·.keyword = some .ident) field)).run (grammar.read levels) s = s
  := by
  apply advances_declarationOr (State.kept_takes.read grammar levels)
  rw [when]
  cases hident : decide (s.look.keyword = some .ident) with
  | true =>
    rw [run_branch_true hident]
    apply Or.inl
    apply advances_take_node (State.kept_takes.read grammar levels) rfl
    apply Lookahead.first_ne_none_of_keyword
    rw [of_decide_eq_true hident]
    apply Option.some_ne_none
  | false =>
    rw [run_branch_false hident]
    apply Or.inr rfl

/-- A statement takes a significant token or nothing at all. -/
theorem advances_statement (levels : Nat) (s : State) :
  s.Advances (statement.run (grammar.read levels) s)
    ∨ statement.run (grammar.read levels) s = s
  := by
  have htakes := State.kept_takes.read grammar levels
  rw [statement]
  cases hmutability : s.look.isAny isMutability with
  | true =>
    rw [run_branch_true hmutability]
    apply Or.inl (advances_variableDeclaration htakes (keyword_of_isMutability hmutability))
  | false =>
    rw [run_branch_false hmutability]
    cases hbrace : s.look.isAt .lBrace with
    | true =>
      rw [run_branch_true hbrace]
      apply Or.inl (advances_block levels hbrace)
    | false =>
      rw [run_branch_false hbrace]
      cases hreturn : s.look.isAt .returnKw with
      | true =>
        rw [run_branch_true hreturn]
        apply Or.inl
        apply advances_take_node htakes rfl (Lookahead.first_ne_none_of_isAt hreturn)
      | false =>
        rw [run_branch_false hreturn]
        apply advances_expressionStatement

end Construct

end InlayHints
