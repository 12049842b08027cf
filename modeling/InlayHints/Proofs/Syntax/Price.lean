import InlayHints.Proofs.Grammar.Cost
import InlayHints.Proofs.Syntax.Missing

/-!
# What the constructs cost

Reading a text takes steps in proportion to its tokens.  Every construct takes the token that it is
chosen by, and this token pays for all steps of the construct that are not paid by other tokens
(`Rule.Pays`), and for some steps around it as well: for those of the statement or the parameter
that the construct may be the whole of.  So every round of a repetition pays for itself
(`Construct.settles_grammar`), however deep the constructs nest, and one price for each token does
for all limits of nesting (`Construct.priced`).
-/

namespace InlayHints

namespace Construct

open Rule

/-- For how many steps a token pays. -/
def price : Nat := 300

/-- How many steps of a construct are free. -/
def freeSteps : Symbol → Nat
  | .expression _ => 14
  | .operand => 8
  | .block => 13

/-- For how many steps around a construct its first token pays. -/
def savedSteps : Symbol → Nat
  | .expression _ => 20
  | .operand => 26
  | .block => 20

/-- Whether a construct takes the token that comes next. -/
def starts : Symbol → Lookahead → Bool
  | .block, a => a.isAt .lBrace
  | _, a => !endsExpression a.first

/-- What is to be known of the constructs inside a construct. -/
structure Priced (S : Setting Symbol) : Prop where
  price : S.price = price
  free : S.free = freeSteps
  symbols : ∀ symbol s, (nested symbol).Costs S (S.free symbol) s
  starts : ∀ symbol s, starts symbol s.look = true → (nested symbol).Costs S (-savedSteps symbol) s

section

variable {S : Setting Symbol} (hS : Priced S) {s : State} {r : Rule Symbol} {cause : Cause}

include hS

/-! ### First tokens -/

/-- A rule that pays leaves enough for some steps around it. -/
theorem Priced.costs_of_pays (h : r.Pays S s) (more : Nat)
    (hcost : r.cost freeSteps + more ≤ Construct.price) :
  r.Costs S (-more) s
  := by
  apply Rule.Costs.mono h
  rw [hS.free, hS.price]
  omega

theorem Priced.costs_of_isPlain (hr : r.isPlain = true) (n : Nat) (hcost : r.cost freeSteps ≤ n) :
  r.Costs S n s
  := by
  apply (costs_of_settles hS.symbols (settles_of_isPlain hr) s).mono
  rw [hS.free]
  exact_mod_cast hcost

theorem pays_take_node {kind : NodeKind} {rest : Rule Symbol} (hrest : rest.Settles S)
    (hfirst : s.look.first ≠ none) :
  (node kind (take >> rest)).Pays S s
  := by
  apply Pays.node
  apply (pays_take _).andThen hS.symbols hrest
  rw [State.look_withOut, State.look_flush]
  apply hfirst

theorem pays_expect_node {kind : NodeKind} {k : TokenKind} {rest : Rule Symbol}
    (hrest : rest.Settles S) (h : s.look.isAt k = true) :
  (node kind (expect k >> rest)).Pays S s
  := by
  apply Pays.node
  apply (pays_expect _).andThen hS.symbols hrest
  rw [State.look_withOut, State.look_flush]
  apply h

/-! ### Lists -/

/-- A round of a list takes the comma that it starts with. -/
theorem settles_commaSeparated (closing : TokenKind) (hr : r.Settles S)
    (hcost : (r.orReject cause).cost freeSteps + 5 ≤ Construct.price) :
  (commaSeparated closing (r.orReject cause)).Settles S
  := by
  have hitem : (r.orReject cause).Settles S := ⟨hr, cause, rfl⟩
  refine ⟨⟨hitem, ?_, trivial, hitem, trivial⟩, trivial⟩
  intro s htest
  have hpays : (take >> when (·.isBefore closing) (r.orReject cause)).Pays S s := by
    apply (pays_take (Lookahead.first_ne_none_of_isAt htest)).andThen hS.symbols
    exact ⟨hitem, trivial⟩
  apply hS.costs_of_pays hpays 1
  simp only [cost_andThen, when, cost]
  omega

/-- An item that pays for itself and two more steps, or is rejected, pays for its round. -/
theorem costs_round (hitem : r.Costs S (-3) s ∨ r.run S.inner s = s) (hr : r.Settles S)
    (hcost : (r.orReject cause).cost freeSteps + 1 ≤ Construct.price)
    (hfirst : s.look.first ≠ none) :
  (r.orReject cause).Costs S (-1) s
  := by
  rcases hitem with hcosts | hsame
  · apply hcosts.orReject (by decide)
  · have hround := costs_orReject hS.symbols hr hsame cause hfirst
    apply hS.costs_of_pays hround 1 hcost

theorem settles_many {closing : TokenKind}
    (hitem : ∀ s, r.Costs S (-3) s ∨ r.run S.inner s = s) (hr : r.Settles S)
    (hcost : (r.orReject cause).cost freeSteps + 1 ≤ Construct.price) :
  (many closing (r.orReject cause)).Settles S
  := by
  refine ⟨?_, hr, cause, rfl⟩
  intro s htest
  apply costs_round hS (hitem s) hr hcost
  have hend := (Bool.and_eq_true_iff.mp htest).2
  rw [Bool.not_eq_true'] at hend
  apply of_decide_eq_false hend

/-! ### Declarations -/

theorem settles_parameter :
  parameter.Settles S
  := by
  refine ⟨⟨?_, trivial⟩, settles_of_isPlain rfl⟩
  intro s htest
  apply hS.costs_of_pays (pays_take (Lookahead.first_ne_none_of_isAny htest)) 1 (by decide)

theorem settles_parameterList :
  parameterList.Settles S
  := by
  refine ⟨settles_of_isPlain rfl, ?_, settles_of_isPlain rfl⟩
  apply settles_commaSeparated hS .rParen (settles_parameter hS) (by decide)

theorem settles_function :
  function.Settles S
  := ⟨settles_of_isPlain rfl, settles_of_isPlain rfl, settles_of_isPlain rfl,
    settles_parameterList hS, settles_of_isPlain rfl⟩

theorem pays_function (h : s.look.keyword = some .fnKw) :
  function.Pays S s
  := by
  obtain ⟨-, hsecond⟩ : function.Settles S := settles_function hS
  rw [← State.look_flush, ← State.look_withOut s.flush []] at h
  apply Pays.node
  apply pays_accept hS.symbols hsecond
  intro hpub
  rw [Lookahead.keyword_of_isAt_pub hpub] at h
  apply (pays_expect (decide_eq_true h)).andThen hS.symbols hsecond.2

theorem pays_variableDeclaration (h : s.look.keyword.any isMutability = true) :
  variableDeclaration.Pays S s
  := by
  rw [← State.look_flush, ← State.look_withOut s.flush []] at h
  apply Pays.node
  apply pays_accept hS.symbols (settles_of_isPlain rfl)
  intro hpub
  rw [Lookahead.keyword_of_isAt_pub hpub] at h
  apply Pays.andThen hS.symbols _ (settles_of_isPlain rfl)
  cases hconst : (s.flush.withOut []).look.isAt .constKw with
  | true =>
    apply (pays_take (Lookahead.first_ne_none_of_isAt hconst)).branch_true hconst
  | false =>
    apply (pays_expect (isAt_varKw h hconst)).branch_false hconst

theorem settles_declarationOr {other : Rule Symbol} (hother : other.Settles S) :
  (declarationOr other).Settles S
  := ⟨settles_function hS, settles_of_isPlain rfl, hother⟩

/-- A declaration pays for some steps around it, and what is read in its place does or takes
nothing. -/
theorem costs_declarationOr {other : Rule Symbol}
    (hother : other.Costs S (-5) s ∨ other.run S.inner s = s) :
  (declarationOr other).Costs S (-3) s ∨ (declarationOr other).run S.inner s = s
  := by
  rw [declarationOr]
  cases hfn : decide (s.look.keyword = some .fnKw) with
  | true =>
    apply Or.inl
    have hcosts := hS.costs_of_pays (pays_function hS (of_decide_eq_true hfn)) 4 (by decide)
    apply hcosts.branch_true hfn
  | false =>
    rw [run_branch_false hfn]
    cases hmutability : s.look.keyword.any isMutability with
    | true =>
      apply Or.inl
      have hcosts := hS.costs_of_pays (pays_variableDeclaration hS hmutability) 5 (by decide)
      apply (hcosts.branch_true hmutability).branch_false hfn
    | false =>
      rw [run_branch_false hmutability]
      apply hother.imp_left
      intro hcosts
      apply (hcosts.branch_false hmutability).branch_false hfn

/-! ### Statements and members -/

/-- An expression that is a statement pays for the steps of the statement. -/
theorem costs_expressionStatement :
  expressionStatement.Costs S (-13) s ∨ expressionStatement.run S.inner s = s
  := by
  rw [expressionStatement, when]
  cases hstarts : s.look.isAny startsExpression with
  | true =>
    have hexpression : starts (.expression 0) (s.flush.withOut []).look = true := by
      change (!endsExpression (s.flush.withOut []).look.first) = true
      rw [State.look_withOut, State.look_flush, endsExpression_of_startsExpression hstarts]
      rfl
    have hsemicolon : ∀ s, (expect .semicolon).Costs S 3 s := fun s =>
      hS.costs_of_isPlain rfl 3 (by decide)
    apply Or.inl
    apply (((hS.starts _ _ hexpression).andThen (hsemicolon _)).node.branch_true hstarts).mono
    decide
  | false =>
    rw [run_branch_false hstarts]
    apply Or.inr rfl

theorem costs_item (s : State) :
  item.Costs S (-3) s ∨ item.run S.inner s = s
  := by
  apply costs_declarationOr hS
  apply (costs_expressionStatement hS).imp_left
  intro hcosts
  apply hcosts.mono
  decide

theorem costs_member (s : State) :
  (declarationOr (when (·.keyword = some .ident) field)).Costs S (-3) s
    ∨ (declarationOr (when (·.keyword = some .ident) field)).run S.inner s = s
  := by
  apply costs_declarationOr hS
  rw [when]
  cases hident : decide (s.look.keyword = some .ident) with
  | true =>
    have hfirst : s.look.first ≠ none := by
      apply Lookahead.first_ne_none_of_keyword
      rw [of_decide_eq_true hident]
      apply Option.some_ne_none
    have hfield : field.Pays S s := pays_take_node hS (settles_of_isPlain rfl) hfirst
    apply Or.inl ((hS.costs_of_pays hfield 6 (by decide)).branch_true hident)
  | false =>
    rw [run_branch_false hident]
    apply Or.inr rfl

/-- A statement pays for its round, or it takes nothing. -/
theorem costs_statement (s : State) :
  statement.Costs S (-3) s ∨ statement.run S.inner s = s
  := by
  rw [statement]
  cases hmutability : s.look.isAny isMutability with
  | true =>
    have hdeclaration := pays_variableDeclaration hS (keyword_of_isMutability hmutability)
    apply Or.inl ((hS.costs_of_pays hdeclaration 4 (by decide)).branch_true hmutability)
  | false =>
    rw [run_branch_false hmutability]
    cases hbrace : s.look.isAt .lBrace with
    | true =>
      apply Or.inl
      apply (((hS.starts .block s hbrace).branch_true hbrace).branch_false hmutability).mono
      decide
    | false =>
      rw [run_branch_false hbrace]
      cases hreturn : s.look.isAt .returnKw with
      | true =>
        have hpays : returnStatement.Pays S s := pays_take_node hS (settles_of_isPlain rfl)
          (Lookahead.first_ne_none_of_isAt hreturn)
        have hcosts := hS.costs_of_pays hpays 6 (by decide)
        apply Or.inl
        apply ((hcosts.branch_true hreturn).branch_false hbrace).branch_false hmutability
      | false =>
        rw [run_branch_false hreturn]
        apply (costs_expressionStatement hS).imp_left
        intro hcosts
        apply (((hcosts.branch_false hreturn).branch_false hbrace).branch_false hmutability).mono
        decide

theorem settles_container :
  container.Settles S
  := by
  refine ⟨settles_of_isPlain rfl, settles_of_isPlain rfl, ?_, settles_of_isPlain rfl⟩
  apply settles_many hS (costs_member hS) _ (by decide)
  apply settles_declarationOr hS (settles_of_isPlain rfl)

theorem settles_block :
  block.Settles S
  := by
  refine ⟨settles_of_isPlain rfl, ?_, settles_of_isPlain rfl⟩
  apply settles_many hS (costs_statement hS) (settles_of_isPlain rfl) (by decide)

theorem settles_file :
  file.Settles S
  := by
  have hitem : item.Settles S := settles_declarationOr hS (settles_of_isPlain rfl)
  refine ⟨?_, hitem, _, rfl⟩
  intro s htest
  have hend : s.look.atEnd = false := by simpa using htest
  apply costs_round hS (costs_item hS s) hitem (by decide) (of_decide_eq_false hend)

/-! ### Expressions -/

theorem settles_argumentList :
  argumentList.Settles S
  := by
  refine ⟨settles_of_isPlain rfl, ?_, settles_of_isPlain rfl⟩
  apply settles_commaSeparated hS .rParen (settles_of_isPlain rfl) (by decide)

theorem pays_argumentList (h : s.look.isAt .lParen = true) :
  argumentList.Pays S s
  := pays_expect_node hS (settles_argumentList hS).2 h

theorem settles_primary :
  primary.Settles S
  := ⟨settles_of_isPlain rfl, settles_of_isPlain rfl,
    ⟨settles_of_isPlain rfl, settles_argumentList hS, trivial⟩, settles_of_isPlain rfl,
    settles_container hS, settles_of_isPlain rfl⟩

/-- An expression without operators pays with the next token. -/
theorem pays_primary (hfirst : s.look.first ≠ none) :
  primary.Pays S s
  := by
  have hopened : (s.flush.withOut []).look.first ≠ none := by
    rw [State.look_withOut, State.look_flush]
    apply hfirst
  rw [primary]
  cases hname : s.look.isAt .ident with
  | true => apply (pays_take hopened).node.branch_true hname
  | false =>
  apply Pays.branch_false _ hname
  cases hliteral : s.look.isAt .intNumber || s.look.isAt .stringLit with
  | true => apply (pays_take hopened).node.branch_true hliteral
  | false =>
  apply Pays.branch_false _ hliteral
  cases hbuiltin : s.look.isAt .builtinIdent with
  | true =>
    have hrest : (branch (·.isAt .lParen) argumentList
        (report fun _ => .missingArguments)).Settles S := ⟨settles_argumentList hS, trivial⟩
    apply (pays_take_node hS hrest hfirst).branch_true hbuiltin
  | false =>
  apply Pays.branch_false _ hbuiltin
  cases hparen : s.look.isAt .lParen with
  | true => exact (pays_take_node hS (settles_of_isPlain rfl) hfirst).branch_true hparen
  | false =>
  apply Pays.branch_false _ hparen
  cases hstruct : s.look.isAt .structKw with
  | true => exact (pays_expect_node hS (settles_container hS).2 hstruct).branch_true hstruct
  | false => apply (pays_reject hS.symbols _ hfirst).branch_false hstruct

/-- A round of calls and field accesses takes the parenthesis or the dot that it starts with. -/
theorem settles_links :
  (loop (fun a => a.isAt .lParen || a.isAt .dot && a.second = some .ident)
    (branch (·.isAt .lParen) (wrap .callExpr argumentList)
      (wrap .fieldExpr (take >> take)))).Settles S
  := by
  refine ⟨?_, settles_argumentList hS, settles_of_isPlain rfl⟩
  intro s htest
  have hlist := settles_argumentList hS
  have hpays : (branch (·.isAt .lParen) (wrap .callExpr argumentList)
      (wrap .fieldExpr (take >> take))).Pays S s := by
    cases hparen : s.look.isAt .lParen with
    | true => apply (pays_argumentList hS hparen).wrap.branch_true hparen
    | false =>
      have hdot := (Bool.and_eq_true_iff.mp ((Bool.or_eq_true_iff.mp htest).resolve_left
        (Bool.eq_false_iff.mp hparen))).1
      apply Pays.branch_false _ hparen
      apply ((pays_take (Lookahead.first_ne_none_of_isAt hdot)).andThen hS.symbols _).wrap
      apply settles_of_isPlain rfl
  apply hS.costs_of_pays hpays 1 (by decide)

theorem settles_chain :
  chain.Settles S
  := ⟨trivial, settles_primary hS, settles_links hS⟩

/-- A round of operators takes the operator that it starts with. -/
theorem settles_operations (power : Nat) :
  (operations power).Settles S
  := by
  refine ⟨trivial, ?_, settles_of_isPlain rfl⟩
  intro s htest
  have hfirst : s.look.first ≠ none := by
    intro hnone
    have hends : endsExpression s.look.first = true := by rw [hnone]; rfl
    rw [bindsOver_of_endsExpression hends] at htest
    contradiction
  have hoperation : ∀ power, (operation power).Pays S s := by
    intro power
    apply ((pays_take hfirst).andThen hS.symbols _).wrap
    apply settles_of_isPlain rfl
  have hpays : (branch (bindsOver 1) (operation 2) (operation 1)).Pays S s := by
    cases hbinds : bindsOver 1 s.look with
    | true => apply (hoperation 2).branch_true hbinds
    | false => apply (hoperation 1).branch_false hbinds
  apply hS.costs_of_pays hpays 1 (by decide)

/-- Whatever is read, every round pays for itself. -/
theorem settles_grammar (symbol : Symbol) :
  (grammar symbol).Settles S
  := by
  cases symbol with
  | expression power => apply settles_operations hS
  | operand =>
    exact ⟨settles_of_isPlain rfl, settles_of_isPlain rfl, settles_chain hS⟩
  | block => apply settles_block hS

/-- An operand that is not missing pays with its first token. -/
theorem pays_operand (h : endsExpression s.look.first = false) :
  operand.Pays S s
  := by
  have hfirst := first_ne_none_of_endsExpression h
  have hopened : endsExpression (s.flush.withOut []).look.first = false := by
    rw [State.look_withOut, State.look_flush, h]
  rw [operand]
  cases hprefix : s.look.isAny isPrefixOperator with
  | true => exact (pays_take_node hS (settles_of_isPlain rfl) hfirst).branch_true hprefix
  | false =>
  apply Pays.branch_false _ hprefix
  cases hbracket : s.look.isAt .lBracket with
  | true => exact (pays_take_node hS (settles_of_isPlain rfl) hfirst).branch_true hbracket
  | false =>
  apply Pays.branch_false _ hbracket
  have hprimary := pays_primary hS (first_ne_none_of_endsExpression hopened)
  apply ((hprimary.andThen hS.symbols (settles_links hS)).branch_false hopened).apart

/-- An expression that is not missing leaves what its first operand does not need. -/
theorem costs_operations (power : Nat) (h : endsExpression s.look.first = false) :
  (operations power).Costs S (-22) s
  := by
  have hstarts : starts .operand (s.flush.withOut []).look = true := by
    change (!endsExpression (s.flush.withOut []).look.first) = true
    rw [State.look_withOut, State.look_flush, h]
    rfl
  have hloop := costs_loop (settles_operations hS power).2.1
  apply ((hS.starts .operand _ hstarts).andThen (hloop _)).apart.mono
  decide

end

/-! ### Nesting -/

/-- Where a construct starts, there is something to be skipped. -/
theorem nextBalance?_of_starts {symbol : Symbol} {s : State}
    (h : starts symbol s.look = true) :
  s.nextBalance? 0 ≠ none
  := by
  cases symbol with
  | block => apply nextBalance_of_isAt_lBrace h
  | _ => apply nextBalance_of_endsExpression (Bool.not_eq_true' _ ▸ h)

/-- A missing operand takes no more than some free steps. -/
theorem costs_operand_of_endsExpression {S : Setting Symbol} {s : State}
    (h : endsExpression s.look.first = true) :
  operand.Costs S 6 s
  := by
  have hopened : endsExpression (s.flush.withOut []).look.first = true := by
    rw [State.look_withOut, State.look_flush, h]
  have hchain : chain.Costs S 4 s := by
    apply ((costs_report _ _).branch_true hopened).apart.mono
    decide
  apply ((hchain.branch_false (isAt_lBracket_of_endsExpression h)).branch_false
    (isPrefixOperator_of_endsExpression h)).mono
  decide

/-- The rule of a construct that starts with the next token leaves what the construct is to leave,
and two steps more. -/
theorem costs_grammar_of_starts {S : Setting Symbol} (hS : Priced S) {symbol : Symbol} {s : State}
    (h : starts symbol s.look = true) :
  (grammar symbol).Costs S (-savedSteps symbol - 2) s
  := by
  cases symbol with
  | expression power => apply costs_operations hS power (Bool.not_eq_true' _ ▸ h)
  | operand => apply hS.costs_of_pays (pays_operand hS (Bool.not_eq_true' _ ▸ h)) 28 (by decide)
  | block =>
    have hpays : block.Pays S s := pays_expect_node hS (settles_block hS).2 h
    apply hS.costs_of_pays hpays 22 (by decide)

/-- The rule of a construct has fewer free steps than the construct, by two. -/
theorem costs_grammar {S : Setting Symbol} (hS : Priced S) (symbol : Symbol) (s : State) :
  (grammar symbol).Costs S (freeSteps symbol - 2) s
  := by
  have hsettled : (grammar symbol).Costs S ((grammar symbol).cost freeSteps) s := by
    rw [← hS.free]
    apply costs_of_settles hS.symbols (settles_grammar hS symbol)
  cases symbol with
  | expression power => apply hsettled
  | block => apply hsettled
  | operand =>
    cases hends : endsExpression s.look.first with
    | true => apply costs_operand_of_endsExpression hends
    | false =>
      apply (hS.costs_of_pays (pays_operand hS hends) 0 (by decide)).mono
      decide

theorem one_le_freeSteps (symbol : Symbol) :
  1 ≤ freeSteps symbol
  := by
  cases symbol with
  | _ => simp [freeSteps]

theorem savedSteps_le (symbol : Symbol) :
  savedSteps symbol + 4 ≤ price
  := by
  cases symbol with
  | _ => simp [savedSteps, price]

/-- One price does for all levels of nesting, and for all limits. -/
theorem priced {limit levels : Nat} (hlevels : levels ≤ limit) :
  Priced (grammar.setting limit price freeSteps levels)
  := by
  induction levels with
  | zero =>
    have hskip : ∀ (symbol : Symbol) s,
        (nested symbol).Costs (grammar.setting limit price freeSteps 0)
          (if s.nextBalance? 0 = none then 1 else 4 - price) s := fun symbol s =>
      costs_nested_zero (by decide) s
    refine ⟨rfl, rfl, ?_, ?_⟩
    · intro symbol s
      have hfree : 1 ≤ (grammar.setting limit price freeSteps 0).free symbol :=
        one_le_freeSteps symbol
      have hprice := savedSteps_le symbol
      apply (hskip symbol s).mono
      split
      · omega
      · omega
    · intro symbol s hstarts
      have hprice := savedSteps_le symbol
      apply (hskip symbol s).mono
      rw [if_neg (nextBalance?_of_starts hstarts)]
      omega
  | succ levels ih =>
    have hS := ih (Nat.le_of_succ_le hlevels)
    refine ⟨rfl, rfl, ?_, ?_⟩
    · intro symbol s
      apply (costs_nested_succ hlevels (costs_grammar hS symbol s)).mono
      have hfree : (grammar.setting limit price freeSteps (levels + 1)).free = freeSteps := rfl
      rw [hfree]
      omega
    · intro symbol s hstarts
      apply (costs_nested_succ hlevels (costs_grammar_of_starts hS hstarts)).mono
      omega

end Construct

end InlayHints
