import InlayHints.Proofs.Syntax.Progress

/-!
# Missing expressions

Before a token that ends an expression no operand is read: a fault is noted, and nothing is taken
but trivia, however deep the constructs may still nest (`Construct.misses_expression`).  Before all
other tokens an expression takes a significant token, so reading one is never in vain
(`Construct.attempts_expression`).
-/

namespace InlayHints

namespace Construct

open Rule

variable {s : State}

/-- Nothing is skipped before a token that ends an expression. -/
theorem nextBalance?_of_endsExpression (h : endsExpression s.look.first = true) :
  s.nextBalance? 0 = none
  := by
  rw [State.nextBalance?]
  cases hfirst : s.look.first with
  | none => rfl
  | some k =>
    rw [hfirst] at h
    cases k with
    | _ => first | rfl | contradiction

/-- What ends an expression is no prefix operator. -/
theorem isPrefixOperator_of_endsExpression {a : Lookahead} (h : endsExpression a.first = true) :
  a.isAny isPrefixOperator = false
  := by
  obtain ⟨first, second⟩ := a
  cases first with
  | none => rfl
  | some k =>
    cases k with
    | _ => first | rfl | contradiction

theorem isAt_lBracket_of_endsExpression {a : Lookahead} (h : endsExpression a.first = true) :
  a.isAt .lBracket = false
  := by
  rw [Lookahead.isAt, decide_eq_false_iff_not]
  intro hfirst
  rw [hfirst] at h
  contradiction

/-- Before a token that ends an expression, an operand takes no token and is missed. -/
theorem run_operand_of_endsExpression (inner : Symbol → State → State)
    (h : endsExpression s.look.first = true) :
  operand.run inner s = s.apart (State.report .missingExpression)
  := by
  have hopened : endsExpression (s.flush.withOut []).look.first = true := by
    rw [State.look_withOut, State.look_flush, h]
  rw [operand, run_branch_false (isPrefixOperator_of_endsExpression h),
    run_branch_false (isAt_lBracket_of_endsExpression h), chain, run, State.apart,
    run_branch_true hopened]
  rfl

/-- From `s` to `t` nothing was taken but trivia, and one fault was noted. -/
structure Misses (s t : State) : Prop where
  significant : t.significant = s.significant
  faults : ∃ f, t.faults = f :: s.faults

theorem misses_read_zero (symbol : Symbol) (h : endsExpression s.look.first = true) :
  Misses s (grammar.read 0 symbol s)
  := by
  have hnext : (s.report fun _ => .nestedTooDeep).nextBalance? 0 = none :=
    nextBalance?_of_endsExpression h
  have hread : grammar.read 0 symbol s = s.report fun _ => .nestedTooDeep := by
    change State.skipLevel (s.report fun _ => .nestedTooDeep) = _
    rw [State.skipLevel, hnext]
  rw [hread]
  exact ⟨rfl, _, rfl⟩

theorem misses_operand (levels : Nat) (h : endsExpression s.look.first = true) :
  Misses s (grammar.read levels .operand s)
  := by
  cases levels with
  | zero => apply misses_read_zero .operand h
  | succ levels =>
    rw [Grammar.read, grammar, run_operand_of_endsExpression _ h]
    exact ⟨State.significant_flush s, _, rfl⟩

theorem misses_expression (levels power : Nat) (h : endsExpression s.look.first = true) :
  Misses s (grammar.read levels (.expression power) s)
  := by
  cases levels with
  | zero => apply misses_read_zero (.expression power) h
  | succ levels =>
    have hopened : endsExpression (s.flush.withOut []).look.first = true := by
      rw [State.look_withOut, State.look_flush, h]
    obtain ⟨hsignificant, hfaults⟩ := misses_operand levels hopened
    -- no operator comes next, so that nothing follows the operand
    have hstop :
        ¬ bindsOver power (grammar.read levels .operand (s.flush.withOut [])).look = true := by
      rw [State.look_eq, hsignificant, ← State.look_eq, bindsOver_of_endsExpression hopened]
      apply Bool.false_ne_true
    have hrun : (operations power).run (grammar.read levels) s
        = s.apart (grammar.read levels .operand) := by
      simp only [operations, run, State.apart, run_andThen, State.repeatWhile_of_false hstop]
    rw [Grammar.read, grammar, hrun]
    exact ⟨hsignificant.trans (State.significant_flush s), hfaults⟩

/-- An expression takes a significant token, or it is missed before a token that ends an
expression. -/
theorem attempts_expression (levels power : Nat) (s : State) :
  s.Advances (grammar.read levels (.expression power) s)
    ∨ Misses s (grammar.read levels (.expression power) s) ∧ endsExpression s.look.first = true
  := by
  cases hends : endsExpression s.look.first with
  | true => exact .inr ⟨misses_expression levels power hends, rfl⟩
  | false =>
    apply Or.inl
    apply advances_read levels (show Symbol.expression power ≠ .block from nofun) hends

end Construct

end InlayHints
