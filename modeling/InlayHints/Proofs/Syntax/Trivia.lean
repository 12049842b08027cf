import Mathlib
import InlayHints.Proofs.Grammar.Lockstep
import InlayHints.Proofs.Syntax.Progress
import InlayHints.Proofs.Syntax.Acceptance

/-!
# Trivia and parsing

Texts with the same significant tokens have the same tree, but for trivia, and the same
messages, if they have trivia at the same places wherever an argument or parameter is missing
in one of them (`Parse.ofText_alike`).  Without this condition they may differ
(`Parse.ofText_not_alike`): where a parameter is missing, the next token is rejected if no
trivia stands before it, and is taken for a comma between parameters otherwise.
-/

namespace InlayHints

namespace Construct

open Rule

variable {levels : Nat}

/-! ### Declarations -/

theorem steady_parameter {inner : Symbol → State → State} :
  parameter.Steady inner
  := by
  refine ⟨⟨?_, trivial⟩, steady_of_straight rfl, steady_of_straight rfl⟩
  intro s hqualifier
  apply State.advances_take (Lookahead.first_ne_none_of_isAny hqualifier)

theorem steady_parameterList :
  parameterList.Steady (grammar.read levels)
  := by
  have htakes := State.kept_takes.read grammar levels
  refine ⟨steady_of_straight rfl, ?_, steady_of_straight rfl⟩
  apply steady_commaSeparated htakes
  refine ⟨steady_parameter, steady_of_straight rfl, Or.inr ⟨?_, .notAParameter, rfl, rfl⟩⟩
  apply flushes_node htakes

theorem steady_function :
  function.Steady (grammar.read levels)
  := ⟨steady_of_straight rfl, steady_of_straight rfl, steady_of_straight rfl,
    steady_parameterList, steady_of_straight rfl, steady_of_straight rfl⟩

theorem steady_declarationOr {other : Rule Symbol} (hother : other.straight = true) :
  (declarationOr other).Steady (grammar.read levels)
  := ⟨steady_function, steady_of_straight rfl, steady_of_straight hother⟩

/-- A loop over items advances if the items advance or take nothing. -/
theorem steady_many {item : Rule Symbol} {cause : Cause} (closing : TokenKind)
    (hitem : item.Steady (grammar.read levels))
    (hadvances : ∀ s : State, s.Advances (item.run (grammar.read levels) s)
      ∨ item.run (grammar.read levels) s = s) :
  (many closing (item.orReject cause)).Steady (grammar.read levels)
  := by
  refine ⟨?_, steady_orReject cause hitem hadvances⟩
  intro s hbefore
  apply advances_orReject (State.kept_takes.read grammar levels) cause (hadvances s)
  have hbefore : s.look.isBefore closing = true := hbefore
  rw [Lookahead.isBefore, Bool.and_eq_true] at hbefore
  simpa [Lookahead.atEnd] using hbefore.2

theorem steady_container :
  container.Steady (grammar.read levels)
  := ⟨steady_of_straight rfl, steady_of_straight rfl,
    steady_many .rBrace (steady_declarationOr rfl) (advances_member levels),
    steady_of_straight rfl⟩

theorem steady_block :
  block.Steady (grammar.read levels)
  := ⟨steady_of_straight rfl,
    steady_many .rBrace (steady_of_straight rfl) (advances_statement levels),
    steady_of_straight rfl⟩

/-! ### Expressions -/

/-- An expression takes the trivia before it, unless it nests too deep to be read. -/
theorem still_or_flushes_expression :
  expression.Still (grammar.read levels) ∨ expression.Flushes (grammar.read levels)
  := by
  cases levels with
  | zero =>
    apply Or.inl
    intro s
    by_cases hnext : (s.report fun _ => .nestedTooDeep).nextBalance? 0 = none
    · apply Or.inr
      calc (expression.run (grammar.read 0) s).count
        _ = (s.report fun _ => .nestedTooDeep).skipLevel.count := rfl
        _ = (s.report fun _ => .nestedTooDeep).count := by rw [State.skipLevel, hnext]
        _ = s.count := rfl
    · apply Or.inl (State.advances_skipLevel hnext)
  | succ levels => apply Or.inr (flushes_apart (State.kept_takes.read grammar levels) _)

theorem steady_argumentList :
  argumentList.Steady (grammar.read levels)
  := by
  have htakes := State.kept_takes.read grammar levels
  refine ⟨steady_of_straight rfl, ?_, steady_of_straight rfl⟩
  apply steady_commaSeparated htakes
  refine ⟨trivial, steady_of_straight rfl, still_or_flushes_expression.imp_right ?_⟩
  intro hflushes
  exact ⟨hflushes, .notAnArgument, rfl, rfl⟩

theorem steady_primary :
  primary.Steady (grammar.read levels)
  := ⟨trivial, trivial, ⟨trivial, steady_argumentList, trivial⟩, steady_of_straight rfl,
    steady_container, steady_of_straight rfl⟩

theorem steady_chain :
  chain.Steady (grammar.read levels)
  := by
  refine ⟨trivial, steady_primary, ?_, steady_argumentList, steady_of_straight rfl⟩
  intro s htest
  cases hparen : s.look.isAt .lParen with
  | true =>
    rw [run_branch_true hparen]
    apply advances_wrap
    apply advances_argumentList (State.kept_takes.read grammar levels) hparen
  | false =>
    have hdot : s.look.isAt .dot = true := by
      have htest : (s.look.isAt .lParen || s.look.isAt .dot && _) = true := htest
      rw [hparen, Bool.false_or, Bool.and_eq_true] at htest
      apply htest.1
    rw [run_branch_false hparen]
    apply advances_wrap
    apply advances_andThen (State.kept_takes.read grammar levels)
    apply State.advances_take (Lookahead.first_ne_none_of_isAt hdot)

theorem steady_operations (power : Nat) :
  (operations power).Steady (grammar.read levels)
  := by
  refine ⟨trivial, ?_, steady_of_straight rfl⟩
  intro s hbinds
  have hfirst : s.look.first ≠ none := by
    intro hnone
    rw [bindsOver, hnone] at hbinds
    contradiction
  have hoperation : ∀ power, s.Advances ((operation power).run (grammar.read levels) s) := by
    intro power
    apply advances_wrap
    apply advances_andThen (State.kept_takes.read grammar levels)
    apply State.advances_take hfirst
  simp only [run]
  split
  · apply hoperation
  · apply hoperation

theorem steady_grammar (levels : Nat) (symbol : Symbol) :
  (grammar symbol).Steady (grammar.read levels)
  := by
  cases symbol with
  | expression power => apply steady_operations
  | operand => exact ⟨steady_of_straight rfl, steady_of_straight rfl, steady_chain⟩
  | block => apply steady_block

theorem steady_file :
  file.Steady (grammar.read levels)
  := by
  have hitem := advances_item levels
  refine ⟨?_, steady_orReject .strayAtTop (steady_declarationOr rfl) hitem⟩
  intro s htest
  apply advances_orReject (State.kept_takes.read grammar levels) .strayAtTop (hitem s)
  simpa [Lookahead.atEnd] using htest

end Construct

namespace Parse

/-- Texts that are not too long and have the same significant tokens have the same tree, but for
trivia, and the same messages in the same order, well-formed or not, if they agree on trivia
wherever an argument or parameter was missing in one of them and no trivia stood in its place. -/
theorem ofText_alike {a b : String} (hasize : a.utf8ByteSize ≤ countLimit)
    (hbsize : b.utf8ByteSize ≤ countLimit)
    (h : Token.significant (Token.lex a) = Token.significant (Token.lex b))
    (ha : ∀ f ∈ (ofText a).faults, f.cause.countsTrivia = true →
      f.SpacedAlike (Token.lex a) (Token.lex b))
    (hb : ∀ f ∈ (ofText b).faults, f.cause.countsTrivia = true →
      f.SpacedAlike (Token.lex b) (Token.lex a)) :
  (ofText a).tree.sift = (ofText b).tree.sift
    ∧ (ofText a).faults.map (·.cause.message) = (ofText b).faults.map (·.cause.message)
  := by
  rw [ofText_of_le hasize] at ha ⊢
  rw [ofText_of_le hbsize] at hb ⊢
  have hspaced : State.Spaced (Token.lex a) (Token.lex b) (finalState (Token.lex a))
      (finalState (Token.lex b)) := by
    constructor
    · intro f hf
      apply ha f (List.mem_reverse.mpr hf)
    · intro f hf
      apply hb f (List.mem_reverse.mpr hf)
  have halike : State.Alike (Token.lex a) (Token.lex b) (finalState (Token.lex a))
      (finalState (Token.lex b)) := by
    apply State.Alike.flush
    apply Rule.alike_run (State.kept_takes.read _ _) (State.kept_faults.read _ _)
      (Grammar.alike_read Construct.steady_grammar nestingLimit) Construct.steady_file
      (State.Alike.start h) ⟨hspaced.left, hspaced.right⟩
  constructor
  · rw [sift_ofTokens, sift_ofTokens, halike.bare_eq]
  · have hcauses := congrArg (List.map Cause.message) halike.causes_eq
    rw [List.map_map, List.map_map] at hcauses
    rw [ofTokens, ofTokens, List.map_reverse, List.map_reverse]
    apply congrArg List.reverse hcauses

/-- Where no trivia stands in the place of a missing parameter in either text, other trivia does
not matter. -/
theorem ofText_alike_unspaced :
  Token.significant (Token.lex "fn f(,) void {}")
      = Token.significant (Token.lex "fn f(,)// none\nvoid{}")
    ∧ (∃ f ∈ (ofText "fn f(,) void {}").faults, f.cause.countsTrivia = true)
    ∧ (ofText "fn f(,) void {}").tree.sift = (ofText "fn f(,)// none\nvoid{}").tree.sift
    ∧ (ofText "fn f(,) void {}").faults.map (·.cause.message)
      = (ofText "fn f(,)// none\nvoid{}").faults.map (·.cause.message)
  := by
  have h : Token.significant (Token.lex "fn f(,) void {}")
      = Token.significant (Token.lex "fn f(,)// none\nvoid{}") := by decide +kernel
  have ha : ∀ f ∈ (ofText "fn f(,) void {}").faults, f.cause.countsTrivia = true →
      f.SpacedAlike (Token.lex "fn f(,) void {}") (Token.lex "fn f(,)// none\nvoid{}") := by
    decide +kernel
  have hb : ∀ f ∈ (ofText "fn f(,)// none\nvoid{}").faults, f.cause.countsTrivia = true →
      f.SpacedAlike (Token.lex "fn f(,)// none\nvoid{}") (Token.lex "fn f(,) void {}") := by
    decide +kernel
  use h, by decide +kernel
  apply ofText_alike (by decide) (by decide) h ha hb

/-- Without trivia in the place of a missing parameter there is one message more, and the next
token is in an error node. -/
theorem ofText_not_alike :
  Token.significant (Token.lex "fn f( ,) void {}") = Token.significant (Token.lex "fn f(,) void {}")
    ∧ (ofText "fn f( ,) void {}").tree.sift ≠ (ofText "fn f(,) void {}").tree.sift
    ∧ (ofText "fn f( ,) void {}").faults.map (·.cause.message)
      = ["expected expression, found Comma"]
    ∧ (ofText "fn f(,) void {}").faults.map (·.cause.message)
      = ["expected expression, found Comma", "expected parameter"]
  := by
  refine ⟨by decide +kernel, ?_, by decide +kernel, by decide +kernel⟩
  cbv
  decide

/-- If there is more trivia than can be read, then there is a message about this and no other. -/
theorem ofText_not_alike_overlong :
  Token.significant (Token.lex "") = Token.significant (Token.lex (blanks 4294967296))
    ∧ (ofText "").faults = []
    ∧ (ofText (blanks 4294967296)).faults = [⟨.tooLong 4294967296, 0⟩]
  := by
  refine ⟨?_, by decide +kernel, faults_blanks (by decide)⟩
  rw [significant_lex_blanks]
  decide +kernel

end Parse

end InlayHints
