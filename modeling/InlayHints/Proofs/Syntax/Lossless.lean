import InlayHints.Proofs.Grammar.Conservation
import InlayHints.Proofs.Grammar.Significant
import InlayHints.Proofs.Syntax.Rejection

/-!
# Parsing loses nothing

The leaves of the tree of a text are the tokens it was cut into, each one once and in order, so
the tree covers exactly the text, unless the text is too long to be read.  This follows from what
is known of every piece of reading, `State.kept_takes`, once it is known that reading a file stops
only at its end.
-/

namespace InlayHints

namespace State

/-- A node around the next token takes it if there is one. -/
theorem count_within_take_lt (kind : NodeKind) {s : State} (h : s.look.atEnd = false) :
  (s.within kind State.take).count < s.count
  := by
  have hopened : (s.flush.withOut []).look.first ≠ none := by
    rw [Ne, look_first_eq_none, significant_withOut, significant_flush, ← look_first_eq_none]
    simpa [Lookahead.atEnd] using h
  calc (s.within kind State.take).count
    _ = (s.flush.withOut []).take.count := rfl
    _ < (s.flush.withOut []).count := count_take_lt hopened
    _ ≤ s.count := count_flush_le s

/-- A loop over the rest of a text stops only where nothing but trivia is left, if its steps
take a token wherever there is one. -/
theorem atEnd_repeatWhile {step : State → State}
    (hstep : ∀ s, s.look.atEnd = false → (step s).count < s.count) (s : State) :
  (s.repeatWhile (!·.atEnd) step).look.atEnd = true
  := by
  fun_induction State.repeatWhile (!·.atEnd) step s with
  | case1 s htest next hlt ih => apply ih
  | case2 s htest next hlt =>
    apply absurd _ hlt
    apply hstep
    simpa using htest
  | case3 s htest => simpa using htest

/-- Where nothing but trivia is left, no token is left once the trivia is taken. -/
theorem tokens_flush_of_atEnd {s : State} (h : s.look.atEnd = true) :
  s.flush.ahead.tokens = []
  := by
  simp only [look, Input.look] at h
  split at h
  · next heq => apply heq
  · simp [Lookahead.atEnd] at h

end State

namespace Rule

variable {σ : Type} {inner : σ → State → State}

/-- A rejection takes the next token if there is one. -/
theorem count_reject_lt (cause : Cause) {s : State} (h : s.look.atEnd = false) :
  ((reject cause).run inner s).count < s.count
  := by
  have hreport : (s.report fun _ => cause).look.atEnd = false := h
  simp only [reject, whenNot, run_andThen, run, hreport]
  apply State.count_within_take_lt .error hreport

/-- A rule that is followed by a rejection if it takes nothing takes a token if there is one. -/
theorem count_orReject_lt (hinner : ∀ symbol s, State.Takes s (inner symbol s))
    (item : Rule σ) (cause : Cause) {s : State} (h : s.look.atEnd = false) :
  ((item.orReject cause).run inner s).count < s.count
  := by
  have htakes := State.kept_takes.run hinner item s
  simp only [orReject, run, State.unlessTaken]
  split
  · next heq =>
    -- the item took nothing, so the next token is still there to be rejected
    have hend : (item.run inner s).look.atEnd = false := by
      rw [State.look_eq, State.significant, htakes.tokens_eq heq, ← State.significant,
        ← State.look_eq, h]
    have : ((reject cause).run inner (item.run inner s)).count < _ := count_reject_lt cause hend
    omega
  · next hne =>
    have := htakes.count_le
    omega

end Rule

namespace Parse

/-- Reading a file takes all its tokens. -/
theorem tokens_finalState (ts : List Token) :
  (finalState ts).ahead.tokens = []
  := by
  apply State.tokens_flush_of_atEnd
  apply State.atEnd_repeatWhile
  intro s h
  apply Rule.count_orReject_lt (State.kept_takes.read _ _) _ _ h

/-- The leaves of the tree of a list of tokens are these tokens. -/
theorem tokens_ofTokens (ts : List Token) :
  (ofTokens ts).tree.tokens = ts
  := by
  obtain ⟨us, hahead, htaken⟩ := State.kept_takes.finalState ts
  have hstart : ts = us ++ (finalState ts).ahead.tokens := hahead
  rw [tokens_finalState, List.append_nil] at hstart
  calc (ofTokens ts).tree.tokens
    _ = (finalState ts).taken := by apply Tree.tokens_node
    _ = us := htaken
    _ = ts := hstart.symm

theorem tokens_ofText {text : String} (h : text.utf8ByteSize ≤ countLimit) :
  (ofText text).tree.tokens = Token.lex text
  := by
  rw [ofText_of_le h, tokens_ofTokens]

/-- The leaves of the tree of any text are the first pieces of the text, if not all of them. -/
theorem prefix_tokens_ofText (text : String) :
  (ofText text).tree.tokens <+: Lexer.pieces text
  := by
  rcases Nat.lt_or_ge countLimit text.utf8ByteSize with hlt | hle
  · rw [ofText_of_lt hlt, tree_rejected, tokens_ofTokens]
    apply List.nil_prefix
  · rw [tokens_ofText hle]
    apply Token.prefix_lex

/-- Parsing loses nothing: the leaves of the tree of a text are, in order, the tokens of the
text, so that the tree covers the text, and no token is left when the file has been read. -/
theorem tree_ofText_lossless {text : String} (h : text.utf8ByteSize ≤ countLimit) :
  (ofText text).tree.tokens = Token.lex text
    ∧ (ofText text).tree.text = text
    ∧ (finalState (Token.lex text)).ahead.tokens = []
  := by
  refine ⟨tokens_ofText h, ?_, tokens_finalState _⟩
  apply String.toList_injective
  rw [Tree.toList_text, tokens_ofText h, Token.lex_texts h]

/-- Garbage, an unclosed string and a comment at the end are kept. -/
theorem tree_ofText_lossless_garbage :
  ") fn f(\"a\n// b".utf8ByteSize ≤ countLimit
    ∧ (ofText ") fn f(\"a\n// b").tree.text = ") fn f(\"a\n// b"
  := by
  have h : ") fn f(\"a\n// b".utf8ByteSize ≤ countLimit := by decide
  use h
  obtain ⟨-, htext, -⟩ := tree_ofText_lossless h
  apply htext

end Parse

end InlayHints
