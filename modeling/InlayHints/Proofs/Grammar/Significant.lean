import InlayHints.Grammar.State

/-!
# Significant tokens

Tokens other than trivia decide how a text is read.  `State.significant` are those ahead;
what can be seen of the tokens ahead is a function of them (`State.look_eq`), taking trivia
does not change them (`State.significant_flush`), and taking a token takes the first of them
(`State.significant_take`).
-/

namespace InlayHints

/-- The tokens other than trivia. -/
def Token.significant (ts : List Token) : List Token := ts.filter (!·.isTrivia)

/-- What can be seen of a list of tokens other than trivia. -/
def Lookahead.ofTokens : List Token → Lookahead
  | [] => ⟨none, none⟩
  | t :: ts => ⟨some t.kind, ts.head?.map Token.kind⟩

namespace Token

theorem significant_append (ts us : List Token) :
  significant (ts ++ us) = significant ts ++ significant us
  := List.filter_append ts us

/-- No significant token is left if and only if all tokens are trivia. -/
theorem significant_eq_nil {ts : List Token} :
  significant ts = [] ↔ ∀ t ∈ ts, t.isTrivia = true
  := by
  simp [significant]

/-- Leaving out the trivia at the front leaves out no significant token. -/
@[simp]
theorem significant_dropWhile (ts : List Token) :
  significant (ts.dropWhile isTrivia) = significant ts
  := by
  induction ts with
  | nil => rfl
  | cons t ts ih =>
    cases h : t.isTrivia with
    | true =>
      rw [List.dropWhile_cons_of_pos h, ih]
      simp [significant, h]
    | false => rw [List.dropWhile_cons_of_neg (by simp [h])]

/-- The first token after the trivia at the front is the first significant one. -/
theorem head?_dropWhile (ts : List Token) :
  (ts.dropWhile isTrivia).head? = (significant ts).head?
  := by
  induction ts with
  | nil => rfl
  | cons t ts ih =>
    cases h : t.isTrivia with
    | true => simp [significant, h, ih]
    | false => simp [significant, h]

/-- What follows the trivia at the front is no trivia. -/
theorem isTrivia_of_dropWhile {t : Token} {ts us : List Token}
    (h : ts.dropWhile isTrivia = t :: us) :
  t.isTrivia = false
  := by
  have := List.head?_dropWhile_not isTrivia ts
  simpa [h] using this

/-- What follows the trivia at the front is the first significant token and then the others. -/
theorem significant_of_dropWhile {t : Token} {ts us : List Token}
    (h : ts.dropWhile isTrivia = t :: us) :
  significant ts = t :: significant us
  := by
  rw [← significant_dropWhile, h]
  simp [significant, isTrivia_of_dropWhile h]

end Token

namespace State

/-- The significant tokens ahead. -/
def significant (s : State) : List Token := Token.significant s.ahead.tokens

/-- What is seen of the tokens ahead depends on the significant ones only. -/
theorem look_eq (s : State) :
  s.look = Lookahead.ofTokens s.significant
  := by
  rw [look, Input.look, significant]
  split
  · next heq =>
    have hdrop : s.ahead.tokens.dropWhile Token.isTrivia = [] := heq
    rw [← Token.significant_dropWhile, hdrop]
    rfl
  · next t ts heq =>
    rw [Token.significant_of_dropWhile heq, Lookahead.ofTokens, Token.head?_dropWhile]

@[simp]
theorem significant_withOut (s : State) (out : List Tree) :
  (s.withOut out).significant = s.significant
  := rfl

@[simp]
theorem significant_flush (s : State) :
  s.flush.significant = s.significant
  := Token.significant_dropWhile _

@[simp]
theorem look_withOut (s : State) (out : List Tree) :
  (s.withOut out).look = s.look
  := rfl

@[simp]
theorem look_flush (s : State) :
  s.flush.look = s.look
  := by
  rw [look_eq, look_eq, significant_flush]

/-- No trivia is at the front once it was taken. -/
theorem trivia_flush (s : State) :
  s.flush.ahead.trivia = []
  := by
  have hahead : s.flush.ahead.tokens = s.ahead.tokens.dropWhile Token.isTrivia := rfl
  rw [Input.trivia, hahead]
  cases hdrop : s.ahead.tokens.dropWhile Token.isTrivia with
  | nil => rfl
  | cons t us => simp [Token.isTrivia_of_dropWhile hdrop]

/-- Where no trivia is at the front, there is nothing to take. -/
theorem flush_eq_self {s : State} (h : s.ahead.trivia = []) :
  s.flush = s
  := by
  obtain ⟨⟨tokens, count, hcount⟩, offset, out, faults⟩ := s
  have htokens : tokens.dropWhile Token.isTrivia = tokens := by
    have happend : tokens.takeWhile Token.isTrivia ++ tokens.dropWhile Token.isTrivia = tokens :=
      List.takeWhile_append_dropWhile
    have htake : tokens.takeWhile Token.isTrivia = [] := h
    rwa [htake] at happend
  simp only [flush, h, Input.afterTrivia]
  simp [htokens, Token.totalWidth]

/-- Trivia is taken once. -/
@[simp]
theorem flush_flush (s : State) :
  s.flush.flush = s.flush
  := flush_eq_self (trivia_flush s)

/-- Nothing can be seen ahead exactly when no significant token is left. -/
theorem look_first_eq_none {s : State} :
  s.look.first = none ↔ s.significant = []
  := by
  rw [look_eq]
  cases s.significant with
  | nil => simp [Lookahead.ofTokens]
  | cons t ts => simp [Lookahead.ofTokens]

/-- Taking a token takes the first significant one. -/
@[simp]
theorem significant_take (s : State) :
  s.take.significant = s.significant.tail
  := by
  rw [take, shift]
  split
  · next heq =>
    rw [← significant_flush s, significant, heq]
    rfl
  · next t ts heq =>
    have hdrop : s.ahead.tokens.dropWhile Token.isTrivia = t :: ts := heq
    rw [significant, significant, Token.significant_of_dropWhile hdrop]
    simp [Input.tail, heq]

end State

end InlayHints
