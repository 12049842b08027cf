import InlayHints.Proofs.Grammar.Conservation
import InlayHints.Proofs.Syntax.Token.Width

/-!
# Places in a list of tokens

While a list of tokens is read, the tokens taken and the tokens ahead make up the list, and the
offset of a state is the width of what was taken (`State.At`).  Reading never leaves the list
(`State.kept_at`).
-/

namespace InlayHints

namespace State

/-- A state of reading `ts` where the tokens `before` have been taken. -/
structure At (ts before : List Token) (s : State) : Prop where
  tokens_eq : ts = before ++ s.ahead.tokens
  offset_eq : s.offset = Token.totalWidth before

namespace At

variable {ts before : List Token} {s t : State}

theorem start (ts : List Token) :
  (State.start ts).At ts []
  := ⟨rfl, rfl⟩

theorem withOut (h : s.At ts before) (out : List Tree) :
  (s.withOut out).At ts before
  := ⟨h.tokens_eq, h.offset_eq⟩

theorem report (h : s.At ts before) (cause : Option TokenKind → Cause) :
  (s.report cause).At ts before
  := ⟨h.tokens_eq, h.offset_eq⟩

theorem flush (h : s.At ts before) :
  s.flush.At ts (before ++ s.ahead.trivia)
  where
  tokens_eq := by rw [List.append_assoc, trivia_append_flush, ← h.tokens_eq]
  offset_eq := by rw [Token.totalWidth_append, ← h.offset_eq]; rfl

theorem shift (h : s.At ts before) {u : Token} {rest : List Token}
    (hahead : s.ahead.tokens = u :: rest) :
  s.shift.At ts (before ++ [u])
  := by
  have hshift : s.shift.ahead.tokens = rest ∧ s.shift.offset = s.offset + u.width := by
    unfold State.shift
    split
    · next hnil =>
      rw [hahead] at hnil
      contradiction
    · next heq =>
      rw [hahead, List.cons.injEq] at heq
      obtain ⟨rfl, rfl⟩ := heq
      simp [Input.tail, hahead]
  constructor
  · rw [hshift.1, List.append_assoc, h.tokens_eq, hahead]
    rfl
  · rw [hshift.2, Token.totalWidth_append, ← h.offset_eq, Token.totalWidth_cons]
    rfl

/-- The offset and the width of the tokens ahead add up to the width of the list. -/
theorem offset_add (h : s.At ts before) :
  s.offset + Token.totalWidth s.ahead.tokens = Token.totalWidth ts
  := by
  rw [h.offset_eq, ← Token.totalWidth_append, ← h.tokens_eq]

/-- Two states from which the same tokens are ahead are at the same place. -/
theorem offset_congr (h : s.At ts before) {before' : List Token} (h' : t.At ts before')
    (hahead : t.ahead.tokens = s.ahead.tokens) :
  t.offset = s.offset
  := by
  have hadd := h.offset_add
  have hadd' := h'.offset_add
  rw [hahead] at hadd'
  omega

end At

/-- Reading a list of tokens stays in the list. -/
theorem kept_at (ts : List Token) :
  Kept fun s t => (∃ before, s.At ts before) → ∃ before, t.At ts before
  where
  refl s := id
  trans h h' := h' ∘ h
  flush := by
    rintro s ⟨before, h⟩
    exact ⟨_, h.flush⟩
  shift := by
    rintro s ⟨before, h⟩
    cases hahead : s.ahead.tokens with
    | nil =>
      have hshift : s.shift = s := by rw [State.shift, hahead]
      rw [hshift]
      exact ⟨before, h⟩
    | cons t rest => exact ⟨_, h.shift hahead⟩
  report := by
    rintro cause s ⟨before, h⟩
    exact ⟨before, h.report cause⟩
  within := by
    rintro kind s t ht ⟨before, h⟩
    obtain ⟨before', h'⟩ := ht ⟨_, h.flush.withOut []⟩
    exact ⟨before', h'.withOut _⟩
  apart := by
    rintro s t ht ⟨before, h⟩
    obtain ⟨before', h'⟩ := ht ⟨_, h.flush.withOut []⟩
    exact ⟨before', h'.withOut _⟩
  wrap := by
    rintro kind s t ht h
    obtain ⟨before', h'⟩ := ht h
    exact ⟨before', h'.withOut _⟩

end State

end InlayHints
