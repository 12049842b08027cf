import InlayHints.Proofs.Grammar.Framing
import InlayHints.Proofs.Grammar.Faultless

/-!
# Reading goes forward

`State.Advances s t` says that a significant token was taken between two states.  A rule
advances where it starts by taking a token (`Rule.Opens`), whatever comes after that, and so
does a rule that has such a part.  A rule that opens a group takes the trivia before the group
and then stays where it is, unless it advances (`State.Takes.advances_or_ahead_eq`).
-/

namespace InlayHints

namespace Lookahead

variable {a : Lookahead}

theorem first_ne_none_of_isAt {k : TokenKind} (h : a.isAt k = true) :
  a.first ≠ none
  := by
  rw [isAt, decide_eq_true_eq] at h
  rw [h]
  apply Option.some_ne_none

theorem first_ne_none_of_isAny {p : TokenKind → Bool} (h : a.isAny p = true) :
  a.first ≠ none
  := by
  intro hnone
  rw [isAny, hnone] at h
  contradiction

/-- Where a keyword can be seen, a token is ahead. -/
theorem first_ne_none_of_keyword (h : a.keyword ≠ none) :
  a.first ≠ none
  := by
  rw [keyword] at h
  split at h
  · next hpub => apply first_ne_none_of_isAt hpub
  · apply h

theorem keyword_of_isAt_pub (h : a.isAt .pubKw = false) :
  a.keyword = a.first
  := if_neg (Bool.eq_false_iff.mp h)

end Lookahead

namespace State

variable {s t u : State}

/-- Between two states a significant token was taken. -/
def Advances (s t : State) : Prop := t.significant.length < s.significant.length

/-- Reading takes significant tokens from the front. -/
theorem Takes.significant_eq (h : s.Takes t) :
  ∃ ts, s.significant = ts ++ t.significant
  := by
  obtain ⟨ts, hahead, -⟩ := h
  use Token.significant ts
  rw [significant, hahead, Token.significant, List.filter_append]
  rfl

theorem Takes.significant_length_le (h : s.Takes t) :
  t.significant.length ≤ s.significant.length
  := by
  obtain ⟨ts, heq⟩ := h.significant_eq
  rw [heq, List.length_append]
  apply Nat.le_add_left

theorem Advances.trans_takes (h : s.Advances t) (h' : t.Takes u) :
  s.Advances u
  := Nat.lt_of_le_of_lt h'.significant_length_le h

theorem advances_take (h : s.look.first ≠ none) :
  s.Advances s.take
  := by
  have hne : s.significant ≠ [] := by
    intro hnil
    apply h (look_first_eq_none.mpr hnil)
  rw [Advances, significant_take, List.length_tail]
  have := List.length_pos_iff.mpr hne
  omega

/-- Nodes and groups advance if what is read in them does. -/
theorem advances_of_opened (h : (s.flush.withOut []).Advances t) (out : List Tree) :
  s.Advances (t.withOut out)
  := by
  rw [Advances, significant_withOut, significant_flush] at h
  apply h

/-- Where something is left of the level, skipping it advances. -/
theorem advances_skipLevel (h : s.nextBalance? 0 ≠ none) :
  s.Advances s.skipLevel
  := by
  obtain ⟨opened, hsome⟩ := Option.ne_none_iff_exists'.mp h
  have hnext : (s.flush.withOut []).nextBalance? 0 = some opened := by
    rw [nextBalance?, look_withOut, look_flush, ← nextBalance?, hsome]
  have hfirst : (s.flush.withOut []).look.first ≠ none := by
    intro hnone
    rw [nextBalance?, hnone] at hnext
    contradiction
  rw [skipLevel, hsome]
  apply advances_of_opened
  rw [takeLevel_of_some hnext]
  apply (advances_take hfirst).trans_takes (kept_takes.takeLevel _ _)

/-- In a group, reading advances or takes only the trivia before the group. -/
theorem Takes.advances_or_ahead_eq (h : (s.flush.withOut []).Takes t) :
  s.Advances t ∨ t.ahead.tokens = s.flush.ahead.tokens
  := by
  obtain ⟨ts, hahead, -⟩ := h
  cases ts with
  | nil => apply Or.inr hahead.symm
  | cons u us =>
    apply Or.inl
    have hdrop : s.ahead.tokens.dropWhile Token.isTrivia = u :: (us ++ t.ahead.tokens) := hahead
    rw [Advances, significant, significant, Token.significant_of_dropWhile hdrop,
      Token.significant, Token.significant, List.filter_append, List.length_cons,
      List.length_append]
    omega

end State

namespace Rule

variable {σ : Type} {inner : σ → State → State} {s : State} {r first second : Rule σ}

/-- From a state on, a rule takes a token first, and goes on by a framed rule. -/
def Opens (inner : σ → State → State) (r : Rule σ) (s : State) : Prop :=
  ∃ rest : Rule σ, rest.framed = true ∧ r.run inner s = rest.run inner s.take

theorem opens_take (inner : σ → State → State) (s : State) :
  take.Opens inner s
  := ⟨pass, rfl, rfl⟩

theorem Opens.andThen (h : first.Opens inner s) (hsecond : second.framed = true) :
  (first >> second).Opens inner s
  := by
  obtain ⟨rest, hrest, heq⟩ := h
  use rest >> second
  constructor
  · apply Bool.and_eq_true_iff.mpr ⟨hrest, hsecond⟩
  · rw [run_andThen, heq]
    rfl

theorem opens_expect {k : TokenKind} (h : s.look.isAt k = true) :
  (expect k).Opens inner s
  := by
  use pass, rfl
  apply run_expect_true h

/-- A node of the whole group is not a step back. -/
theorem advances_wrap {kind : NodeKind} (h : s.Advances (r.run inner s)) :
  s.Advances ((wrap kind r).run inner s)
  := h

/-- A rule after a token that may be missing is reached, or the token is taken. -/
theorem opens_accept {k : TokenKind} (hsecond : second.framed = true)
    (h : s.look.isAt k = false → second.Opens inner s) :
  (accept k >> second).Opens inner s
  := by
  rw [Opens, run_andThen]
  cases hk : s.look.isAt k with
  | true =>
    use second, hsecond
    rw [run_accept_true hk]
  | false =>
    rw [run_accept_false hk]
    apply h hk

/-- Where a token is ahead, a rejection puts it into an error node. -/
theorem run_reject (cause : Cause) (hfirst : s.look.first ≠ none) :
  (reject cause).run inner s = (s.report fun _ => cause).within .error State.take
  := by
  have hend : (s.report fun _ => cause).look.atEnd = false := decide_eq_false hfirst
  rw [reject, run_andThen, whenNot, run, run_branch_false hend]
  rfl

section

variable (htakes : ∀ symbol s, State.Takes s (inner symbol s))

include htakes

theorem advances_of_opens (h : r.Opens inner s) (hfirst : s.look.first ≠ none) :
  s.Advances (r.run inner s)
  := by
  obtain ⟨rest, -, heq⟩ := h
  rw [heq]
  apply (State.advances_take hfirst).trans_takes (State.kept_takes.run htakes rest _)

theorem advances_andThen (h : s.Advances (first.run inner s)) :
  s.Advances ((first >> second).run inner s)
  := h.trans_takes (State.kept_takes.run htakes second _)

/-- A node advances if its body starts by taking a token. -/
theorem advances_node {kind : NodeKind} (h : r.Opens inner (s.flush.withOut []))
    (hfirst : s.look.first ≠ none) :
  s.Advances ((node kind r).run inner s)
  := by
  apply State.advances_of_opened
  apply advances_of_opens htakes h
  rw [State.look_withOut, State.look_flush]
  apply hfirst

/-- A rejection takes the next token. -/
theorem advances_reject {cause : Cause} (hfirst : s.look.first ≠ none) :
  s.Advances ((reject cause).run inner s)
  := by
  rw [run_reject cause hfirst]
  apply advances_node (s := s.report fun _ => cause) htakes (opens_take inner _) hfirst

/-- A rule followed by a rejection advances where a token is ahead, if it advances itself or
takes nothing. -/
theorem advances_orReject {item : Rule σ} (cause : Cause)
    (hitem : s.Advances (item.run inner s) ∨ item.run inner s = s) (hfirst : s.look.first ≠ none) :
  s.Advances ((item.orReject cause).run inner s)
  := by
  simp only [orReject, run, State.unlessTaken]
  split
  · next heq =>
    rcases hitem with hadvances | hsame
    · have hlt := (State.kept_takes.run htakes item s).count_lt hadvances
      omega
    · rw [hsame]
      apply advances_reject htakes hfirst
  · next hne =>
    apply hitem.resolve_right
    intro hsame
    apply hne (congrArg State.count hsame)

end

end Rule

end InlayHints
