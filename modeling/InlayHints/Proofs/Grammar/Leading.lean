import InlayHints.Proofs.Grammar.Progress
import InlayHints.Proofs.Syntax.Lossless

/-!
# Trivia before items

A list of items that goes on to the end of the text does not depend on whether the trivia before
its first item has been taken already (`Rule.run_items_flush`).  An item is a group, and so takes
this trivia itself, or it is nothing (`Rule.skipsTrivia`), and a rejection takes it as well.
-/

namespace InlayHints

namespace State

variable {s t : State}

/-- Grouping starts by taking the trivia at the front. -/
theorem within_flush (kind : NodeKind) (step : State → State) (s : State) :
  s.flush.within kind step = s.within kind step
  := by
  simp only [within, flush_flush]

/-- A fault is noted at the next token, whether the trivia before it has been taken or not. -/
theorem flush_report (cause : Option TokenKind → Cause) (s : State) :
  (s.report cause).flush = s.flush.report cause
  := by
  rw [report, report, look_flush, trivia_flush]
  rfl

theorem not_advances_self (s : State) :
  ¬ s.Advances s
  := Nat.lt_irrefl _

theorem advances_flush :
  s.flush.Advances t ↔ s.Advances t
  := by
  rw [Advances, Advances, significant_flush]

end State

namespace Rule

variable {σ : Type} {inner : σ → State → State} {r item : Rule σ} {s : State}

/-- Whether a rule is a node or does nothing, in any case. -/
def skipsTrivia : Rule σ → Bool
  | .pass => true
  | .node _ _ => true
  | .branch _ yes no => yes.skipsTrivia && no.skipsTrivia
  | _ => false

/-- A rule of this kind does nothing, or the same from after the trivia at the front. -/
theorem run_flush (hr : r.skipsTrivia = true) (s : State) :
  r.run inner s = s ∧ r.run inner s.flush = s.flush ∨ r.run inner s.flush = r.run inner s
  := by
  induction r with
  | pass => apply Or.inl ⟨rfl, rfl⟩
  | node kind body ih => apply Or.inr (State.within_flush kind _ s)
  | branch test yes no ih₁ ih₂ =>
    rw [skipsTrivia, Bool.and_eq_true] at hr
    simp only [run, State.look_flush]
    split
    · apply ih₁ hr.1
    · apply ih₂ hr.2
  | _ => contradiction

/-- A rejection takes the trivia before the token it takes. -/
theorem run_reject_flush (cause : Cause) (hfirst : s.look.first ≠ none) :
  (reject cause).run inner s.flush = (reject cause).run inner s
  := by
  have hfirst' : s.flush.look.first ≠ none := by rwa [State.look_flush]
  rw [run_reject cause hfirst, run_reject cause hfirst', ← State.flush_report]
  apply State.within_flush

section

variable (htakes : ∀ symbol s, State.Takes s (inner symbol s))
variable (hadvances : ∀ s : State, s.Advances (item.run inner s) ∨ item.run inner s = s)
variable (hitem : item.skipsTrivia = true)

include htakes hadvances hitem

/-- An item, or its rejection, is read in the same way from after the trivia at the front. -/
theorem run_orReject_flush (cause : Cause) (hfirst : s.look.first ≠ none) :
  (item.orReject cause).run inner s.flush = (item.orReject cause).run inner s
  := by
  have hflush : item.run inner s = s ∧ item.run inner s.flush = s.flush
      ∨ item.run inner s.flush = item.run inner s := run_flush hitem s
  simp only [orReject, run, State.unlessTaken]
  rcases hadvances s with htaken | hstays
  · have heq : item.run inner s.flush = item.run inner s := by
      apply hflush.resolve_left
      rintro ⟨hstays, -⟩
      rw [hstays] at htaken
      apply State.not_advances_self s htaken
    have hlt := (State.kept_takes.run htakes item s).count_lt htaken
    have hlt' := (State.kept_takes.run htakes item s.flush).count_lt
      (State.advances_flush.mpr (heq ▸ htaken))
    rw [if_neg (by omega), if_neg (by omega), heq]
  · have hstays' : item.run inner s.flush = s.flush := by
      rcases hflush with ⟨-, heq⟩ | heq
      · apply heq
      · apply (hadvances s.flush).resolve_left
        rw [heq, hstays, State.advances_flush]
        apply State.not_advances_self
    rw [hstays, hstays', if_pos rfl, if_pos rfl]
    apply run_reject_flush cause hfirst

/-- A list of items that goes on to the end of the text is read in the same way from after the
trivia at the front. -/
theorem run_items_flush (cause : Cause) (s : State) :
  ((loop (!·.atEnd) (item.orReject cause)).run inner s.flush).flush
    = ((loop (!·.atEnd) (item.orReject cause)).run inner s).flush
  := by
  simp only [run]
  cases hend : s.look.atEnd with
  | true =>
    rw [State.repeatWhile_of_false (by simp [hend]), State.repeatWhile_of_false (by simp [hend]),
      State.flush_flush]
  | false =>
    have hend' : s.flush.look.atEnd = false := by rw [State.look_flush, hend]
    rw [State.repeatWhile_of_lt (by simp [hend]) (count_orReject_lt htakes item cause hend'),
      State.repeatWhile_of_lt (by simp [hend]) (count_orReject_lt htakes item cause hend),
      run_orReject_flush htakes hadvances hitem cause (of_decide_eq_false hend)]

end

end Rule

end InlayHints
