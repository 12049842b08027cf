import InlayHints.Proofs.Grammar.Skipping
import InlayHints.Proofs.Syntax.Lossless
import InlayHints.Proofs.Syntax.Price

/-!
# Reading comes to an end

A round of a repetition that pays for itself takes a token, so nothing is ever repeated in vain
(`Rule.progresses_of_settles`), and what may take no token at all, an expression, is missed only
where the next token ends expressions.  Reading a list of tokens takes a number of steps that is
linear in the number of tokens, whatever the limit of nesting (`Construct.reading_terminates`).
-/

namespace InlayHints

namespace Rule

variable {σ : Type} {r : Rule σ}

/-- Every round of a repetition takes a token, and what is read with a rejection in its place takes
a token where one is ahead. -/
def Progresses (inner : σ → State → State) : Rule σ → Prop
  | .seq first second => first.Progresses inner ∧ second.Progresses inner
  | .node _ body => body.Progresses inner
  | .apart body => body.Progresses inner
  | .wrap _ body => body.Progresses inner
  | .branch _ yes no => yes.Progresses inner ∧ no.Progresses inner
  | .loop test body =>
    (∀ s, test s.look = true → (body.run inner s).count < s.count) ∧ body.Progresses inner
  | .unlessTaken body other =>
    (∀ s, s.look.atEnd = false → ((unlessTaken body other).run inner s).count < s.count)
      ∧ body.Progresses inner ∧ other.Progresses inner
  | _ => True

/-- Rounds that pay for themselves take a token. -/
theorem progresses_of_settles {S : Setting σ}
    (htakes : ∀ symbol s, State.Takes s (S.inner symbol s)) (hr : r.Settles S) :
  r.Progresses S.inner
  := by
  induction r with
  | seq first second ih₁ ih₂ => exact ⟨ih₁ hr.1, ih₂ hr.2⟩
  | node kind body ih => apply ih hr
  | apart body ih => apply ih hr
  | wrap kind body ih => apply ih hr
  | branch test yes no ih₁ ih₂ => exact ⟨ih₁ hr.1, ih₂ hr.2⟩
  | loop test body ih =>
    refine ⟨?_, ih hr.2⟩
    intro s htest
    apply (hr.1 s htest []).count_lt (by decide)
  | unlessTaken body other ih₁ ih₂ =>
    obtain ⟨hbody, cause, rfl⟩ := hr
    refine ⟨?_, ih₁ hbody, trivial, trivial, trivial⟩
    intro s hend
    apply count_orReject_lt htakes body cause hend
  | _ => trivial

end Rule

/-- A round of skipping takes a token. -/
theorem State.Round.count_lt {c d : Nat × State} (h : Round c d) :
  d.2.count < c.2.count
  := by
  cases h with
  | take hnext =>
    apply count_take_lt_of_nextBalance?
    rw [hnext]
    apply Option.some_ne_none

namespace Construct

open Rule

theorem progresses_file (levels : Nat) :
  file.Progresses (grammar.read levels)
  := progresses_of_settles (State.kept_takes.read grammar levels)
    (settles_file (priced (Nat.le_refl levels)))

theorem progresses_grammar (levels : Nat) (symbol : Symbol) :
  (grammar symbol).Progresses (grammar.read levels)
  := progresses_of_settles (State.kept_takes.read grammar levels)
    (settles_grammar (priced (Nat.le_refl levels)) symbol)

/-- A reader of a file stops after a number of steps that is linear in the number of tokens, and
then it has read the file. -/
theorem after_start_file (limit : Nat) (ts : List Token) :
  (Reader.start file ts).after grammar limit (price * ts.length + 1)
    = ⟨[], 0, file.run (grammar.read limit) (.start ts)⟩
  := by
  have hS := priced (Nat.le_refl limit)
  have hcosts := costs_of_settles hS.symbols (settles_file hS) (.start ts)
  apply Reader.after_start hcosts
  exact Nat.le_refl _

/-- From any state and for any limit of nesting, every round of a repetition takes a token, those of
skipping included, and every item that is rejected if it takes nothing; an expression takes a
significant token, or a fault is noted, no significant token is taken and the next one ends
expressions.  So reading a list of tokens ends, after a number of steps that is linear in the number
of tokens. -/
theorem reading_terminates (limit : Nat) :
  file.Progresses (grammar.read limit)
    ∧ (∀ symbol, (grammar symbol).Progresses (grammar.read limit))
    ∧ (∀ c d, State.Round c d → d.2.count < c.2.count)
    ∧ (∀ power s, s.Advances (grammar.read limit (.expression power) s)
      ∨ Misses s (grammar.read limit (.expression power) s)
        ∧ endsExpression s.look.first = true)
    ∧ ∀ ts, (Reader.start file ts).after grammar limit (price * ts.length + 1)
      = ⟨[], 0, file.run (grammar.read limit) (.start ts)⟩
  := by
  refine ⟨progresses_file limit, progresses_grammar limit, ?_, ?_, after_start_file limit⟩
  · intro c d hround
    apply hround.count_lt
  · intro power s
    apply attempts_expression

end Construct

end InlayHints
